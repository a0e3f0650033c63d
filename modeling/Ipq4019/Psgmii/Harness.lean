import Ipq4019.Mdio.Line
import Ipq4019.Psgmii.Wait

/-!
# The PSGMII self-test: the two tests

`psgmii_st_run_test_serial` and `psgmii_st_run_test_parallel` with working MDIO: every transaction is
performed and reported.  What the registers of the PHYs hold may change at any time.

* `run_parallel`, `run_testsSerial`: the result, and which PHYs a run touches and powers down.
* `self_test_harness`: the harness and both tests.
-/

namespace Ipq4019.Psgmii.Harness

open Ipq4019.Lib.Interleave Ipq4019.Lib.Interleave.Prog
open Ipq4019.Mdio.Driver Ipq4019.Mdio.Bank Ipq4019.Mdio.Line
open Ipq4019.Chip.Access Ipq4019.Psgmii.Driver Ipq4019.Psgmii.Wait

/-! ### Working MDIO -/

/-- The PHYs, with every transaction as it should be. -/
abbrev lab (env : Board Phys → Board Phys → Prop) : Machine socSig (Board Phys) :=
  board (outcome .ok) env

/-- The same register is selected for indirect access. -/
def SameSel (s t : Board Phys) : Prop :=
  ∀ p, (t.phys p).ctrl = (s.phys p).ctrl ∧ (t.phys p).addr = (s.phys p).addr

/-- Only the driver selects registers. -/
def Beside (env : Board Phys → Board Phys → Prop) : Prop := ∀ s t, env s t → SameSel s t

variable {env : Board Phys → Board Phys → Prop} {s s' t : Board Phys}
  {l : List (SocOp × Board Phys)} {a : UInt8} {p : ℕ} {r : Int}

theorem Beside.steps (henv : Beside env) (h : (lab env).Env s t) : SameSel s t := by
  induction h with
  | refl => exact fun p => ⟨rfl, rfl⟩
  | tail _ he ih =>
    intro p
    obtain ⟨hc, ha⟩ := henv _ _ he p
    exact ⟨hc.trans (ih p).1, ha.trans (ih p).2⟩

/-- A transaction of a call. -/
theorem bus_run {α : Type} {o : BusOp} {k : o.Res → Bus α} {x : α}
    (h : Run (lab env) s (onSoc (.op (S := busSig) o k)) l s' (.ret x)) :
    ∃ t l', (lab env).Env s t ∧ l = (.bus o, t) :: l' ∧
      Run (lab env) { t with phys := (outcome .ok o t.phys).2 }
        (onSoc (k (outcome .ok o t.phys).1)) l' s' (.ret x) := by
  rcases h.op_inv with ⟨hq, -⟩ | ⟨t, l', he, hl, hr⟩
  · cases hq
  · exact ⟨t, l', he, hl, hr⟩

theorem phys_write (a reg : UInt8) (v : UInt16) (b : Phys) :
    (outcome .ok (.write a reg v) b).2 (low5 a) = (b (low5 a)).write (low5 reg) v := by
  change (perform (Mdio.Call.txnOf (.write a reg v)) b).2 (low5 a) = _
  rw [perform_write]
  exact Function.update_self _ _ _

theorem read_value (a reg : UInt8) (val : UInt16) (b : Phys) :
    ((outcome .ok (.read a reg val) b).1 : Int × UInt16) =
      (0, ((b (low5 a)).read (low5 reg)).1) := by
  change Mdio.Call.succeeded (perform (Mdio.Call.txnOf (.read a reg val)) b).1 (.read a reg val) = _
  rw [perform_read]
  exact succeeded_read a reg val _

/-- The register `r` of the device `d` is selected, for data. -/
structure Selected (q : Phy) (d : Fin 32) (r : UInt16) : Prop where
  func : q.func = 1
  dev : q.dev = d
  addr : q.addr d = r

theorem Selected.congr {q q' : Phy} {d : Fin 32} {r : UInt16} (h : Selected q d r)
    (hc : q'.ctrl = q.ctrl) (ha : q'.addr = q.addr) : Selected q' d r := by
  obtain ⟨h₁, h₂, h₃⟩ := h
  refine ⟨?_, ?_, ha ▸ h₃⟩
  · rw [← h₁]
    unfold Phy.func
    rw [hc]
  · rw [← h₂]
    unfold Phy.dev
    simp only [hc]

theorem Selected.load {q : Phy} {d : Fin 32} {r : UInt16} (h : Selected q d r) :
    q.loadData.1 = q.mmd d r := by
  rw [loadData_data h.func, h.dev, h.addr]

section runs

variable (henv : Beside env)
include henv

/-- **A read of an MMD register**: the four transactions, and what the last finds. -/
theorem run_readMmd {d : UInt8} {reg : UInt16} {α : Type} {f : UInt16 → Bus α} {x : α}
    (h : Run (lab env) s (onSoc (ipq4019PhyReadMmd a d reg >>= f)) l s' (.ret x)) :
    ∃ t₁ t₂ t₃ t₄ s₁ l', l = (.bus (.write a miiMmdCtrl d.toUInt16), t₁) ::
        (.bus (.write a miiMmdData reg), t₂) ::
        (.bus (.write a miiMmdCtrl (mmdCtrlData ||| d.toUInt16)), t₃) ::
        (.bus (.read a miiMmdData 0), t₄) :: l' ∧
      Selected (t₄.phys (low5 a)) (low5 d) reg ∧
      Run (lab env) s₁ (onSoc (f ((t₄.phys (low5 a)).mmd (low5 d) reg))) l' s' (.ret x) := by
  obtain ⟨t₁, l₁, -, rfl, h₁⟩ := bus_run h
  obtain ⟨t₂, l₂, he₂, rfl, h₂⟩ := bus_run h₁
  obtain ⟨t₃, l₃, he₃, rfl, h₃⟩ := bus_run h₂
  obtain ⟨t₄, l₄, he₄, rfl, h₄⟩ := bus_run h₃
  -- the address register is written under the address function
  have hc₂ : (t₂.phys (low5 a)).ctrl = d.toUInt16 := by
    rw [(henv.steps he₂ (low5 a)).1]
    exact congrArg Phy.ctrl (phys_write a miiMmdCtrl d.toUInt16 t₁.phys)
  have ha₃ : (t₃.phys (low5 a)).addr (low5 d) = reg := by
    have hq : t₂.phys (low5 a) = { t₂.phys (low5 a) with ctrl := d.toUInt16 } := by
      rw [← hc₂]
    have hst : ((t₂.phys (low5 a)).write (low5 miiMmdData) reg).addr (low5 d) = reg := by
      rw [hq, write_data, storeData_address func_address, dev_address]
      exact Function.update_self _ _ _
    rw [(henv.steps he₃ (low5 a)).2]
    exact (congrArg (fun q => q.addr (low5 d)) (phys_write a miiMmdData reg t₂.phys)).trans hst
  have hsel : Selected (t₄.phys (low5 a)) (low5 d) reg := by
    have hwr := phys_write a miiMmdCtrl (mmdCtrlData ||| d.toUInt16) t₃.phys
    refine Selected.congr (q := { t₃.phys (low5 a) with ctrl := mmdCtrlData ||| d.toUInt16 })
      ⟨func_data, dev_data, ha₃⟩ ?_ ?_
    · rw [(henv.steps he₄ (low5 a)).1]
      exact congrArg Phy.ctrl hwr
    · rw [(henv.steps he₄ (low5 a)).2]
      exact congrArg Phy.addr hwr
  have hval : ((outcome .ok (.read a miiMmdData 0) t₄.phys).1 : Int × UInt16) =
      (0, (t₄.phys (low5 a)).mmd (low5 d) reg) := by
    rw [read_value, read_data, hsel.load]
  change Run (lab env) _ (onSoc (f ((outcome .ok (.read a miiMmdData 0) t₄.phys).1 :
    Int × UInt16).2)) l₄ s' _ at h₄
  rw [hval] at h₄
  exact ⟨t₁, t₂, t₃, t₄, _, l₄, rfl, hsel, h₄⟩

/-! ### What a run does to a PHY -/

/-- The PHY is read with its egress counter selected, and the counter is full. -/
def FullAt (a : UInt8) (x : SocOp × Board Phys) : Prop :=
  x.1 = .bus (.read a miiMmdData 0) ∧
    Selected (x.2.phys (low5 a)) (low5 mdioMmdAn) qca807xMmd7ValidEgressCounter2 ∧
    ((x.2.phys (low5 a)).mmd (low5 mdioMmdAn) qca807xMmd7ValidEgressCounter2).toNat =
      psgmiiStPktCount

/-- **The PHY shows the full egress count** in one of its polls. -/
def Shows (a : UInt8) (l : List (SocOp × Board Phys)) : Prop := ∃ x ∈ l, FullAt a x

/-- A transaction with the PHY. -/
def Touches (a : UInt8) : SocOp → Prop
  | .bus (.read phy _ _) => phy = a
  | .bus (.write phy _ _) => phy = a
  | _ => False

/-- An access that touches at most this PHY, and is none to the registers of the chip. -/
def Only (a : UInt8) : SocOp → Prop
  | .bus (.read phy _ _) => phy = a
  | .bus (.write phy _ _) => phy = a
  | .mdelay _ => True
  | _ => False

/-- An access that reads no MMD register. -/
def NoMmdRead : SocOp → Prop
  | .bus (.read _ reg _) => reg ≠ miiMmdData
  | _ => True

omit henv

theorem Only.eq_of_touches {b : UInt8} {o : SocOp} (h : Only a o) (hb : Touches b o) : b = a := by
  cases o with
  | bus o =>
    cases o with
    | read phy reg val => exact hb.symm.trans h
    | write phy reg val => exact hb.symm.trans h
  | mdelay ms => exact hb.elim
  | readl a => exact hb.elim
  | writel v a => exact hb.elim

theorem FullAt.touches {x : SocOp × Board Phys} (h : FullAt a x) : Touches a x.1 := by
  rw [h.1]
  rfl

theorem not_fullAt {x : SocOp × Board Phys} (h : NoMmdRead x.1) : ¬ FullAt a x := by
  intro hf
  rw [hf.1] at h
  exact h rfl

theorem shows_append {l₁ l₂ : List (SocOp × Board Phys)} :
    Shows a (l₁ ++ l₂) ↔ Shows a l₁ ∨ Shows a l₂ := by
  unfold Shows
  simp only [List.mem_append, or_and_right, exists_or]

theorem shows_cons {x : SocOp × Board Phys} : Shows a (x :: l) ↔ FullAt a x ∨ Shows a l := by
  unfold Shows
  simp only [List.mem_cons, exists_eq_or_imp]

/-- Of a read of an MMD register the last transaction matters. -/
theorem shows_readMmd {b d : UInt8} {reg : UInt16} {t₁ t₂ t₃ t₄ : Board Phys} :
    Shows b ((.bus (.write a miiMmdCtrl d.toUInt16), t₁) :: (.bus (.write a miiMmdData reg), t₂) ::
      (.bus (.write a miiMmdCtrl (mmdCtrlData ||| d.toUInt16)), t₃) ::
      (.bus (.read a miiMmdData 0), t₄) :: l) ↔
    FullAt b (.bus (.read a miiMmdData 0), t₄) ∨ Shows b l := by
  have hwrite : ∀ reg v t, ¬ FullAt b (.bus (.write a reg v), t) :=
    fun reg v t => not_fullAt (x := (.bus (.write a reg v), t)) trivial
  rw [shows_cons, shows_cons, shows_cons, shows_cons]
  simp only [hwrite, false_or]

theorem not_shows_of_noMmdRead (h : ∀ x ∈ l, NoMmdRead x.1) : ¬ Shows a l := by
  rintro ⟨x, hx, hf⟩
  exact not_fullAt (h x hx) hf

theorem not_shows_of_only {b : UInt8} (h : ∀ x ∈ l, Only b x.1) (hab : a ≠ b) : ¬ Shows a l := by
  rintro ⟨x, hx, hf⟩
  exact hab ((h x hx).eq_of_touches hf.touches)

/-! ### The parts of the tests -/

theorem only_resetLoopback (a : UInt8) : (onSoc (psgmiiStPhyResetLoopback a)).Uses (Only a) :=
  ⟨rfl, fun _ => ⟨rfl, fun _ => trivial⟩⟩

theorem noMmdRead_resetLoopback (a : UInt8) :
    (onSoc (psgmiiStPhyResetLoopback a)).Uses NoMmdRead :=
  ⟨trivial, fun _ => ⟨trivial, fun _ => trivial⟩⟩

theorem only_linkIsUp (a : UInt8) : (linkIsUp a).Uses (Only a) := ⟨rfl, fun _ => trivial⟩

theorem noMmdRead_linkIsUp (a : UInt8) : (linkIsUp a).Uses NoMmdRead := by
  have hreg : qca807xPhySpecific ≠ miiMmdData := by decide
  exact ⟨hreg, fun _ => trivial⟩

theorem only_powerDown (a : UInt8) : (onSoc (psgmiiStPhyPowerDown a)).Uses (Only a) :=
  ⟨rfl, fun _ => ⟨rfl, fun _ => trivial⟩⟩

theorem noMmdRead_powerDown (a : UInt8) : (onSoc (psgmiiStPhyPowerDown a)).Uses NoMmdRead := by
  have hreg : miiBmcr ≠ miiMmdData := by decide
  exact ⟨hreg, fun _ => ⟨trivial, fun _ => trivial⟩⟩

theorem only_startTraffic (a : UInt8) : (onSoc (psgmiiStPhyStartTraffic a)).Uses (Only a) :=
  ⟨rfl, fun _ => ⟨rfl, fun _ => ⟨rfl, fun _ => ⟨rfl, fun _ => ⟨rfl, fun _ => ⟨rfl, fun _ => ⟨rfl,
    fun _ => ⟨rfl, fun _ => ⟨rfl, fun _ => ⟨rfl, fun _ => ⟨rfl, fun _ => ⟨rfl, fun _ =>
      trivial⟩⟩⟩⟩⟩⟩⟩⟩⟩⟩⟩⟩

theorem only_checkCounters (a : UInt8) : (checkCounters a).Uses (Only a) :=
  ⟨rfl, fun _ => ⟨rfl, fun _ => ⟨rfl, fun _ => ⟨rfl, fun _ => trivial⟩⟩⟩⟩

include henv

/-- Nothing between the reads of MMD registers shows the count. -/
theorem not_shows_startTraffic {u : Unit}
    (h : Run (lab env) s (onSoc (psgmiiStPhyStartTraffic a)) l s' (.ret u)) (b : UInt8) :
    ¬ Shows b l := by
  obtain ⟨t₁, t₂, t₃, t₄, s₁, l', rfl, hsel, hr⟩ := run_readMmd henv h
  have hrest : ∀ x ∈ l', NoMmdRead x.1 := by
    refine (hr.uses ?_).2
    exact ⟨trivial, fun _ => ⟨trivial, fun _ => ⟨trivial, fun _ => ⟨trivial, fun _ => ⟨trivial, fun _ =>
      ⟨trivial, fun _ => ⟨trivial, fun _ => ⟨trivial, fun _ => trivial⟩⟩⟩⟩⟩⟩⟩⟩
  rw [shows_readMmd]
  rintro (⟨hop, hfull, -⟩ | hshows)
  · obtain rfl : a = b := by simpa using hop
    -- this read is of the control register of the packet counter
    exact absurd (hsel.addr.symm.trans hfull.addr) (by decide)
  · exact not_shows_of_noMmdRead hrest hshows

/-- **A check of the counters** passes exactly if the count is full. -/
theorem run_checkCounters (h : Run (lab env) s (checkCounters a) l s' (.ret r)) :
    r ≠ 0 ↔ Shows a l := by
  obtain ⟨t₁, t₂, t₃, t₄, s₁, l', rfl, hsel, hr⟩ := run_readMmd henv h
  obtain ⟨hret, rfl, -⟩ := hr.ret_inv
  have hmask : psgmiiStPktCount &&& 0xffff = psgmiiStPktCount := by decide
  have hval : r = if ((t₄.phys (low5 a)).mmd (low5 mdioMmdAn)
      qca807xMmd7ValidEgressCounter2).toNat = psgmiiStPktCount &&& 0xffff then 1 else 0 :=
    Prog.ret.inj hret
  have hnil : ¬ Shows a ([] : List (SocOp × Board Phys)) := by simp [Shows]
  rw [hmask] at hval
  rw [shows_readMmd, or_iff_left hnil]
  constructor
  · intro hne
    refine ⟨rfl, hsel, ?_⟩
    by_contra hcount
    rw [if_neg hcount] at hval
    exact hne hval
  · intro hf
    rw [hval, if_pos hf.2.2]
    decide

/-! ### The waits -/

omit henv in
theorem ofNat_inj : ∀ p < ipq4019NumPortPhy, ∀ q < ipq4019NumPortPhy,
    UInt8.ofNat p = UInt8.ofNat q → p = q := by decide

/-- A PHY shows the count in a run of checks exactly if it passes one of them. -/
theorem shows_segs {delay : ℕ} {es : List Event}
    (h : Segs (lab env) checkCounters delay s es l s')
    (hes : ∀ q r, .poll q r ∈ es → q < ipq4019NumPortPhy) (hp : p < ipq4019NumPortPhy) :
    Shows (UInt8.ofNat p) l ↔ ∃ r, .poll p r ∈ es ∧ r ≠ 0 := by
  induction h with
  | nil _ => simp [Shows]
  | @poll _ _ _ q r es l₁ l₂ hr _ ih =>
    have hq := hes q r List.mem_cons_self
    have ih := ih fun q r hq => hes q r (List.mem_cons_of_mem _ hq)
    have hhead : Shows (UInt8.ofNat p) l₁ ↔ p = q ∧ r ≠ 0 := by
      by_cases hpq : p = q
      · rw [hpq, ← run_checkCounters henv hr]
        simp
      · have hne : UInt8.ofNat p ≠ UInt8.ofNat q := fun he => hpq (ofNat_inj p hp q hq he)
        simp [hpq, not_shows_of_only (hr.uses (only_checkCounters _)).2 hne]
    rw [shows_append, hhead, ih]
    constructor
    · rintro (⟨rfl, hne⟩ | ⟨r', hr', hne⟩)
      · exact ⟨r, List.mem_cons_self, hne⟩
      · exact ⟨r', List.mem_cons_of_mem _ hr', hne⟩
    · rintro ⟨r', hr', hne⟩
      rcases List.mem_cons.mp hr' with heq | hr'
      · obtain ⟨rfl, rfl⟩ := Event.poll.inj heq
        exact Or.inl ⟨rfl, hne⟩
      · exact Or.inr ⟨r', hr', hne⟩
  | @pause _ _ _ _ es l₁ l₂ hr _ ih =>
    have ih := ih fun q r hq => hes q r (List.mem_cons_of_mem _ hq)
    have hdelay : ∀ x ∈ l₁, NoMmdRead x.1 := (hr.uses ⟨trivial, fun _ => trivial⟩).2
    rw [shows_append, ih, or_iff_right (not_shows_of_noMmdRead hdelay)]
    simp

/-- **The wait for the counters.** -/
theorem run_waitCounters {mask : UInt32} {retries : Int} {delay : ℕ}
    (h : Run (lab env) s (psgmiiStPhyWait mask retries delay checkCounters) l s' (.ret r)) :
    (r = 0 ∨ r = 1) ∧ (r = 1 ↔ mask.toNat < 32 ∧
      ∀ p < ipq4019NumPortPhy, Has mask p → Shows (UInt8.ofNat p) l) := by
  obtain ⟨o, n, hwaits, hsegs⟩ := phy_wait h
  refine ⟨hwaits.bool, ?_⟩
  rw [hwaits.result, hwaits.passes_iff]
  refine and_congr_right fun _ => forall_congr' fun p => forall_congr' fun hp =>
    forall_congr' fun hh => ?_
  rw [shows_segs henv hsegs (fun q r hq => (hwaits.only q r hq).1) hp, exists_poll hp hh]

omit henv in
/-- A wait for one PHY touches no other. -/
theorem only_wait {retries : Int} {delay : ℕ} {check : UInt8 → Soc Int}
    (hcheck : ∀ a, (check a).Uses (Only a)) (hp : p < ipq4019NumPortPhy)
    (h : Run (lab env) s (psgmiiStPhyWait ((1 : UInt32) <<< UInt32.ofNat p) retries delay check) l s'
      (.ret r)) : ∀ x ∈ l, Only (UInt8.ofNat p) x.1 := by
  obtain ⟨o, n, hwaits, hsegs⟩ := phy_wait h
  refine hsegs.forall (fun q r s l s' hq hr => ?_) fun t => trivial
  obtain ⟨hq5, hh⟩ := hwaits.only q r hq
  have hqp : q = p := by
    unfold Has at hh
    rw [bit_getLsbD p (hp.trans (by decide)) q (hq5.trans (by decide))] at hh
    simpa using hh
  rw [← hqp]
  exact (hr.uses (hcheck _)).2

omit henv in
/-- The wait for the links reads no counter. -/
theorem not_shows_waitLink {mask : UInt32} {retries : Int} {delay : ℕ}
    (h : Run (lab env) s (psgmiiStPhyWait mask retries delay linkIsUp) l s' (.ret r)) (a : UInt8) :
    ¬ Shows a l := by
  obtain ⟨o, n, hwaits, hsegs⟩ := phy_wait h
  refine not_shows_of_noMmdRead (hsegs.forall (fun q r s l s' _ hr => ?_) fun t => trivial)
  exact (hr.uses (noMmdRead_linkIsUp _)).2

/-! ### The parallel test -/

/-- **The parallel test** succeeds exactly if every PHY shows the full count. -/
theorem run_parallel (h : Run (lab env) s (psgmiiStRunTestParallel 0x1f) l s' (.ret r)) :
    (r = 0 ∨ r = 1) ∧ (r = 1 ↔ ∀ p < ipq4019NumPortPhy, Shows (UInt8.ofNat p) l) := by
  obtain ⟨l₁, k₁, s₁, _, h₁, g₁, rfl⟩ := Run.bind_inv h
  obtain ⟨l₂, k₂, s₂, _, h₂, g₂, rfl⟩ := Run.bind_inv g₁
  obtain ⟨l₃, k₃, s₃, _, h₃, g₃, rfl⟩ := Run.bind_inv g₂
  obtain ⟨l₄, k₄, s₄, r', h₄, g₄, rfl⟩ := Run.bind_inv g₃
  obtain ⟨l₅, k₅, s₅, _, h₅, g₅, rfl⟩ := Run.bind_inv g₄
  obtain ⟨hret, rfl, -⟩ := g₅.ret_inv
  obtain rfl : r = r' := Prog.ret.inj hret
  obtain ⟨hbool, hiff⟩ := run_waitCounters henv h₄
  have hreset : ∀ a, ¬ Shows a l₁ := fun a => not_shows_of_noMmdRead
    (h₁.forall_forM fun i _ _ _ _ _ hr => (hr.uses (noMmdRead_resetLoopback _)).2)
  have hlink : ∀ a, ¬ Shows a l₂ := not_shows_waitLink h₂
  have htraffic : ∀ a, ¬ Shows a l₃ := by
    rintro a ⟨x, hx, hf⟩
    exact h₃.forall_forM (P := fun x => ¬ FullAt a x)
      (fun i _ _ _ _ _ hr x hx hf => not_shows_startTraffic henv hr a ⟨x, hx, hf⟩) x hx hf
  have hdown : ∀ a, ¬ Shows a l₅ := fun a => not_shows_of_noMmdRead
    (h₅.forall_forM fun i _ _ _ _ _ hr => (hr.uses (noMmdRead_powerDown _)).2)
  have hmask : ∀ p < ipq4019NumPortPhy, Has 0x1f p := by decide
  refine ⟨hbool, hiff.trans ⟨fun hall p hp => ?_, fun hall => ⟨by decide, fun p hp _ => ?_⟩⟩⟩
  · have hshows := hall.2 p hp (hmask p hp)
    simp only [shows_append, hshows, true_or, or_true]
  · have hshows := hall p hp
    have hnil : ¬ Shows (UInt8.ofNat p) ([] : List (SocOp × Board Phys)) := by simp [Shows]
    simpa only [shows_append, hreset, hlink, htraffic, hdown, hnil, false_or, or_false] using hshows

/-! ### The serial test -/

omit henv

/-- The traffic generator of the PHY is started. -/
def Started (a : UInt8) (l : List (SocOp × Board Phys)) : Prop :=
  ∃ x ∈ l, x.1 = .bus (.write a miiMmdData 0xa000)

/-- **The PHY is powered down**: after that, it is not touched. -/
def PoweredDown (a : UInt8) (l : List (SocOp × Board Phys)) : Prop :=
  ∃ l₁ x l₂ v, l = l₁ ++ x :: l₂ ∧ x.1 = .bus (.write a miiBmcr v) ∧ v &&& qca807xPowerDown ≠ 0 ∧
    ∀ y ∈ l₂, ¬ Touches a y.1

theorem Started.append {l' : List (SocOp × Board Phys)} (h : Started a l) :
    Started a (l ++ l') := by
  obtain ⟨x, hx, hop⟩ := h
  exact ⟨x, List.mem_append_left _ hx, hop⟩

theorem Started.touches (h : Started a l) : ∃ x ∈ l, Touches a x.1 := by
  obtain ⟨x, hx, hop⟩ := h
  refine ⟨x, hx, ?_⟩
  rw [hop]
  rfl

theorem PoweredDown.touches (h : PoweredDown a l) : ∃ x ∈ l, Touches a x.1 := by
  obtain ⟨l₁, x, l₂, v, rfl, hop, -⟩ := h
  refine ⟨x, by simp, ?_⟩
  rw [hop]
  rfl

theorem PoweredDown.append {l' : List (SocOp × Board Phys)} (h : PoweredDown a l)
    (hl' : ∀ y ∈ l', ¬ Touches a y.1) : PoweredDown a (l ++ l') := by
  obtain ⟨l₁, x, l₂, v, rfl, hop, hv, hafter⟩ := h
  refine ⟨l₁, x, l₂ ++ l', v, by simp, hop, hv, fun y hy => ?_⟩
  rcases List.mem_append.mp hy with hy | hy
  · exact hafter y hy
  · exact hl' y hy

theorem PoweredDown.append_left {l' : List (SocOp × Board Phys)} (h : PoweredDown a l) :
    PoweredDown a (l' ++ l) := by
  obtain ⟨l₁, x, l₂, v, rfl, hop, hv, hafter⟩ := h
  exact ⟨l' ++ l₁, x, l₂, v, by simp, hop, hv, hafter⟩

theorem or_powerDown (v : UInt16) : (v ||| qca807xPowerDown) &&& qca807xPowerDown ≠ 0 := by
  intro h
  have hbit := congrArg (fun w => w.toBitVec.getLsbD 11) h
  have hdown : qca807xPowerDown.toBitVec[11] = true := by decide
  simp [hdown] at hbit

theorem run_powerDown {u : Unit}
    (h : Run (lab env) s (onSoc (psgmiiStPhyPowerDown a)) l s' (.ret u)) : PoweredDown a l := by
  obtain ⟨t₁, l₁, -, rfl, h₁⟩ := bus_run h
  obtain ⟨t₂, l₂, -, rfl, h₂⟩ := bus_run h₁
  obtain ⟨-, rfl, -⟩ := h₂.ret_inv
  exact ⟨[_], _, [], _, rfl, rfl, or_powerDown _, by simp⟩

theorem run_startTraffic {u : Unit}
    (h : Run (lab env) s (onSoc (psgmiiStPhyStartTraffic a)) l s' (.ret u)) : Started a l := by
  obtain ⟨t₁, l₁, -, rfl, h₁⟩ := bus_run h
  obtain ⟨t₂, l₂, -, rfl, h₂⟩ := bus_run h₁
  obtain ⟨t₃, l₃, -, rfl, h₃⟩ := bus_run h₂
  obtain ⟨t₄, l₄, -, rfl, h₄⟩ := bus_run h₃
  obtain ⟨t₅, l₅, -, rfl, h₅⟩ := bus_run h₄
  obtain ⟨t₆, l₆, -, rfl, h₆⟩ := bus_run h₅
  obtain ⟨t₇, l₇, -, rfl, h₇⟩ := bus_run h₆
  obtain ⟨t₈, l₈, -, rfl, h₈⟩ := bus_run h₇
  obtain ⟨t₉, l₉, -, rfl, h₉⟩ := bus_run h₈
  obtain ⟨t₁₀, l₁₀, -, rfl, h₁₀⟩ := bus_run h₉
  obtain ⟨t₁₁, l₁₁, -, rfl, h₁₁⟩ := bus_run h₁₀
  obtain ⟨t₁₂, l₁₂, -, rfl, h₁₂⟩ := bus_run h₁₁
  exact ⟨(.bus (.write a miiMmdData 0xa000), t₁₂), by simp, rfl⟩

include henv

/-- **One PHY** of the serial test. -/
theorem run_testSerial (hp : p < ipq4019NumPortPhy)
    (h : Run (lab env) s (testSerial p 1) l s' (.ret r)) :
    (∀ x ∈ l, Only (UInt8.ofNat p) x.1) ∧ Started (UInt8.ofNat p) l ∧
      PoweredDown (UInt8.ofNat p) l ∧ (r = 0 ∨ r = 1) ∧ (r = 1 ↔ Shows (UInt8.ofNat p) l) := by
  obtain ⟨l₁, k₁, s₁, _, h₁, g₁, rfl⟩ := Run.bind_inv h
  obtain ⟨l₂, k₂, s₂, _, h₂, g₂, rfl⟩ := Run.bind_inv g₁
  obtain ⟨l₃, k₃, s₃, _, h₃, g₃, rfl⟩ := Run.bind_inv g₂
  obtain ⟨l₄, k₄, s₄, r', h₄, g₄, rfl⟩ := Run.bind_inv g₃
  obtain ⟨l₅, k₅, s₅, _, h₅, g₅, rfl⟩ := Run.bind_inv g₄
  obtain ⟨hret, rfl, -⟩ := g₅.ret_inv
  obtain ⟨hbool, hiff⟩ := run_waitCounters henv h₄
  have hresult : r = r' := by
    have hand : r = ((1 &&& r'.toNat : ℕ) : Int) := Prog.ret.inj hret
    rcases hbool with rfl | rfl
    · exact hand
    · exact hand
  have h32 : p < 32 := hp.trans (by decide)
  have hbits : ∀ p < ipq4019NumPortPhy, ((1 : UInt32) <<< UInt32.ofNat p).toNat < 32 := by decide
  have hwait : r' = 1 ↔ Shows (UInt8.ofNat p) l₄ := by
    refine hiff.trans ⟨fun hall => hall.2 p hp ?_, fun hshows => ⟨hbits p hp, fun q hq hh => ?_⟩⟩
    · unfold Has
      rw [bit_getLsbD p h32 p h32, decide_eq_true_eq]
    · unfold Has at hh
      rw [bit_getLsbD p h32 q (hq.trans (by decide)), decide_eq_true_eq] at hh
      rwa [hh]
  have honly₁ := (h₁.uses (only_resetLoopback (UInt8.ofNat p))).2
  have honly₂ := only_wait only_linkIsUp hp h₂
  have honly₃ := (h₃.uses (only_startTraffic (UInt8.ofNat p))).2
  have honly₄ := only_wait only_checkCounters hp h₄
  have honly₅ := (h₅.uses (only_powerDown (UInt8.ofNat p))).2
  have hreset := not_shows_of_noMmdRead (a := UInt8.ofNat p)
    (h₁.uses (noMmdRead_resetLoopback (UInt8.ofNat p))).2
  have hlink := not_shows_waitLink h₂ (UInt8.ofNat p)
  have htraffic := not_shows_startTraffic henv h₃ (UInt8.ofNat p)
  have hdown := not_shows_of_noMmdRead (a := UInt8.ofNat p)
    (h₅.uses (noMmdRead_powerDown (UInt8.ofNat p))).2
  rw [List.append_nil]
  refine ⟨fun x hx => ?_, ?_, ?_, hresult ▸ hbool, ?_⟩
  · simp only [List.mem_append] at hx
    rcases hx with hx | hx | hx | hx | hx
    · exact honly₁ x hx
    · exact honly₂ x hx
    · exact honly₃ x hx
    · exact honly₄ x hx
    · exact honly₅ x hx
  · obtain ⟨x, hx, hop⟩ := run_startTraffic h₃
    exact ⟨x, by simp [hx], hop⟩
  · exact (run_powerDown h₅).append_left.append_left.append_left.append_left
  · rw [hresult, hwait]
    simp only [shows_append, hreset, hlink, htraffic, hdown, false_or, or_false]

/-- How a serial test ends that has come as far as the PHYs `done`: all of them show the count and
none is left, or the last one does not. -/
inductive SerialEnd (l : List (SocOp × Board Phys)) : List ℕ → List ℕ → Int → Prop
  | passed {done : List ℕ} (h : ∀ p ∈ done, Shows (UInt8.ofNat p) l) : SerialEnd l done [] 1
  | failed {done rest : List ℕ} {p : ℕ} (h : ∀ q ∈ done, Shows (UInt8.ofNat q) l)
      (hp : ¬ Shows (UInt8.ofNat p) l) : SerialEnd l (done ++ [p]) rest 0

/-- **The serial test**: the PHYs `done` are touched, started and powered down, and no other. -/
structure SerialRun (l : List (SocOp × Board Phys)) (done rest : List ℕ) (r : Int) : Prop where
  touches : ∀ x ∈ l, ∀ a, Touches a x.1 → ∃ p ∈ done, a = UInt8.ofNat p
  started : ∀ p ∈ done, Started (UInt8.ofNat p) l
  down : ∀ p ∈ done, PoweredDown (UInt8.ofNat p) l
  ends : SerialEnd l done rest r

theorem run_testsSerial : ∀ {is : List ℕ}, is.Nodup → (∀ p ∈ is, p < ipq4019NumPortPhy) →
    ∀ {s : Board Phys} {l : List (SocOp × Board Phys)},
    Run (lab env) s (testsSerial is 1) l s' (.ret r) →
    ∃ done rest, is = done ++ rest ∧ SerialRun l done rest r
  | [], _, _, s, l, h => by
    obtain ⟨hret, rfl, -⟩ := h.ret_inv
    obtain rfl : r = 1 := Prog.ret.inj hret
    exact ⟨[], [], rfl, ⟨by simp, by simp, by simp, .passed (by simp)⟩⟩
  | i :: is, hnd, hlt, s, l, h => by
    obtain ⟨hi, hnd⟩ := List.nodup_cons.mp hnd
    obtain ⟨hi5, hlt⟩ := List.forall_mem_cons.mp hlt
    obtain ⟨l₁, l₂, s₁, r₁, h₁, h₂, rfl⟩ := Run.bind_inv h
    obtain ⟨honly, hstart, hdown, hbool, hiff⟩ := run_testSerial henv hi5 h₁
    change Run (lab env) s₁ (if r₁ = 0 then .ret r₁ else testsSerial is r₁) l₂ s' _ at h₂
    rcases hbool with rfl | rfl
    · rw [if_pos rfl] at h₂
      obtain ⟨hret, rfl, -⟩ := h₂.ret_inv
      obtain rfl : r = 0 := Prog.ret.inj hret
      rw [List.append_nil]
      refine ⟨[i], is, rfl, ⟨fun x hx a ha => ⟨i, by simp, (honly x hx).eq_of_touches ha⟩,
        by simpa using hstart, by simpa using hdown, ?_⟩⟩
      refine .failed (by simp : ∀ q ∈ ([] : List ℕ), _) fun hshows => ?_
      exact absurd (hiff.mpr hshows) (by decide)
    · rw [if_neg (by decide)] at h₂
      obtain ⟨done, rest, rfl, hrun⟩ := run_testsSerial hnd hlt h₂
      have hne : ∀ q ∈ done, UInt8.ofNat q ≠ UInt8.ofNat i := by
        intro q hq he
        have hqi := ofNat_inj q (hlt q (List.mem_append_left _ hq)) i hi5 he
        exact hi (hqi ▸ List.mem_append_left _ hq)
      have hlater : ∀ y ∈ l₂, ¬ Touches (UInt8.ofNat i) y.1 := by
        intro y hy hty
        obtain ⟨q, hq, he⟩ := hrun.touches y hy _ hty
        exact hne q hq he.symm
      have hshows : ∀ q ∈ done, (Shows (UInt8.ofNat q) (l₁ ++ l₂) ↔ Shows (UInt8.ofNat q) l₂) :=
        fun q hq => shows_append.trans (or_iff_right (not_shows_of_only honly (hne q hq)))
      have hshows_i : Shows (UInt8.ofNat i) (l₁ ++ l₂) :=
        shows_append.mpr (Or.inl (hiff.mp rfl))
      refine ⟨i :: done, rest, rfl, ⟨fun x hx a ha => ?_, ?_, ?_, ?_⟩⟩
      · rcases List.mem_append.mp hx with hx | hx
        · exact ⟨i, by simp, (honly x hx).eq_of_touches ha⟩
        · obtain ⟨q, hq, he⟩ := hrun.touches x hx a ha
          exact ⟨q, List.mem_cons_of_mem _ hq, he⟩
      · refine List.forall_mem_cons.mpr ⟨hstart.append, fun q hq => ?_⟩
        obtain ⟨x, hx, hop⟩ := hrun.started q hq
        exact ⟨x, List.mem_append_right _ hx, hop⟩
      · exact List.forall_mem_cons.mpr ⟨hdown.append hlater, fun q hq =>
          (hrun.down q hq).append_left⟩
      · have hends := hrun.ends
        cases hends with
        | passed hall =>
          exact .passed (List.forall_mem_cons.mpr
            ⟨hshows_i, fun q hq => (hshows q hq).mpr (hall q hq)⟩)
        | @failed d _ p hall hp =>
          have hcons : ∀ q ∈ i :: d, Shows (UInt8.ofNat q) (l₁ ++ l₂) :=
            List.forall_mem_cons.mpr ⟨hshows_i, fun q hq =>
              (hshows q (List.mem_append_left _ hq)).mpr (hall q hq)⟩
          refine .failed hcons ?_
          rwa [hshows p (by simp)]

end runs

/-! ### Both tests -/

/-- **What the parallel test should come to.** -/
structure ParallelSpec (l : List (SocOp × Board Phys)) (r : Int) : Prop where
  bool : r = 0 ∨ r = 1
  result : r = 1 ↔ ∀ p < ipq4019NumPortPhy, Shows (UInt8.ofNat p) l

/-- **What the serial test should come to**: it takes the first `k` PHYs, one after the other, up to
the first that does not show the count. -/
structure SerialSpec (l : List (SocOp × Board Phys)) (r : Int) (k : ℕ) : Prop where
  le : k ≤ ipq4019NumPortPhy
  bool : r = 0 ∨ r = 1
  result : r = 1 ↔ ∀ p < ipq4019NumPortPhy, Shows (UInt8.ofNat p) l
  before : ∀ p, p + 1 < k → Shows (UInt8.ofNat p) l
  last : r = 0 → 0 < k ∧ ¬ Shows (UInt8.ofNat (k - 1)) l
  all : r = 1 → k = ipq4019NumPortPhy
  touches : ∀ a, (∃ x ∈ l, Touches a x.1) ↔ ∃ p < k, a = UInt8.ofNat p
  started : ∀ p < ipq4019NumPortPhy, Started (UInt8.ofNat p) l ↔ p < k
  down : ∀ p < ipq4019NumPortPhy, PoweredDown (UInt8.ofNat p) l ↔ p < k

theorem eq_range_of_append {done rest : List ℕ} {n : ℕ} (h : List.range n = done ++ rest) :
    done = List.range done.length ∧ done.length ≤ n := by
  have hle : done.length ≤ n := by
    have hlen := congrArg List.length h
    simp only [List.length_range, List.length_append] at hlen
    omega
  refine ⟨?_, hle⟩
  have htake : (List.range n).take done.length = done := by
    rw [h]
    exact List.take_left
  rw [List.take_range, Nat.min_eq_left hle] at htake
  exact htake.symm

theorem run_serial (henv : Beside env) {mask : UInt32}
    (h : Run (lab env) s (psgmiiStRunTestSerial mask) l s' (.ret r)) : ∃ k, SerialSpec l r k := by
  obtain ⟨done, rest, hrange, hrun⟩ := run_testsSerial henv List.nodup_range
    (fun p => List.mem_range.mp) h
  obtain ⟨hdone, hle⟩ := eq_range_of_append hrange
  have hmem : ∀ p, p ∈ done ↔ p < done.length := by
    intro p
    rw [hdone, List.mem_range, List.length_range]
  have htouched : ∀ p < ipq4019NumPortPhy, (∃ x ∈ l, Touches (UInt8.ofNat p) x.1) →
      p < done.length := by
    rintro p hp ⟨x, hx, ht⟩
    obtain ⟨q, hq, he⟩ := hrun.touches x hx _ ht
    have hq5 : q < ipq4019NumPortPhy := ((hmem q).mp hq).trans_le hle
    rw [ofNat_inj p hp q hq5 he]
    exact (hmem q).mp hq
  have htouches : ∀ a, (∃ x ∈ l, Touches a x.1) ↔ ∃ p < done.length, a = UInt8.ofNat p := by
    intro a
    constructor
    · rintro ⟨x, hx, ht⟩
      obtain ⟨q, hq, he⟩ := hrun.touches x hx a ht
      exact ⟨q, (hmem q).mp hq, he⟩
    · rintro ⟨p, hp, rfl⟩
      exact (hrun.started p ((hmem p).mpr hp)).touches
  have hstarted : ∀ p < ipq4019NumPortPhy, Started (UInt8.ofNat p) l ↔ p < done.length :=
    fun p hp => ⟨fun h => htouched p hp h.touches, fun h => hrun.started p ((hmem p).mpr h)⟩
  have hdown : ∀ p < ipq4019NumPortPhy, PoweredDown (UInt8.ofNat p) l ↔ p < done.length :=
    fun p hp => ⟨fun h => htouched p hp h.touches, fun h => hrun.down p ((hmem p).mpr h)⟩
  have hends := hrun.ends
  cases hends with
  | passed hall =>
    have hlen : done.length = ipq4019NumPortPhy := by
      have := congrArg List.length hrange
      simpa using this.symm
    have hshows : ∀ p < done.length, Shows (UInt8.ofNat p) l := fun p hp => hall p ((hmem p).mpr hp)
    refine ⟨done.length, hle, Or.inr rfl, ?_, fun p hp => hshows p (by omega), ?_, fun _ => hlen,
      htouches, hstarted, hdown⟩
    · rw [← hlen]
      exact iff_of_true rfl hshows
    · intro h0
      exact absurd h0 (by decide)
  | @failed d _ p hall hp =>
    have hlen : (d ++ [p]).length = d.length + 1 := by simp
    rw [hlen] at hdone hle htouches hstarted hdown
    rw [List.range_succ] at hdone
    obtain ⟨hd, hpd⟩ := List.append_inj' hdone rfl
    obtain rfl : p = d.length := by simpa using hpd
    have hlt : d.length < ipq4019NumPortPhy := by omega
    refine ⟨d.length + 1, hle, Or.inl rfl, ?_, fun q hq => ?_, fun _ => ⟨by omega, hp⟩, ?_, htouches,
      hstarted, hdown⟩
    · refine iff_of_false (by decide) fun hshows => ?_
      exact hp (hshows d.length hlt)
    · refine hall q ?_
      rw [hd, List.mem_range]
      omega
    · intro h1
      exact absurd h1 (by decide)

/-- **The harness and the two tests.** -/
theorem self_test_harness :
    (∀ (σ : Type) (M : Machine socSig σ) (check : UInt8 → Soc Int) (mask : UInt32) (retries : Int)
      (delay : ℕ) (s s' : σ) (l : List (SocOp × σ)) (r : Int), 0 ≤ retries →
      Run M s (psgmiiStPhyWait mask retries delay check) l s' (.ret r) →
        ∃ o n, Waits o mask retries.toNat n r ∧ Segs M check delay s (events o mask n) l s') ∧
    ∀ (env : Board Phys → Board Phys → Prop), Beside env →
      ∀ (s s' : Board Phys) (l : List (SocOp × Board Phys)) (r : Int),
        (Run (lab env) s (psgmiiStRunTestParallel 0x1f) l s' (.ret r) → ParallelSpec l r) ∧
        (Run (lab env) s (psgmiiStRunTestSerial 0x1f) l s' (.ret r) → ∃ k, SerialSpec l r k) := by
  refine ⟨fun σ M check mask retries delay s s' l r _ h => phy_wait h,
    fun env henv s s' l r => ⟨fun h => ?_, fun h => run_serial henv h⟩⟩
  obtain ⟨hbool, hiff⟩ := run_parallel henv h
  exact ⟨hbool, hiff⟩

/-- PHYs whose links are up, and whose egress counters are full. -/
def passing : Board Phys where
  regs _ := 0
  phys _ :=
    { ctrl := 0
      addr _ := 0
      mmd _ _ := UInt16.ofNat psgmiiStPktCount
      reg r := if r = low5 qca807xPhySpecific then qca807xPhySpecificLink else 0 }

/-- A lab in which nothing changes but by the driver. -/
abbrev still : Machine socSig (Board Phys) := lab fun _ _ => False

/-- The wait for the links, and both tests, with such PHYs. -/
theorem self_test_harness_passing :
    (∃ l s' r o n, Run still passing (psgmiiStPhyWait 0x1f 100 10 linkIsUp) l s' (.ret r) ∧
      Waits o 0x1f (100 : Int).toNat n r ∧ Segs still linkIsUp 10 passing (events o 0x1f n) l s') ∧
    (∃ l s', Run still passing (psgmiiStRunTestParallel 0x1f) l s' (.ret 1) ∧ ParallelSpec l 1) ∧
      ∃ l s' k, Run still passing (psgmiiStRunTestSerial 0x1f) l s' (.ret 1) ∧ SerialSpec l 1 k := by
  have hwait := run_exec (M := still) (psgmiiStPhyWait 0x1f 100 10 linkIsUp) passing
  have hparallel := run_exec (M := still) (psgmiiStRunTestParallel 0x1f) passing
  have hserial := run_exec (M := still) (psgmiiStRunTestSerial 0x1f) passing
  have hpassed : (exec still (psgmiiStRunTestParallel 0x1f) passing).1 = 1 ∧
      (exec still (psgmiiStRunTestSerial 0x1f) passing).1 = 1 := by
    decide +kernel
  rw [hpassed.1] at hparallel
  rw [hpassed.2] at hserial
  have hboth := self_test_harness.2 (fun _ _ => False) (fun _ _ h => h.elim) passing
  obtain ⟨k, hk⟩ := (hboth _ _ _).2 hserial
  obtain ⟨o, n, hwaits⟩ := self_test_harness.1 _ still linkIsUp 0x1f 100 10 _ _ _ _ (by decide) hwait
  exact ⟨⟨_, _, _, o, n, hwait, hwaits⟩, ⟨_, _, hparallel, (hboth _ _ _).1 hparallel⟩,
    _, _, k, hserial, hk⟩

end Ipq4019.Psgmii.Harness
