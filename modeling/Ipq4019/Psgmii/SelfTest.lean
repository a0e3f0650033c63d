import Ipq4019.Ess.Lookup
import Ipq4019.Psgmii.Driver

/-!
# PSGMII calibration: what the self-test reports

`ipq4019_psgmii_self_test` sets its result before the end, so what the two polls of the calibration
came to is lost; the clean-up is done in any case.  What the polls see is read off the answers that
the MDIO transactions of the call bring, in their order.

* `exec_fed`: what a part of the call takes of the answers.
* `phySeen_poll`, `phySeen_iff`: the poll of the PHY on the answers.
* `self_test_iff`: it reports as documented exactly if the answers let both polls see their bit.
-/

namespace Ipq4019.Psgmii.SelfTest

open Ipq4019.Lib.Interleave Ipq4019.Lib.Interleave.Prog
open Ipq4019.Mdio.Driver (BusOp Bus busSig mdioRead mdioWrite ipq4019PhyReadMmd ipq4019PhyWriteMmd)
open Ipq4019.Chip.Access Ipq4019.Ess.Driver Ipq4019.Ess.Lookup Ipq4019.Psgmii.Driver

/-! ### Values as they come -/

/-- What the next transaction brings: nothing if it times out. -/
abbrev Answer := Option UInt16

/-- A transaction that brings what there is. -/
def stream : (o : BusOp) → Answer → o.Res × Answer
  | .read _ _ val, x => (match x with
    | some v => ((0, v) : Int × UInt16)
    | none => ((-1, val) : Int × UInt16), x)
  | .write _ _ _, x => (match x with
    | some _ => (0 : Int)
    | none => (-1 : Int), x)

variable {env : Board Answer → Board Answer → Prop} {s s' : Board Answer}
  {l : List (SocOp × Board Answer)} {r : Int}

/-! ### What the polls see -/

/-- **The calibration bit of the PHY was read as set**: the three writes that select MMD 1 register
0x28 of PHY 5 were answered, and the read behind them brought a value with bit 0 set. -/
def PhySeen (l : List (SocOp × Board Answer)) : Prop :=
  ∃ t₁ t₂ t₃ t₄ v, [(.bus (.write 5 0x0d 1), t₁), (.bus (.write 5 0x0e 0x28), t₂),
      (.bus (.write 5 0x0d 0x4001), t₃), (.bus (.read 5 0x0e 0), t₄)] <:+: l ∧
    t₁.phys ≠ none ∧ t₂.phys ≠ none ∧ t₃.phys ≠ none ∧ t₄.phys = some v ∧ v &&& 0x1 ≠ 0

/-- The values that the reads of the chip's calibration register brought. -/
def socOf (l : List (SocOp × Board Answer)) : List UInt32 :=
  l.filterMap fun x => match x.1 with
    | .readl a => if a = psgmii + psgmiiphyVcoCalibrationCtrlRegister2 then some (x.2.regs a) else none
    | _ => none

/-- The calibration bit of the chip was read as set. -/
def SocSeen (l : List (SocOp × Board Answer)) : Prop :=
  ∃ t, (.readl (psgmii + psgmiiphyVcoCalibrationCtrlRegister2), t) ∈ l ∧
    t.regs (psgmii + psgmiiphyVcoCalibrationCtrlRegister2) &&& 0x1 ≠ 0

/-! ### The stream of answers -/

/-- What the transactions brought. -/
def answersOf (l : List (SocOp × Board Answer)) : List Answer :=
  l.filterMap fun x => match x.1 with
    | .bus _ => some x.2.phys
    | _ => none

/-- An answer with bit 0 set. -/
def Bit0 (a : Answer) : Prop := a.getD 0 &&& 0x1 ≠ 0

instance (a : Answer) : Decidable (Bit0 a) := by unfold Bit0; infer_instance

/-- **The polls of the PHY**, at most `n`, on the answers: four transactions each, until one brings
the bit; its selects have to be answered. -/
def PollsReady : ℕ → List Answer → Prop
  | n + 1, a₁ :: a₂ :: a₃ :: a₄ :: as =>
    if Bit0 a₄ then a₁ ≠ none ∧ a₂ ≠ none ∧ a₃ ≠ none else PollsReady n as
  | _, _ => False

instance : (n : ℕ) → (as : List Answer) → Decidable (PollsReady n as)
  | 0, _ => isFalse id
  | n + 1, a₁ :: a₂ :: a₃ :: a₄ :: as =>
    have := instDecidablePollsReady n as
    inferInstanceAs (Decidable
      (if Bit0 a₄ then a₁ ≠ none ∧ a₂ ≠ none ∧ a₃ ≠ none else PollsReady n as))
  | _ + 1, [] => isFalse id
  | _ + 1, [_] => isFalse id
  | _ + 1, [_, _] => isFalse id
  | _ + 1, [_, _, _] => isFalse id

/-- The answers behind the preparation of a PHY, which takes a transaction more if the chip
configuration reads as a value other than 0. -/
def afterPrepare (as : List Answer) : List Answer :=
  as.drop (if (as.headD none).getD 0 ≠ 0 then 14 else 13)

/-- **The PHY is ready**: behind the preparation of the five PHYs, on the first call the twelve reads
of the identifiers, and three writes, a poll sees the bit. -/
def PhyReady (probeDone : Int) (as : List Answer) : Prop :=
  PollsReady 100 (((List.range ipq4019NumPortPhy).foldl (fun as _ => afterPrepare as) as).drop
    (if probeDone = 0 then 15 else 3))

instance (probeDone : Int) (as : List Answer) : Decidable (PhyReady probeDone as) :=
  inferInstanceAs (Decidable (PollsReady _ _))

/-- **The chip is ready**: a read of the register brings the bit. -/
def SocReady (vs : List UInt32) : Prop := ∃ v ∈ vs, v &&& 0x1 ≠ 0

instance (vs : List UInt32) : Decidable (SocReady vs) := inferInstanceAs (Decidable (∃ v ∈ vs, _))

theorem answersOf_append (l l' : List (SocOp × Board Answer)) :
    answersOf (l ++ l') = answersOf l ++ answersOf l' := List.filterMap_append

theorem socReady_iff : SocReady (socOf l) ↔ SocSeen l := by
  unfold SocReady SocSeen socOf
  constructor
  · rintro ⟨v, hv, hbit⟩
    obtain ⟨⟨o, t⟩, hx, ho⟩ := List.mem_filterMap.mp hv
    cases o with
    | readl a =>
      by_cases ha : a = psgmii + psgmiiphyVcoCalibrationCtrlRegister2
      · subst ha
        simp only [if_true, Option.some.injEq] at ho
        exact ⟨t, hx, ho ▸ hbit⟩
      · simp [ha] at ho
    | _ => simp at ho
  · rintro ⟨t, hx, hbit⟩
    exact ⟨_, List.mem_filterMap.mpr ⟨_, hx, by simp⟩, hbit⟩

/-- A program of transactions, fed with answers. -/
def fed : Machine busSig (List Answer) where
  step o as := ((stream o (as.headD none)).1, as.drop 1)
  env _ _ := False

/-- **What a part of the call takes of the answers.** -/
theorem exec_fed {α : Type} : ∀ {q : Bus α} {s s' : Board Answer} {l : List (SocOp × Board Answer)}
    {a : α}, Run (board stream env) s (onSoc q) l s' (.ret a) →
      ∀ as, exec fed q (answersOf l ++ as) = (a, as)
  | .ret _, _, _, _, _, hr, as => by
    obtain ⟨hq, rfl, -⟩ := hr.ret_inv
    injection hq with hq
    rw [hq]
    rfl
  | .op o k, s, s', l, a, hr, as => by
    change Run (board stream env) s (.op (S := socSig) (.bus o) fun x => onSoc (k x)) l s' (.ret a) at hr
    rcases hr.op_inv with ⟨hq, -⟩ | ⟨t, l', -, rfl, hr'⟩
    · cases hq
    · exact exec_fed hr' as

/-- What a loop of such parts takes. -/
theorem fed_forM {f : ℕ → Bus Unit} : ∀ {is : List ℕ} {s s' : Board Answer}
    {l : List (SocOp × Board Answer)} {u : Unit},
    Run (board stream env) s (is.forM fun i => onSoc (f i)) l s' (.ret u) →
      ∀ as, is.foldl (fun as i => (exec fed (f i) as).2) (answersOf l ++ as) = as
  | [], _, _, _, _, hr, as => by
    obtain ⟨-, rfl, -⟩ := hr.ret_inv
    rfl
  | i :: is, _, _, _, _, hr, as => by
    obtain ⟨l₁, l₂, s₁, a, h₁, h₂, rfl⟩ := Run.bind_inv (p := onSoc (f i)) hr
    rw [answersOf_append, List.append_assoc, List.foldl_cons, exec_fed h₁]
    exact fed_forM h₂ as

theorem fed_prepareRest (phy : UInt8) (val : UInt16) (as : List Answer) :
    (exec fed (prepareRest phy val) as).2 = as.drop 12 := by
  change ((((((((((((as.drop 1).drop 1).drop 1).drop 1).drop 1).drop 1).drop 1).drop 1).drop 1).drop
    1).drop 1).drop 1) = _
  simp only [List.drop_drop]

theorem fed_prepare (phy : UInt8) (as : List Answer) :
    (exec fed (psgmiiStPhyPrepare phy) as).2 = afterPrepare as := by
  have hread : (stream (.read phy qca807xChipConfiguration 0) (as.headD none)).1.2 =
      (as.headD none).getD 0 := by
    cases as.headD none <;> rfl
  change (exec fed (if (stream (.read phy qca807xChipConfiguration 0) (as.headD none)).1.2 ≠ 0
    then .op (S := busSig) (.write phy qca807xChipConfiguration _) fun _ => prepareRest phy _
    else prepareRest phy _) (as.drop 1)).2 = _
  rw [hread]
  unfold afterPrepare
  by_cases h : (as.headD none).getD 0 ≠ 0
  · rw [if_pos h, if_pos h, exec_op, fed_prepareRest]
    change ((as.drop 1).drop 1).drop 12 = _
    simp only [List.drop_drop]
  · rw [if_neg h, if_neg h, fed_prepareRest, List.drop_drop]

/-! ### The poll -/

/-- The poll of the PHY, with `n` polls left. -/
def pollPhy (n i : ℕ) : Soc ℕ := waitBit0 (do
  let v ← onSoc (ipq4019PhyReadMmd psgmiiPhy mdioMmdPmapmd 0x28)
  return v.toUInt32) n i

/-- An access that selects no MMD of the PHY. -/
def Away (o : SocOp) : Prop := o ≠ .bus (.write 5 0x0d 1)

/-- Such accesses before a poll do not count. -/
theorem phySeen_skip {k l : List (SocOp × Board Answer)} (h : ∀ x ∈ k, Away x.1) :
    PhySeen (k ++ l) ↔ PhySeen l := by
  induction k with
  | nil => rfl
  | cons x k ih =>
    obtain ⟨hx, hrest⟩ := List.forall_mem_cons.mp h
    rw [← ih hrest]
    constructor
    · rintro ⟨t₁, t₂, t₃, t₄, v, hin, hgood⟩
      rcases List.infix_cons_iff.mp hin with hpre | hin
      · obtain ⟨rfl, -⟩ := List.cons_prefix_cons.mp hpre
        exact absurd rfl hx
      · exact ⟨t₁, t₂, t₃, t₄, v, hin, hgood⟩
    · rintro ⟨t₁, t₂, t₃, t₄, v, hin, hgood⟩
      exact ⟨t₁, t₂, t₃, t₄, v, List.infix_cons_iff.mpr (Or.inr hin), hgood⟩

theorem not_phySeen {l : List (SocOp × Board Answer)} (h : ∀ x ∈ l, Away x.1) : ¬PhySeen l := by
  rintro ⟨t₁, t₂, t₃, t₄, v, hin, -⟩
  exact h _ (hin.subset List.mem_cons_self) rfl

/-- **One poll** in the history. -/
theorem phySeen_poll {t₁ t₂ t₃ t₄ : Board Answer} {l : List (SocOp × Board Answer)} :
    PhySeen ((.bus (.write 5 0x0d 1), t₁) :: (.bus (.write 5 0x0e 0x28), t₂) ::
      (.bus (.write 5 0x0d 0x4001), t₃) :: (.bus (.read 5 0x0e 0), t₄) :: l) ↔
      (t₁.phys ≠ none ∧ t₂.phys ≠ none ∧ t₃.phys ≠ none ∧ Bit0 t₄.phys) ∨ PhySeen l := by
  have hskip := phySeen_skip (k := [(.bus (.write 5 0x0e 0x28), t₂), (.bus (.write 5 0x0d 0x4001), t₃),
    (.bus (.read 5 0x0e 0), t₄)]) (l := l) (by simp [Away])
  rw [← hskip]
  constructor
  · rintro ⟨u₁, u₂, u₃, u₄, v, hin, h₁, h₂, h₃, h₄, hv⟩
    rcases List.infix_cons_iff.mp hin with hpre | hin
    · simp only [List.cons_prefix_cons, Prod.mk.injEq, true_and] at hpre
      obtain ⟨rfl, rfl, rfl, rfl, -⟩ := hpre
      refine Or.inl ⟨h₁, h₂, h₃, ?_⟩
      rw [h₄]
      exact hv
    · exact Or.inr ⟨u₁, u₂, u₃, u₄, v, hin, h₁, h₂, h₃, h₄, hv⟩
  · rintro (⟨h₁, h₂, h₃, hbit⟩ | ⟨u₁, u₂, u₃, u₄, v, hin, hgood⟩)
    · cases h₄ : t₄.phys with
      | none =>
        rw [h₄] at hbit
        exact absurd rfl hbit
      | some v =>
        rw [h₄] at hbit
        exact ⟨t₁, t₂, t₃, t₄, v, List.prefix_append [_, _, _, _] l |>.isInfix, h₁, h₂, h₃, h₄, hbit⟩
    · exact ⟨u₁, u₂, u₃, u₄, v, List.infix_cons_iff.mpr (Or.inr hin), hgood⟩

/-- The value of a poll. -/
theorem bit0_iff (a : Answer) :
    ((stream (.read 5 0x0e 0) a).1.2 : UInt16).toUInt32 &&& 0x1 ≠ 0 ↔ Bit0 a := by
  have hzero : ∀ v : UInt16, v.toUInt32 &&& 0x1 = 0 ↔ v &&& 0x1 = 0 := by
    intro v
    change v.toUInt32 &&& (1 : UInt16).toUInt32 = (0 : UInt16).toUInt32 ↔ _
    rw [← UInt16.toUInt32_and, ← UInt32.toNat_inj, ← UInt16.toNat_inj, UInt16.toNat_toUInt32,
      UInt16.toNat_toUInt32]
  cases a with
  | none => exact not_congr (hzero 0)
  | some v => exact not_congr (hzero v)

/-- **The polls** in the history, and on the answers. -/
theorem phySeen_iff : ∀ (n i : ℕ) {s s' : Board Answer} {l l' : List (SocOp × Board Answer)} {j : ℕ},
    Run (board stream env) s (pollPhy n i) l s' (.ret j) → (∀ x ∈ l', Away x.1) →
      ∀ as, PhySeen (l ++ l') ↔ PollsReady n (answersOf l ++ as)
  | 0, i, _, _, _, _, _, hr, hl', as => by
    obtain ⟨-, rfl, -⟩ := hr.ret_inv
    exact iff_of_false (not_phySeen hl') (by simp [PollsReady])
  | n + 1, i, s, s', l, l', j, hr, hl', as => by
    change Run (board stream env) s (.op (S := socSig) (.bus (.write 5 0x0d 1)) fun _ =>
      .op (S := socSig) (.bus (.write 5 0x0e 0x28)) fun _ =>
      .op (S := socSig) (.bus (.write 5 0x0d 0x4001)) fun _ =>
      .op (S := socSig) (.bus (.read 5 0x0e 0)) fun x : Int × UInt16 =>
      if x.2.toUInt32 &&& 0x1 ≠ 0 then .ret i
      else .op (S := socSig) (.mdelay 1) fun _ => pollPhy n (i + 1)) l s' (.ret j) at hr
    rcases hr.op_inv with ⟨hq, -⟩ | ⟨t₁, l₁, -, rfl, h₁⟩
    · cases hq
    rcases h₁.op_inv with ⟨hq, -⟩ | ⟨t₂, l₂, -, rfl, h₂⟩
    · cases hq
    rcases h₂.op_inv with ⟨hq, -⟩ | ⟨t₃, l₃, -, rfl, h₃⟩
    · cases hq
    rcases h₃.op_inv with ⟨hq, -⟩ | ⟨t₄, l₄, -, rfl, h₄⟩
    · cases hq
    have hval := bit0_iff t₄.phys
    change Run (board stream env) _ (if (stream (.read 5 0x0e 0) t₄.phys).1.2.toUInt32 &&& 0x1 ≠ 0
      then .ret i else .op (S := socSig) (.mdelay 1) fun _ => pollPhy n (i + 1)) l₄ s' (.ret j) at h₄
    have hans : answersOf ((.bus (.write 5 0x0d 1), t₁) :: (.bus (.write 5 0x0e 0x28), t₂) ::
        (.bus (.write 5 0x0d 0x4001), t₃) :: (.bus (.read 5 0x0e 0), t₄) :: l₄) =
        t₁.phys :: t₂.phys :: t₃.phys :: t₄.phys :: answersOf l₄ := rfl
    rw [hans]
    simp only [List.cons_append]
    rw [phySeen_poll, PollsReady]
    by_cases hbit : Bit0 t₄.phys
    · rw [if_pos hbit]
      rw [if_pos (hval.mpr hbit)] at h₄
      obtain ⟨-, rfl, -⟩ := h₄.ret_inv
      simp only [hbit, and_true, List.nil_append, not_phySeen hl', or_false]
    · rw [if_neg hbit]
      rw [if_neg (mt hval.mp hbit)] at h₄
      rcases h₄.op_inv with ⟨hq, -⟩ | ⟨t₅, l₅, -, rfl, h₅⟩
      · cases hq
      have hdelay : PhySeen ((.mdelay 1, t₅) :: l₅ ++ l') ↔ PhySeen (l₅ ++ l') :=
        phySeen_skip (k := [(.mdelay 1, t₅)]) (by simp [Away])
      simp only [hbit, and_false, false_or]
      rw [hdelay]
      exact phySeen_iff n (i + 1) h₅ hl' as

/-! ### The call -/

/-- The PHY of a transaction. -/
def phyOf : BusOp → UInt8
  | .read phy _ _ => phy
  | .write phy _ _ => phy

theorem away_write {phy reg : UInt8} {val : UInt16} (h : ¬(reg = 0x0d ∧ val = 1)) :
    Away (.bus (.write phy reg val)) := by
  intro he
  injection he with he
  injection he with _ hr hv
  exact h ⟨hr, hv⟩

theorem away_of_phy {α : Type} {q : Bus α} {phy : UInt8} (h : q.Uses fun o => phyOf o = phy)
    (hne : phy ≠ 5) : (onSoc q).Uses Away := by
  refine uses_subst (S := busSig) (T := socSig) (P := fun o : BusOp => phyOf o = phy) (Q := Away)
    (fun o ho => uses_call fun he => hne ?_) h
  injection he with he
  rw [← ho, he]
  rfl

theorem phyOf_prepare (phy : UInt8) : (psgmiiStPhyPrepare phy).Uses fun o => phyOf o = phy := by
  have hrest : ∀ val, (prepareRest phy val).Uses fun o => phyOf o = phy := by
    intro val
    unfold prepareRest psgmiiStPhyPowerDown ipq4019PhyWriteMmd
    repeat refine ⟨rfl, fun _ => ?_⟩
    trivial
  refine ⟨rfl, fun r => ?_⟩
  change Uses _ (if r.2 ≠ 0 then .op (S := busSig) (.write phy qca807xChipConfiguration _) fun _ =>
    prepareRest phy _ else prepareRest phy _)
  split
  · exact ⟨rfl, fun _ => hrest _⟩
  · exact hrest _

theorem phyOf_recover (phy : UInt8) : (recoverPhy phy).Uses fun o => phyOf o = phy := by
  unfold recoverPhy psgmiiStPhyRecover ipq4019PhyReadMmd ipq4019PhyWriteMmd
  repeat refine ⟨rfl, fun _ => ?_⟩
  trivial

/-- What is done to each PHY of a port leaves PHY 5 alone. -/
theorem away_ports {f : UInt8 → Bus Unit} (h : ∀ phy, (f phy).Uses fun o => phyOf o = phy) :
    ((List.range ipq4019NumPortPhy).forM fun i => onSoc (f (UInt8.ofNat i))).Uses Away := by
  refine uses_forM fun i hi => away_of_phy (h _) ?_
  have hlt : i < 5 := List.mem_range.mp hi
  intro he
  have hval := congrArg UInt8.toNat he
  rw [UInt8.toNat_ofNat', Nat.mod_eq_of_lt (by omega)] at hval
  exact absurd hval (Nat.ne_of_lt hlt)

theorem away_analogCal : psgmiiAnalogCal.Uses Away := by
  unfold psgmiiAnalogCal
  repeat refine ⟨by simp [Away], fun _ => ?_⟩
  trivial

theorem away_recoverAll (result : Int) : (recoverAll result).Uses Away := by
  refine uses_bind (away_ports phyOf_recover) fun _ => uses_bind (uses_forM fun i _ => ?_) fun _ => trivial
  exact ⟨by simp [Away], fun _ => ⟨by simp [Away], fun _ => trivial⟩⟩

/-- The part of `qca8075_ess_reset` before the poll of the PHY. -/
def beforePoll (probeDone : Int) : Soc Unit := do
  if probeDone = 0 then probeIds
  let _ ← onSoc (mdioWrite psgmiiPhy miiBmcr 0x005b)
  let _ ← onSoc (mdioWrite psgmiiPhy miiBmcr 0x001b)
  let _ ← onSoc (mdioWrite psgmiiPhy miiBmcr 0x005b)

/-- The part after it. -/
def afterPoll : Soc Unit := do
  let _ ← onSoc (mdioWrite psgmiiPhy 0x1a 0x2230)
  essReset
  let _ ← waitBit0 (readl (psgmii + psgmiiphyVcoCalibrationCtrlRegister2)) 100 0
  let _ ← onSoc (mdioWrite psgmiiPhy 0x1a 0x3230)
  let _ ← onSoc (mdioWrite psgmiiPhy miiBmcr 0x005f)

theorem reset_eq (probeDone : Int) : qca8075EssReset probeDone =
    beforePoll probeDone >>= fun _ => pollPhy 100 0 >>= fun _ => afterPoll := by
  unfold qca8075EssReset beforePoll
  by_cases h : probeDone = 0
  · rw [if_pos h, if_pos h, bind_assoc]
    rfl
  · rw [if_neg h, if_neg h]
    rfl

/-- The three writes before the poll. -/
def startPoll : Bus Unit := do
  let _ ← mdioWrite psgmiiPhy miiBmcr 0x005b
  let _ ← mdioWrite psgmiiPhy miiBmcr 0x001b
  let _ ← mdioWrite psgmiiPhy miiBmcr 0x005b

theorem beforePoll_eq (probeDone : Int) : beforePoll probeDone =
    (if probeDone = 0 then probeIds >>= fun _ => onSoc startPoll else onSoc startPoll) := rfl

theorem away_startPoll : (onSoc startPoll).Uses Away :=
  ⟨away_write (by decide), fun _ => ⟨away_write (by decide), fun _ => ⟨away_write (by decide),
    fun _ => trivial⟩⟩⟩

theorem away_beforePoll (probeDone : Int) : (beforePoll probeDone).Uses Away := by
  rw [beforePoll_eq]
  split
  · refine uses_bind (uses_forM fun i _ => ?_) fun _ => away_startPoll
    exact ⟨by simp [Away], fun _ => ⟨by simp [Away], fun _ => trivial⟩⟩
  · exact away_startPoll

theorem away_afterPoll : afterPoll.Uses Away := by
  have hpoll : ∀ n i, (waitBit0 (readl (psgmii + psgmiiphyVcoCalibrationCtrlRegister2)) n i).Uses
      Away := by
    intro n
    induction n with
    | zero => exact fun _ => trivial
    | succ n ih =>
      refine fun i => ⟨by simp [Away], fun v : UInt32 => ?_⟩
      change Uses Away (if v &&& 0x1 ≠ 0 then .ret i
        else .op (S := socSig) (.mdelay 1) fun _ => waitBit0 _ n (i + 1))
      split
      · trivial
      · exact ⟨by simp [Away], fun _ => ih (i + 1)⟩
  refine ⟨away_write (by decide), fun _ => ?_⟩
  refine uses_bind (p := essReset) ?_ fun _ => uses_bind (hpoll 100 0) fun _ => ?_
  · exact ⟨by simp [Away], fun _ => ⟨by simp [Away], fun _ => ⟨by simp [Away], fun _ =>
      ⟨by simp [Away], fun _ => trivial⟩⟩⟩⟩
  · exact ⟨away_write (by decide), fun _ => ⟨away_write (by decide), fun _ => trivial⟩⟩

theorem fed_startPoll {u : Unit} (hr : Run (board stream env) s (onSoc startPoll) l s' (.ret u))
    (as : List Answer) : (answersOf l ++ as).drop 3 = as := by
  have hfed := congrArg Prod.snd (exec_fed hr as)
  change (((answersOf l ++ as).drop 1).drop 1).drop 1 = as at hfed
  rwa [List.drop_drop, List.drop_drop] at hfed

theorem foldl_drop {α ι : Type} (k : ℕ) : ∀ (is : List ι) (as : List α),
    is.foldl (fun as _ => as.drop k) as = as.drop (is.length * k)
  | [], _ => by simp
  | _ :: is, as => by
    rw [List.foldl_cons, foldl_drop k is, List.drop_drop, List.length_cons]
    rw [Nat.succ_mul, Nat.add_comm]

theorem fed_probeIds {u : Unit} (hr : Run (board stream env) s probeIds l s' (.ret u))
    (as : List Answer) : (answersOf l ++ as).drop 12 = as := by
  have hfed := fed_forM (f := fun i => do
    let _ ← mdioRead (UInt8.ofNat i) 2 0xdead
    let _ ← mdioRead (UInt8.ofNat i) 3 0xdead) hr as
  change (List.range 6).foldl (fun as _ => (as.drop 1).drop 1) (answersOf l ++ as) = as at hfed
  simp only [List.drop_drop] at hfed
  rwa [foldl_drop] at hfed

theorem fed_beforePoll {probeDone : Int} {u : Unit}
    (hr : Run (board stream env) s (beforePoll probeDone) l s' (.ret u)) (as : List Answer) :
    (answersOf l ++ as).drop (if probeDone = 0 then 15 else 3) = as := by
  rw [beforePoll_eq] at hr
  by_cases h : probeDone = 0
  · rw [if_pos h] at hr ⊢
    obtain ⟨l₁, l₂, s₁, _, h₁, h₂, rfl⟩ := hr.bind_inv
    rw [answersOf_append, List.append_assoc, show 15 = 12 + 3 from rfl, ← List.drop_drop,
      fed_probeIds h₁, fed_startPoll h₂]
  · rw [if_neg h] at hr ⊢
    exact fed_startPoll hr as

/-- What the poll of the PHY sees, on the answers of the reset. -/
theorem phySeen_reset {probeDone : Int} {u : Unit} {l' : List (SocOp × Board Answer)}
    (hr : Run (board stream env) s (qca8075EssReset probeDone) l s' (.ret u))
    (hl' : ∀ x ∈ l', Away x.1) (as : List Answer) : PhySeen (l ++ l') ↔
      PollsReady 100 ((answersOf l ++ as).drop (if probeDone = 0 then 15 else 3)) := by
  rw [reset_eq] at hr
  obtain ⟨l₁, l₂, s₁, _, h₁, h₂, rfl⟩ := hr.bind_inv
  obtain ⟨l₃, l₄, s₂, j, h₃, h₄, rfl⟩ := h₂.bind_inv
  rw [List.append_assoc, phySeen_skip (h₁.uses (away_beforePoll probeDone)).2, answersOf_append,
    List.append_assoc (answersOf l₁), fed_beforePoll h₁, List.append_assoc, answersOf_append,
    List.append_assoc]
  refine phySeen_iff 100 0 h₃ ?_ _
  intro x hx
  rcases List.mem_append.mp hx with hx | hx
  · exact (h₄.uses away_afterPoll).2 x hx
  · exact hl' x hx

/-- What the preparation of the PHYs takes of the answers. -/
theorem fed_prepareAll {u : Unit} (hr : Run (board stream env) s ((List.range ipq4019NumPortPhy).forM
    fun i => onSoc (psgmiiStPhyPrepare (UInt8.ofNat i))) l s' (.ret u)) (as : List Answer) :
    (List.range ipq4019NumPortPhy).foldl (fun as _ => afterPrepare as) (answersOf l ++ as) = as := by
  have hfed := fed_forM (f := fun i => psgmiiStPhyPrepare (UInt8.ofNat i)) hr as
  simpa only [fed_prepare] using hfed

theorem answersOf_analogCal {u : Unit}
    (hr : Run (board stream env) s psgmiiAnalogCal l s' (.ret u)) : answersOf l = [] := by
  have huses : psgmiiAnalogCal.Uses fun o : SocOp => ∀ b, o ≠ .bus b := by
    unfold psgmiiAnalogCal
    repeat refine ⟨by simp, fun _ => ?_⟩
    trivial
  refine List.filterMap_eq_nil_iff.mpr fun ⟨o, t⟩ hx => ?_
  have ho := (hr.uses huses).2 _ hx
  cases o with
  | bus b => exact absurd rfl (ho b)
  | _ => rfl

/-! ### The result -/

/-- The clean-up is done: the PHYs recovered, and loopback off. -/
structure CleansUp (env : Board Answer → Board Answer → Prop) (l : List (SocOp × Board Answer))
    (s' : Board Answer) : Prop where
  phys : ∀ p ∈ List.range ipq4019NumPortPhy,
    Ran (board stream env) (onSoc (recoverPhy (UInt8.ofNat p))) l
  loopback : KeepsLookup env → ∀ i, 1 ≤ i → i < essPortsNum →
    lookup s' i &&& essPortLoopBackEn = 0

/-- **What the header says of the result.** -/
structure Reports (env : Board Answer → Board Answer → Prop) (l : List (SocOp × Board Answer))
    (s' : Board Answer) (r : Int) : Prop where
  zero : r = 0 → PhySeen l ∧ SocSeen l
  fails : ¬ (PhySeen l ∧ SocSeen l) → r = -1 ∧ CleansUp env l s'

theorem ends_selfTest (probeDone : Int) :
    (ipq4019PsgmiiSelfTest probeDone).Ends fun r => r = 0 := by
  have hend : (recoverAll 1).Ends fun r => r = 0 := by
    refine ends_bind (fun _ => ends_bind (fun _ => ?_) _) _
    change (if (1 : Int) ≠ 0 then (0 : Int) else -1) = 0
    rfl
  unfold ipq4019PsgmiiSelfTest
  exact ends_bind (fun _ => ends_bind (fun _ => ends_bind (fun _ => ends_bind (fun _ =>
    ends_bind (fun _ => hend) _) _) _) _) _

/-- The end of the self-test. -/
theorem cleansUp_recoverAll {result : Int}
    (h : Run (board stream env) s (recoverAll result) l s' (.ret r)) : CleansUp env l s' := by
  obtain ⟨l₁, l₂, s₁, _, h₁, h₂, rfl⟩ := Run.bind_inv h
  obtain ⟨l₃, l₄, s₂, u, h₃, h₄, rfl⟩ := Run.bind_inv h₂
  refine ⟨fun p hp => (h₁.ran_forM p hp).append_right _, fun henv i h1 h6 => ?_⟩
  have hpost := wp_run_free (wp_lookupOp henv (.loopbackSetAll 0)
    (fun j _ => rfl : Holds (lookup s₁) s₁)) h₃
  have hend := (Holds.stable henv _).env h₄.ret_inv.2.2 hpost
  rw [hend i h6, rewrite_loopBack]
  simp [loopSet, h1]

/-- **The parts of the self-test**: the preparation of the PHYs, the reset, and the rest, which leaves
PHY 5 alone and cleans up. -/
theorem selfTest_inv {probeDone : Int}
    (h : Run (board stream env) s (ipq4019PsgmiiSelfTest probeDone) l s' (.ret r)) :
    ∃ l₁ l₂ l₃ l₄ s₁ s₂ s₃, l = l₁ ++ (l₂ ++ (l₃ ++ l₄)) ∧
      Run (board stream env) s psgmiiAnalogCal l₁ s₁ (.ret ()) ∧
      Run (board stream env) s₁ ((List.range ipq4019NumPortPhy).forM fun i =>
        onSoc (psgmiiStPhyPrepare (UInt8.ofNat i))) l₂ s₂ (.ret ()) ∧
      Run (board stream env) s₂ (qca8075EssReset probeDone) l₃ s₃ (.ret ()) ∧
      (∀ x ∈ l₄, Away x.1) ∧ CleansUp env l₄ s' := by
  obtain ⟨l₁, k₁, s₁, ⟨⟩, h₁, hr₁, rfl⟩ := Run.bind_inv h
  obtain ⟨l₂, k₂, s₂, ⟨⟩, h₂, hr₂, rfl⟩ := Run.bind_inv hr₁
  obtain ⟨l₃, k₃, s₃, ⟨⟩, h₃, hr₃, rfl⟩ := Run.bind_inv hr₂
  refine ⟨l₁, l₂, l₃, k₃, s₁, s₂, s₃, rfl, h₁, h₂, h₃, ?_, ?_⟩
  · refine (hr₃.uses (uses_bind away_analogCal fun _ => ?_)).2
    exact ⟨by simp [Away], fun _ => away_recoverAll 1⟩
  · obtain ⟨l₄, k₄, s₄, _, -, hr₄, rfl⟩ := Run.bind_inv hr₃
    obtain ⟨l₅, k₅, s₅, _, -, hr₅, rfl⟩ := Run.bind_inv hr₄
    have hclean := cleansUp_recoverAll hr₅
    exact ⟨fun p hp => ((hclean.phys p hp).append_left l₅).append_left l₄, hclean.loopback⟩

/-- **What the poll of the PHY sees**, on the answers of the call. -/
theorem phySeen_selfTest {probeDone : Int}
    (h : Run (board stream env) s (ipq4019PsgmiiSelfTest probeDone) l s' (.ret r)) :
    PhySeen l ↔ PhyReady probeDone (answersOf l) := by
  obtain ⟨l₁, l₂, l₃, l₄, s₁, s₂, s₃, rfl, h₁, h₂, h₃, haway, -⟩ := selfTest_inv h
  unfold PhyReady
  rw [phySeen_skip (h₁.uses away_analogCal).2, phySeen_skip (h₂.uses (away_ports phyOf_prepare)).2,
    answersOf_append, answersOf_analogCal h₁, List.nil_append, answersOf_append, fed_prepareAll h₂,
    answersOf_append]
  exact phySeen_reset h₃ haway (answersOf l₄)

/-- **When the self-test reports as documented**: if the answers let both polls see their bit, and
never on a failure of the calibration; it returns 0 and cleans up in any case. -/
theorem self_test_iff (env : Board Answer → Board Answer → Prop) (probeDone : Int)
    (s s' : Board Answer) (l : List (SocOp × Board Answer)) (r : Int)
    (h : Run (board stream env) s (ipq4019PsgmiiSelfTest probeDone) l s' (.ret r)) :
    (Reports env l s' r ↔ PhyReady probeDone (answersOf l) ∧ SocReady (socOf l)) ∧
      r = 0 ∧ CleansUp env l s' := by
  have hzero : r = 0 := h.ends (ends_selfTest probeDone)
  rw [← phySeen_selfTest h, socReady_iff]
  refine ⟨⟨fun hrep => hrep.zero hzero, fun hseen => ⟨fun _ => hseen, fun hn => absurd hseen hn⟩⟩,
    hzero, ?_⟩
  obtain ⟨l₁, l₂, l₃, l₄, s₁, s₂, s₃, rfl, -, -, -, -, hclean⟩ := selfTest_inv h
  exact ⟨fun p hp => (((hclean.phys p hp).append_left l₃).append_left l₂).append_left l₁,
    hclean.loopback⟩

/-! ### Two boards -/

/-- The self-test, called for the first time. -/
def firstTest : Soc Int := ipq4019PsgmiiSelfTest 0

/-- A board that stands still. -/
abbrev quiet : Machine socSig (Board Answer) := board stream fun _ _ => False

/-- Registers that read 1, and a bus on which every transaction brings 1. -/
def calibrated : Board Answer := ⟨fun _ => 1, some 1⟩

/-- A calibration that both polls see the end of. -/
theorem self_test_calibrated :
    Reports (fun _ _ => False) (hist quiet firstTest calibrated) (exec quiet firstTest calibrated).2
        (exec quiet firstTest calibrated).1 ∧
      (exec quiet firstTest calibrated).1 = 0 ∧
      CleansUp (fun _ _ => False) (hist quiet firstTest calibrated)
        (exec quiet firstTest calibrated).2 := by
  obtain ⟨hiff, hrest⟩ := self_test_iff (fun _ _ => False) 0 calibrated _ _ _ (run_exec firstTest _)
  exact ⟨hiff.mpr (by decide +kernel), hrest⟩

/-- Registers that read 0, and a bus on which every transaction times out. -/
def dead : Board Answer := ⟨fun _ => 0, none⟩

/-- Transactions go on timing out. -/
theorem hist_dead : ∀ x ∈ hist quiet firstTest dead, x.2.phys = none := by
  have hstep : ∀ (o : SocOp) (t : Board Answer), True → t.phys = none →
      (step stream o t).2.phys = none := by
    intro o t _ ht
    cases o with
    | bus o => cases o <;> exact ht
    | readl a => exact ht
    | writel v a => exact ht
    | mdelay ms => exact ht
  exact hist_of_uses (M := quiet) (A := fun t : Board Answer => t.phys = none) hstep
    (uses_true firstTest) rfl

/-- **A calibration that failed is reported as a success.** -/
theorem self_test_fails : ¬ Reports (fun _ _ => False) (hist quiet firstTest dead)
    (exec quiet firstTest dead).2 (exec quiet firstTest dead).1 := by
  intro hrep
  have hzero : (exec quiet firstTest dead).1 = 0 := (run_exec firstTest dead).ends (ends_selfTest 0)
  obtain ⟨⟨t₁, t₂, t₃, t₄, v, hin, -, -, -, ht, -⟩, -⟩ := hrep.zero hzero
  have hmem : (SocOp.bus (.read 5 0x0e 0), t₄) ∈ hist quiet firstTest dead := hin.subset (by simp)
  rw [hist_dead _ hmem] at ht
  cases ht

end Ipq4019.Psgmii.SelfTest
