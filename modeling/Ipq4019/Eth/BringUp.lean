import Ipq4019.Edma.Send
import Ipq4019.Ess.Lookup
import Ipq4019.Eth.Life

/-!
# The network device: bring-up and the registers of the EDMA

The control registers of the queues and the station address keep what was last written to them, except
while the block is held in reset; everything else may change at any time.  Over every run of calls from
the start of the payload on:

* the rings are set up, and their addresses and sizes written, only while both queues are off;
* the driver joins a port to the CPU port, and writes the flood masks of `ess_switch_enable_lookup`,
  only while both queues are on;
* while a device is registered, the EDMA's station address is that of the device, which is not zero
  (`usable_ne_zero`), and the queues are on exactly if the device is started (`bring_up`).
-/

namespace Ipq4019.Eth.BringUp

open Ipq4019.Lib Ipq4019.Lib.Interleave Ipq4019.Lib.Interleave.Prog Ipq4019.Lib.Calls
open Ipq4019.Mdio.Driver (BusOp Bus)
open Ipq4019.Chip.Access (SocOp Soc socSig Board onSoc)
open Ipq4019.Ess.Driver
open Ipq4019.Ess.Lookup (lookupCtrl_inj)
open Ipq4019.Psgmii.Driver (ipq4019GccBase gccEssBcr gccEssBcrBlkAres)
open Ipq4019.Edma.Driver (Platform EdmaOp EdmaReg Drv ipq4019EthSend ipq4019EthRecv edmaInitDesc
  edmaInitRfdRing)
open Ipq4019.Edma.Alloc Ipq4019.Eth.Driver Ipq4019.Eth.Life

/-! ### The registers -/

/-- The reset of the block. -/
def essBcr : UInt32 := ipq4019GccBase + gccEssBcr

def rxqCtrl : UInt32 := ipq4019EdmaBase + edmaRegRxqCtrl
def txqCtrl : UInt32 := ipq4019EdmaBase + edmaRegTxqCtrl
def macCtrl0 : UInt32 := ipq4019EdmaBase + regMacCtrl0
def macCtrl1 : UInt32 := ipq4019EdmaBase + regMacCtrl1

/-- The control registers of the queues, and the station address. -/
def edmaCtl : List UInt32 := [rxqCtrl, txqCtrl, macCtrl0, macCtrl1]

/-- The registers that say how packets are spread over the queues, and the thresholds of the ring. -/
def edmaConfig : List UInt32 :=
  (ipq4019EdmaBase + edmaRegRssType) :: (ipq4019EdmaBase + edmaRegRxDesc1) ::
    (List.range edmaNumIdt).map fun i => ipq4019EdmaBase + edmaRegRssIdt i

def essFwCtrl1 : UInt32 := ipq4019EssBase + essGlobalFwCtrl1

/-- The lookup register of a port of the switch. -/
def essLookup (i : ℕ) : UInt32 := ipq4019EssBase + essPortLookupCtrl i

def essLookups : List UInt32 := (List.range essPortsNum).map essLookup

/-- The bits of a port's lookup register that join it to the CPU port: any member of the CPU port's
own, and the CPU as a member of another's. -/
def cpuField (i : ℕ) : UInt32 := if i = 0 then essPortVidMemMask else 1

def QueuesOff (r : UInt32 → UInt32) : Prop :=
  r rxqCtrl &&& edmaRxqCtrlEn = 0 ∧ r txqCtrl &&& edmaTxqCtrlTxqEn = 0

def QueuesOn (r : UInt32 → UInt32) : Prop :=
  r rxqCtrl &&& edmaRxqCtrlEn = edmaRxqCtrlEn ∧ r txqCtrl &&& edmaTxqCtrlTxqEn = edmaTxqCtrlTxqEn

/-- **The address the EDMA answers to**, as it is spread over two registers. -/
def stationAddr (r : UInt32 → UInt32) : UipEthAddr :=
  #v[(r macCtrl1 >>> 8).toUInt8, (r macCtrl1).toUInt8, (r macCtrl0 >>> 24).toUInt8,
    (r macCtrl0 >>> 16).toUInt8, (r macCtrl0 >>> 8).toUInt8, (r macCtrl0).toUInt8]

/-- The address of the firmware's table, or if there is none a local one. -/
def usable (m : UipEthAddr) : UipEthAddr := if m = Vector.replicate 6 0 then localMac else m

theorem usable_ne_zero (m : UipEthAddr) : usable m ≠ Vector.replicate 6 0 := by
  unfold usable
  split
  · decide
  · assumption

/-! ### What is said of the accesses -/

/-- The accesses that set the rings up. -/
def Setup : NicOp → Prop
  | .ring _ (.edma (.storeRfd _ _)) => True
  | .ring _ (.edma (.writel _ r)) => r ∈ [EdmaReg.tpdBaseAddrQ, .rfdBaseAddrQ, .tpdRingSize, .rxDesc0,
      .txfWaterMark, .txSramPart]
  | .soc (.writel _ a) => a ∈ edmaConfig
  | _ => False

/-- The accesses that open the switch to the CPU: a port is joined to the CPU port, or
`ess_switch_enable_lookup` writes its flood masks. -/
def Opens : NicOp → Prop
  | .soc (.writel v a) =>
    (∃ i < essPortsNum, a = essLookup i ∧ v &&& cpuField i ≠ 0) ∨ (v = 0x3f3f3f ∧ a = essFwCtrl1)
  | _ => False

theorem not_opens {v a : UInt32} (h : a ∉ essFwCtrl1 :: essLookups) : ¬Opens (.soc (.writel v a)) := by
  obtain ⟨hfw, hlook⟩ := not_or.mp (mt List.mem_cons.mpr h)
  rintro (⟨i, hi, ha, -⟩ | ⟨-, ha⟩)
  · exact hlook (List.mem_map.mpr ⟨i, List.mem_range.mpr hi, ha.symm⟩)
  · exact hfw ha

variable {γ : Type}

/-- **Beside hardware that keeps these registers**, except in reset. -/
def held (hw : (o : AllocOp) → γ → o.Res × γ) : Machine nicSig (NicState γ) where
  step := step hw
  env s t := ∃ h b, t = { s with hw := h, board := b } ∧ b.regs essBcr = s.board.regs essBcr ∧
    (s.board.regs essBcr &&& gccEssBcrBlkAres = 0 → ∀ a ∈ edmaCtl, b.regs a = s.board.regs a)

def bringUpContract : Contract nicSig (NicState γ) where
  inv _ := True
  asm _ _ := True
  ok o s := (Setup o → QueuesOff s.board.regs) ∧ (Opens o → QueuesOn s.board.regs)

/-- **The bring-up**, in the calls of a run, with the firmware's address `z`. -/
structure BroughtUp (z : UipEthAddr) (cs : List (NicRec γ)) : Prop where
  setup : ∀ x ∈ cs, ∀ y ∈ x.hist, Setup y.1 → QueuesOff y.2.board.regs
  opens : ∀ x ∈ cs, ∀ y ∈ x.hist, Opens y.1 → QueuesOn y.2.board.regs
  station : ∀ x ∈ cs, ∀ p ∈ x.after.netDevices,
    (x.after.dev p).macAddr = usable z ∧ stationAddr x.after.board.regs = usable z
  queues : ∀ x ∈ cs, ∀ p ∈ x.after.netDevices,
    ((x.after.dev p).started = 0 → QueuesOff x.after.board.regs) ∧
      ((x.after.dev p).started ≠ 0 → QueuesOn x.after.board.regs)

/-! ### The part of the state that is kept -/

variable {hw : (o : AllocOp) → γ → o.Res × γ} {c : Platform} {s s' : NicState γ}
  {l : List (NicOp × NicState γ)} {p : ℕ} {α : Type}

/-- The reset, the addresses of the devices, and the firmware's. -/
structure Base where
  bcr : UInt32
  macs : List UipEthAddr
  sysinfo : UipEthAddr

def base (s : NicState γ) : Base := ⟨s.board.regs essBcr, s.devs.map (·.macAddr), s.sysinfo⟩

/-- The block is not in reset. -/
def Base.Released (b : Base) : Prop := b.bcr &&& gccEssBcrBlkAres = 0

/-- The base is `b`, and out of reset the registers are as in `k`. -/
structure Holds (b : Base) (k : UInt32 → UInt32) (s : NicState γ) : Prop where
  base : base s = b
  ctl : b.Released → ∀ a ∈ edmaCtl, s.board.regs a = k a

variable {b : Base} {k : UInt32 → UInt32}

theorem Holds.stable : Stable (held hw) (Holds b k) := by
  rintro s _ ⟨h, b', rfl, hbcr, hctl⟩ ⟨hb, hk⟩
  have hreg : s.board.regs essBcr = b.bcr := congrArg Base.bcr hb
  refine ⟨?_, fun hrel a ha => ?_⟩
  · rw [← hb]
    unfold BringUp.base
    rw [hbcr]
  · have hrel' : s.board.regs essBcr &&& gccEssBcrBlkAres = 0 := by
      rw [hreg]
      exact hrel
    exact (hctl hrel' a ha).trans (hk hrel a ha)

theorem mem_ctl : rxqCtrl ∈ edmaCtl ∧ txqCtrl ∈ edmaCtl ∧ macCtrl0 ∈ edmaCtl ∧ macCtrl1 ∈ edmaCtl := by
  simp [edmaCtl]

theorem Holds.off (h : Holds b k s) (hb : b.Released) : QueuesOff s.board.regs ↔ QueuesOff k := by
  obtain ⟨hr, ht, -, -⟩ := mem_ctl
  simp only [QueuesOff, h.ctl hb _ hr, h.ctl hb _ ht]

theorem Holds.on (h : Holds b k s) (hb : b.Released) : QueuesOn s.board.regs ↔ QueuesOn k := by
  obtain ⟨hr, ht, -, -⟩ := mem_ctl
  simp only [QueuesOn, h.ctl hb _ hr, h.ctl hb _ ht]

theorem Holds.stationAddr (h : Holds b k s) (hb : b.Released) :
    stationAddr s.board.regs = stationAddr k := by
  obtain ⟨-, -, h₀, h₁⟩ := mem_ctl
  simp only [BringUp.stationAddr, h.ctl hb _ h₀, h.ctl hb _ h₁]

/-! ### Accesses that leave it alone -/

/-- The accesses that leave it alone. -/
def Calm : NicOp → Prop
  | .soc (.writel _ a) => a ∉ essBcr :: edmaCtl
  | .xzallocDev => False
  | .setMacAddr _ _ => False
  | _ => True

theorem map_macAddr_modify {f : EthDev → EthDev} (hf : ∀ d, (f d).macAddr = d.macAddr)
    (ds : List EthDev) (p : ℕ) : (ds.modify p f).map (·.macAddr) = ds.map (·.macAddr) := by
  refine List.ext_getElem (by simp) fun i h₁ h₂ => ?_
  simp only [List.getElem_map, List.getElem_modify]
  split
  · exact hf _
  · rfl

theorem Holds.calm {o : NicOp} (ho : Calm o) (h : Holds b k s) : Holds b k (step hw o s).2 := by
  have hdevs : ∀ {ds : List EthDev}, ds.map (·.macAddr) = s.devs.map (·.macAddr) →
      Holds b k { s with devs := ds } := by
    rintro ds hds
    refine ⟨?_, h.ctl⟩
    rw [← h.base]
    unfold BringUp.base
    rw [hds]
  cases o with
  | ring q o =>
    change Holds b k (ringStep hw q o s).2
    unfold ringStep
    split
    · exact h
    · refine hdevs (map_macAddr_modify ?_ _ _)
      exact fun _ => rfl
    · exact ⟨h.base, h.ctl⟩
  | soc o =>
    cases o with
    | writel v a =>
      obtain ⟨hbcr, hctl⟩ := not_or.mp (mt List.mem_cons.mpr ho)
      have hreg : ∀ x, x ≠ a → Function.update s.board.regs a v x = s.board.regs x :=
        fun x hx => Function.update_of_ne hx _ _
      refine ⟨?_, fun hb x hx => ?_⟩
      · rw [← h.base]
        exact congrArg (fun y => (⟨y, s.devs.map (·.macAddr), s.sysinfo⟩ : Base))
          (hreg _ (Ne.symm hbcr))
      · refine (hreg x ?_).trans (h.ctl hb x hx)
        rintro rfl
        exact hctl hx
    | _ => exact ⟨h.base, h.ctl⟩
  | setStarted q v =>
    refine hdevs (map_macAddr_modify ?_ _ _)
    exact fun _ => rfl
  | xzallocDev => exact ho.elim
  | setMacAddr q m => exact ho.elim
  | _ => exact ⟨h.base, h.ctl⟩

/-- **A program of such accesses**, where those of `P` may be done. -/
theorem wp_calm {P : NicOp → Prop} {q : Nic α} (hq : q.Uses P) (hP : ∀ o, P o → Calm o)
    (hok : ∀ o (s : NicState γ), P o → Holds b k s → bringUpContract.ok o s) (h : Holds b k s) :
    wp (held hw) bringUpContract q (fun _ => Holds b k) s :=
  wp_of_uses Holds.stable (fun _ _ => trivial) (fun o s ho hs => hok o s ho hs)
    (fun _ _ ho hs => hs.calm (hP _ ho)) hq h

/-- Accesses that may be done anywhere. -/
def Plain (o : NicOp) : Prop := Calm o ∧ ¬Setup o ∧ ¬Opens o

theorem wp_plain {q : Nic α} (hq : q.Uses Plain) (h : Holds b k s) :
    wp (held hw) bringUpContract q (fun _ => Holds b k) s :=
  wp_calm hq (fun _ ho => ho.1) (fun _ _ ho _ => ⟨fun hs => absurd hs ho.2.1,
    fun hs => absurd hs ho.2.2⟩) h

/-- Accesses that may be done while the queues are off. -/
def WhileOff (o : NicOp) : Prop := Calm o ∧ ¬Opens o

theorem wp_off {q : Nic α} (hq : q.Uses WhileOff) (hb : b.Released) (hk : QueuesOff k)
    (h : Holds b k s) : wp (held hw) bringUpContract q (fun _ => Holds b k) s :=
  wp_calm hq (fun _ ho => ho.1) (fun _ _ ho hs => ⟨fun _ => (hs.off hb).mpr hk,
    fun hs => absurd hs ho.2⟩) h

/-- Accesses that may be done while they are on. -/
def WhileOn (o : NicOp) : Prop := Calm o ∧ ¬Setup o

theorem wp_on {q : Nic α} (hq : q.Uses WhileOn) (hb : b.Released) (hk : QueuesOn k)
    (h : Holds b k s) : wp (held hw) bringUpContract q (fun _ => Holds b k) s :=
  wp_calm hq (fun _ ho => ho.1) (fun _ _ ho hs => ⟨fun hs => absurd hs ho.2,
    fun _ => (hs.on hb).mpr hk⟩) h

/-! ### Accesses to the registers that are kept -/

/-- A register that is kept reads as it was last written. -/
theorem wp_read {a : UInt32} (ha : a ∈ edmaCtl) (hb : b.Released) {f : UInt32 → Nic α}
    {Q : α → NicState γ → Prop} (h : Holds b k s)
    (hf : ∀ t, Holds b k t → wp (held hw) bringUpContract (f (k a)) Q t) :
    wp (held hw) bringUpContract (.op (S := nicSig) (.soc (.readl a)) f) Q s := by
  have hok : ∀ t : NicState γ, bringUpContract.ok (NicOp.soc (.readl a)) t := fun _ =>
    ⟨False.elim, False.elim⟩
  refine wp_op Holds.stable (fun _ _ => trivial) (fun t _ => hok t) (fun t ht _ => ?_) h
  change wp _ _ (f (t.board.regs a)) Q t
  rw [ht.ctl hb a ha]
  exact hf t ht

theorem not_config {a : UInt32} (ha : a ∈ edmaCtl) :
    a ≠ essBcr ∧ a ∉ essFwCtrl1 :: essLookups ∧ a ∉ edmaConfig := by
  -- over the list: `∀ a : UInt32` may be decided by trying every word
  have hall : edmaCtl.all (fun a => a ≠ essBcr ∧ a ∉ essFwCtrl1 :: essLookups ∧ a ∉ edmaConfig) =
      true := by decide
  exact of_decide_eq_true (List.all_eq_true.mp hall a ha)

/-- A write to such a register. -/
theorem wp_write {v a : UInt32} (ha : a ∈ edmaCtl) {f : Unit → Nic α} {Q : α → NicState γ → Prop}
    (h : Holds b k s)
    (hf : ∀ t, Holds b (Function.update k a v) t → wp (held hw) bringUpContract (f ()) Q t) :
    wp (held hw) bringUpContract (.op (S := nicSig) (.soc (.writel v a)) f) Q s := by
  obtain ⟨hbcr, hfw, hcfg⟩ := not_config ha
  have hok : ∀ t : NicState γ, bringUpContract.ok (NicOp.soc (.writel v a)) t := fun _ =>
    ⟨fun hs => absurd hs hcfg, fun hs => absurd hs (not_opens hfw)⟩
  refine wp_op Holds.stable (fun _ _ => trivial) (fun t _ => hok t) (fun t ht _ => ?_) h
  refine hf _ ⟨?_, fun hb x hx => ?_⟩
  · rw [← ht.base]
    refine congrArg (fun y => (⟨y, t.devs.map (·.macAddr), t.sysinfo⟩ : Base)) ?_
    exact Function.update_of_ne (Ne.symm hbcr) _ _
  · change Function.update t.board.regs a v x = Function.update k a v x
    by_cases hxa : x = a
    · rw [hxa, Function.update_self, Function.update_self]
    · rw [Function.update_of_ne hxa, Function.update_of_ne hxa]
      exact ht.ctl hb x hx

/-- A write to the reset. -/
theorem wp_writeBcr {v : UInt32} {f : Unit → Nic α} {Q : α → NicState γ → Prop} (h : Holds b k s)
    (hf : ∀ t k', Holds { b with bcr := v } k' t → wp (held hw) bringUpContract (f ()) Q t) :
    wp (held hw) bringUpContract (.op (S := nicSig) (.soc (.writel v essBcr)) f) Q s := by
  have hcfg : essBcr ∉ edmaConfig := by decide
  have hfw : essBcr ∉ essFwCtrl1 :: essLookups := by decide
  have hok : ∀ t : NicState γ, bringUpContract.ok (NicOp.soc (.writel v essBcr)) t := fun _ =>
    ⟨fun hs => absurd hs hcfg, fun hs => absurd hs (not_opens hfw)⟩
  refine wp_op Holds.stable (fun _ _ => trivial) (fun t _ => hok t) (fun t ht _ => ?_) h
  refine hf _ (step hw (.soc (.writel v essBcr)) t).2.board.regs ⟨?_, fun _ _ _ => rfl⟩
  rw [← ht.base]
  refine congrArg (fun y => (⟨y, t.devs.map (·.macAddr), t.sysinfo⟩ : Base)) ?_
  change Function.update t.board.regs essBcr v essBcr = v
  rw [Function.update_self]

/-! ### The bytes of the address -/

/-- Four bytes, packed into a word. -/
theorem bytes_word {w : UInt32} {a b c d : UInt8} (hw : w = a.toUInt32 <<< (24 : UInt32) |||
    b.toUInt32 <<< (16 : UInt32) ||| c.toUInt32 <<< (8 : UInt32) ||| d.toUInt32) :
    (w >>> 24).toUInt8 = a ∧ (w >>> 16).toUInt8 = b ∧ (w >>> 8).toUInt8 = c ∧ w.toUInt8 = d := by
  subst hw
  refine ⟨?_, ?_, ?_, ?_⟩
  all_goals
    apply UInt8.eq_of_toBitVec_eq
    ext i hi
    simp (disch := omega) [BitVec.getLsbD_eq_getElem, decide_eq_true, decide_eq_false]

/-- Two bytes. -/
theorem bytes_half {w : UInt32} {a b : UInt8} (hw : w = a.toUInt32 <<< (8 : UInt32) ||| b.toUInt32) :
    (w >>> 8).toUInt8 = a ∧ w.toUInt8 = b := by
  subst hw
  refine ⟨?_, ?_⟩
  all_goals
    apply UInt8.eq_of_toBitVec_eq
    ext i hi
    simp (disch := omega) [BitVec.getLsbD_eq_getElem]

/-- **What `ipq4019_eth_write_hwaddr` writes is the address.** -/
theorem stationAddr_written {m₀ m₁ m₂ m₃ m₄ m₅ : UInt8}
    (h₀ : k macCtrl0 = m₂.toUInt32 <<< (24 : UInt32) ||| m₃.toUInt32 <<< (16 : UInt32) |||
      m₄.toUInt32 <<< (8 : UInt32) ||| m₅.toUInt32)
    (h₁ : k macCtrl1 = m₀.toUInt32 <<< (8 : UInt32) ||| m₁.toUInt32) :
    stationAddr k = #v[m₀, m₁, m₂, m₃, m₄, m₅] := by
  obtain ⟨w₂, w₃, w₄, w₅⟩ := bytes_word h₀
  obtain ⟨w₀, w₁⟩ := bytes_half h₁
  simp only [stationAddr, w₀, w₁, w₂, w₃, w₄, w₅]

/-! ### The pieces of the driver -/

/-- The registers that some access of the bring-up concerns. -/
def watched : List UInt32 := essBcr :: edmaCtl ++ edmaConfig ++ essFwCtrl1 :: essLookups

theorem plain_write {v a : UInt32} (h : a ∉ watched) : Plain (.soc (.writel v a)) := by
  simp only [watched, List.mem_append, not_or] at h
  exact ⟨h.1.1, h.1.2, not_opens h.2⟩

theorem plain_fwCtrl1 {v : UInt32} (h : v ≠ 0x3f3f3f) : Plain (.soc (.writel v essFwCtrl1)) := by
  have hout : essFwCtrl1 ∉ essBcr :: edmaCtl ∧ essFwCtrl1 ∉ edmaConfig ∧ essFwCtrl1 ∉ essLookups := by
    decide
  refine ⟨hout.1, hout.2.1, ?_⟩
  rintro (⟨i, hi, ha, -⟩ | ⟨hv, -⟩)
  · exact hout.2.2 (List.mem_map.mpr ⟨i, List.mem_range.mpr hi, ha.symm⟩)
  · exact h hv

theorem plain_readl {a : UInt32} : Plain (.soc (.readl a)) := ⟨trivial, id, id⟩

theorem uses_onNic {P : NicOp → Prop} {q : Soc α} (hq : q.Uses fun o => P (.soc o)) :
    (onNic q).Uses P :=
  uses_subst (h := fun o => call (S := nicSig) (.soc o)) (fun _ ho => uses_call ho) hq

/-- One access, before a program. -/
theorem wp_access {o : NicOp} (ho : Plain o) {f : o.Res → Nic α} {Q : α → NicState γ → Prop}
    (h : Holds b k s)
    (hf : ∀ r t, Holds b k t → wp (held hw) bringUpContract (f r) Q t) :
    wp (held hw) bringUpContract (.op (S := nicSig) o f) Q s := by
  have hok : ∀ t : NicState γ, bringUpContract.ok o t := fun _ =>
    ⟨fun hs => absurd hs ho.2.1, fun hs => absurd hs ho.2.2⟩
  exact wp_op Holds.stable (fun _ _ => trivial) (fun t _ => hok t)
    (fun t ht _ => hf _ _ (ht.calm ho.1)) h

theorem plain_pinmux : (onNic ipq4019MdioPinmuxInit).Uses Plain := by
  refine uses_onNic ?_
  exact ⟨plain_write (by decide), fun _ => ⟨plain_write (by decide), fun _ =>
    ⟨plain_write (by decide), fun _ => ⟨plain_write (by decide), fun _ => trivial⟩⟩⟩⟩

theorem plain_mdioInit : (onNic ipq4019MdioInit).Uses Plain := by
  refine uses_onNic ?_
  exact ⟨plain_readl, fun _ => ⟨plain_write (by decide), fun _ =>
    ⟨plain_write (by decide), fun _ => trivial⟩⟩⟩

theorem hol_free {i : ℕ} (hi : i ∈ List.range essPortsNum) {a : UInt32}
    (ha : a ∈ [essPortHolCtrl0 i, essPortHolCtrl1 i]) : ipq4019EssBase + a ∉ watched := by
  have hall : (List.range essPortsNum).all (fun i =>
      [essPortHolCtrl0 i, essPortHolCtrl1 i].all fun a => ipq4019EssBase + a ∉ watched) = true := by
    decide
  exact of_decide_eq_true (List.all_eq_true.mp (List.all_eq_true.mp hall i hi) a ha)

theorem lookup_free {i : ℕ} (hi : i ∈ List.range essPortsNum) :
    essLookup i ∉ essBcr :: edmaCtl ∧ essLookup i ∉ edmaConfig ∧ essLookup i ≠ essFwCtrl1 := by
  have hall : (List.range essPortsNum).all (fun i => essLookup i ∉ essBcr :: edmaCtl ∧
      essLookup i ∉ edmaConfig ∧ essLookup i ≠ essFwCtrl1) = true := by decide
  exact of_decide_eq_true (List.all_eq_true.mp hall i hi)

/-- A write to a lookup register that joins no port to the CPU port. -/
theorem plain_lookup {i : ℕ} (hi : i ∈ List.range essPortsNum) {v : UInt32}
    (hv : v &&& cpuField i = 0) : Plain (.soc (.writel v (essLookup i))) := by
  obtain ⟨hctl, hcfg, hfw⟩ := lookup_free hi
  refine ⟨hctl, hcfg, ?_⟩
  rintro (⟨j, hj, ha, hne⟩ | ⟨-, ha⟩)
  · obtain rfl : i = j := lookupCtrl_inj i (List.mem_range.mp hi) j hj ha
    exact hne hv
  · exact hfw ha

/-- The fields that join a port to the CPU port are part of the membership. -/
theorem and_cpuField {v w : UInt32} (i : ℕ) (h : v &&& essPortVidMemMask = w &&& essPortVidMemMask) :
    v &&& cpuField i = w &&& cpuField i := by
  have hsub : essPortVidMemMask &&& cpuField i = cpuField i := by
    unfold cpuField
    split <;> decide
  rw [← hsub, ← UInt32.and_assoc, h, UInt32.and_assoc]

theorem cleared_cpuField (v : UInt32) (i : ℕ) : v &&& ~~~essPortVidMemMask &&& cpuField i = 0 := by
  refine (and_cpuField (w := 0) i ?_).trans UInt32.zero_and
  rw [UInt32.and_assoc, UInt32.not_and_self, UInt32.and_zero, UInt32.zero_and]

theorem disabled_cpuField {i : ℕ} (hi : i ∈ List.range essPortsNum) (v : UInt32) :
    (v &&& ~~~essPortVidMemMask ||| disabledVid i &&& essPortVidMemMask) &&& cpuField i = 0 := by
  have hall : (List.range essPortsNum).all (fun i => disabledVid i &&& cpuField i = 0) = true := by
    decide
  exact (and_cpuField i Fields.setField_self).trans
    (of_decide_eq_true (List.all_eq_true.mp hall i hi))

theorem plain_switchInit : (onNic (essSwitchInit ipq4019EssBase)).Uses Plain := by
  refine uses_onNic ?_
  have hhol : ∀ i ∈ List.range essPortsNum, ∀ v,
      Plain (.soc (.writel v (ipq4019EssBase + essPortHolCtrl0 i))) ∧
        Plain (.soc (.writel v (ipq4019EssBase + essPortHolCtrl1 i))) := fun i hi v =>
    ⟨plain_write (hol_free hi (by simp)), plain_write (hol_free hi (by simp))⟩
  refine uses_bind (uses_call (plain_fwCtrl1 (by decide))) fun _ =>
    uses_bind (uses_call (plain_write (by decide))) fun _ =>
      uses_bind (uses_forM fun i hi => ?_) fun _ => ?_
  · exact ⟨plain_readl, fun v => ⟨plain_lookup hi (cleared_cpuField v i), fun _ => trivial⟩⟩
  refine uses_bind (uses_forM fun i hi => ?_) fun _ => ?_
  · exact ⟨(hhol i hi _).1, fun _ => ⟨plain_readl, fun _ => ⟨(hhol i hi _).2, fun _ => trivial⟩⟩⟩
  exact ⟨⟨trivial, id, id⟩, fun _ => ⟨plain_readl, fun _ => ⟨plain_write (by decide), fun _ =>
    ⟨plain_fwCtrl1 (by decide), fun _ => trivial⟩⟩⟩⟩

theorem plain_disableLookup : (onNic (essSwitchDisableLookup ipq4019EssBase)).Uses Plain := by
  refine uses_onNic (uses_bind (uses_forM fun i hi => ?_) fun _ => ?_)
  · exact ⟨plain_readl, fun v => ⟨plain_lookup hi (disabled_cpuField hi v), fun _ => trivial⟩⟩
  · exact ⟨plain_fwCtrl1 (by decide), fun _ => trivial⟩

/-- The switch is opened here, and nothing is set up. -/
theorem on_enableLookup : (onNic (essSwitchEnableLookup ipq4019EssBase)).Uses WhileOn := by
  refine uses_onNic (uses_bind (uses_forM fun i hi => ?_) fun _ => ?_)
  · obtain ⟨hctl, hcfg, -⟩ := lookup_free hi
    exact ⟨⟨trivial, id⟩, fun _ => ⟨⟨hctl, hcfg⟩, fun _ => trivial⟩⟩
  · have hout : essFwCtrl1 ∉ essBcr :: edmaCtl ∧ essFwCtrl1 ∉ edmaConfig := by decide
    exact ⟨⟨hout.1, hout.2⟩, fun _ => trivial⟩

theorem plain_mdelay {n : ℕ} : Plain (.soc (.mdelay n)) := ⟨trivial, id, id⟩

/-- The block is taken out of reset. -/
theorem wp_clockAndReset (h : Holds b k s) :
    wp (held hw) bringUpContract (onNic ipq4019EssClockAndResetInit)
      (fun _ s => ∃ k', Holds { b with bcr := 0 } k' s) s := by
  refine wp_access plain_readl h fun _ t₁ h₁ => ?_
  refine wp_access (plain_write (by decide)) h₁ fun _ t₂ h₂ => ?_
  refine wp_access plain_mdelay h₂ fun _ t₃ h₃ => ?_
  refine wp_writeBcr h₃ fun t₄ k₁ h₄ => ?_
  refine wp_access plain_mdelay h₄ fun _ t₅ h₅ => ?_
  refine wp_writeBcr h₅ fun t₆ k₂ h₆ => ?_
  refine wp_access plain_mdelay h₆ fun _ t₇ h₇ => ?_
  refine wp_access plain_readl h₇ fun (v : UInt32) t₈ h₈ => ?_
  have hend : ∀ t, Holds { b with bcr := 0 } k₂ t → wp (held hw) bringUpContract
      (.ret () : Nic Unit) (fun _ s => ∃ k', Holds { b with bcr := 0 } k' s) t := fun t ht =>
    wp_ret Holds.stable (fun _ _ => trivial) (fun _ h => ⟨k₂, h⟩) ht
  change wp _ _ (onNic (if v &&& 0x3F ≠ 0 then _ else _)) _ _
  split
  · refine wp_access (plain_write (by decide)) h₈ fun _ t₉ h₉ => ?_
    exact wp_access plain_mdelay h₉ fun _ t h => hend t h
  · exact hend t₈ h₈

theorem macs_set (s : NicState γ) (p : ℕ) (m : UipEthAddr) :
    (s.devs.modify p fun d => { d with macAddr := m }).map (·.macAddr) =
      (s.devs.map (·.macAddr)).set p m := by
  refine List.ext_getElem (by simp) fun i h₁ h₂ => ?_
  simp only [List.getElem_map, List.getElem_modify, List.getElem_set]
  split
  · rfl
  · rfl

/-- The address that is taken, and the device's. -/
def Base.named (b : Base) (p : ℕ) : Base :=
  { b with bcr := 0, macs := b.macs.set p (usable b.sysinfo) }

theorem wp_initChip (h : Holds b k s) : wp (held hw) bringUpContract (initChip p)
    (fun m s => m = usable b.sysinfo ∧ ∃ k', Holds (b.named p) k' s) s := by
  have hsys : ∀ t : NicState γ, bringUpContract.ok .sysinfoMac t := fun _ => ⟨False.elim, False.elim⟩
  have hset : ∀ t : NicState γ, bringUpContract.ok (.setMacAddr p (usable b.sysinfo)) t := fun _ =>
    ⟨False.elim, False.elim⟩
  refine wp_op Holds.stable (fun _ _ => trivial) (fun t _ => hsys t) (fun t ht _ => ?_) h
  have hz : ((held hw).step .sysinfoMac t).1 = b.sysinfo := congrArg Base.sysinfo ht.base
  rw [hz]
  change wp _ _ (.op (S := nicSig) (.setMacAddr p (usable b.sysinfo)) fun _ => _) _ t
  refine wp_op Holds.stable (fun _ _ => trivial) (fun t _ => hset t) (fun u hu _ => ?_) ht
  have hnamed : Holds { b with macs := b.macs.set p (usable b.sysinfo) } k
      (step hw (.setMacAddr p (usable b.sysinfo)) u).2 := by
    refine ⟨?_, hu.ctl⟩
    rw [← hu.base]
    exact congrArg (fun ms => (⟨u.board.regs essBcr, ms, u.sysinfo⟩ : Base)) (macs_set u p _)
  change wp _ _ (onNic ipq4019MdioPinmuxInit >>= _) _ _
  refine wp_bind (wp_mono (fun _ t₁ h₁ => ?_) (wp_plain plain_pinmux hnamed))
  refine wp_bind (wp_mono (fun _ t₂ h₂ => ?_) (wp_clockAndReset h₁))
  obtain ⟨k', h₂⟩ := h₂
  refine wp_bind (wp_mono (fun _ t₃ h₃ => ?_) (wp_plain plain_mdioInit h₂))
  refine wp_bind (wp_mono (fun _ t₄ h₄ => ?_) (wp_plain plain_switchInit h₃))
  exact wp_ret Holds.stable (fun _ _ => trivial) (fun _ h => ⟨rfl, k', h⟩) h₄

/-! ### The EDMA is stopped, set up and started -/

theorem rxq_ne_txq : rxqCtrl ≠ txqCtrl ∧ macCtrl0 ≠ rxqCtrl ∧ macCtrl0 ≠ txqCtrl ∧
    macCtrl1 ≠ rxqCtrl ∧ macCtrl1 ≠ txqCtrl ∧ macCtrl1 ≠ macCtrl0 := by
  decide

/-- The control registers are written with `x` and `y`. -/
def ctlSet (k : UInt32 → UInt32) (x y : UInt32) : UInt32 → UInt32 :=
  Function.update (Function.update k rxqCtrl x) txqCtrl y

theorem ctlSet_rxq (x y : UInt32) : ctlSet k x y rxqCtrl = x := by
  rw [ctlSet, Function.update_of_ne rxq_ne_txq.1, Function.update_self]

theorem ctlSet_txq (x y : UInt32) : ctlSet k x y txqCtrl = y := Function.update_self _ _ _

theorem stationAddr_ctlSet (x y : UInt32) : stationAddr (ctlSet k x y) = stationAddr k := by
  obtain ⟨-, h₀r, h₀t, h₁r, h₁t, -⟩ := rxq_ne_txq
  have h₀ : ctlSet k x y macCtrl0 = k macCtrl0 := by
    rw [ctlSet, Function.update_of_ne h₀t, Function.update_of_ne h₀r]
  have h₁ : ctlSet k x y macCtrl1 = k macCtrl1 := by
    rw [ctlSet, Function.update_of_ne h₁t, Function.update_of_ne h₁r]
  simp only [stationAddr, h₀, h₁]

/-- A change of both control registers, each by what it holds. -/
theorem wp_ctl {f g : UInt32 → UInt32} {q : Nic α} {Q : α → NicState γ → Prop} (hb : b.Released)
    (h : Holds b k s)
    (hq : ∀ t, Holds b (ctlSet k (f (k rxqCtrl)) (g (k txqCtrl))) t →
      wp (held hw) bringUpContract q Q t) :
    wp (held hw) bringUpContract (.op (S := nicSig) (.soc (.readl rxqCtrl)) fun x : UInt32 =>
      .op (S := nicSig) (.soc (.writel (f x) rxqCtrl)) fun _ =>
        .op (S := nicSig) (.soc (.readl txqCtrl)) fun y : UInt32 =>
          .op (S := nicSig) (.soc (.writel (g y) txqCtrl)) fun _ => q) Q s := by
  obtain ⟨hr, ht, -, -⟩ := mem_ctl
  refine wp_read hr hb h fun t₁ h₁ => ?_
  refine wp_write hr h₁ fun t₂ h₂ => ?_
  refine wp_read ht hb h₂ fun t₃ h₃ => ?_
  rw [Function.update_of_ne (Ne.symm rxq_ne_txq.1)]
  exact wp_write ht h₃ fun t₄ h₄ => hq t₄ h₄

theorem queuesOff_masked (k : UInt32 → UInt32) : QueuesOff (ctlSet k
    (k rxqCtrl &&& ~~~edmaRxqCtrlEn) (k txqCtrl &&& ~~~edmaTxqCtrlTxqEn)) := by
  refine ⟨?_, ?_⟩
  · rw [ctlSet_rxq, UInt32.and_assoc, UInt32.not_and_self, UInt32.and_zero]
  · rw [ctlSet_txq, UInt32.and_assoc, UInt32.not_and_self, UInt32.and_zero]

theorem and_or_self (x e : UInt32) : (x ||| e) &&& e = e := by
  apply UInt32.eq_of_toBitVec_eq
  ext i hi
  simp only [UInt32.toBitVec_and, UInt32.toBitVec_or, BitVec.getElem_and, BitVec.getElem_or]
  cases x.toBitVec[i] <;> simp

theorem queuesOn_set (k : UInt32 → UInt32) : QueuesOn (ctlSet k
    (k rxqCtrl ||| edmaRxqCtrlEn) (k txqCtrl ||| edmaTxqCtrlTxqEn)) := by
  refine ⟨?_, ?_⟩
  · rw [ctlSet_rxq, and_or_self]
  · rw [ctlSet_txq, and_or_self]

/-- What is set up is set up while the queues are off. -/
theorem off_onRing (q : AllocDrv α) : (onRing p q).Uses WhileOff :=
  uses_subst (h := fun o => call (S := nicSig) (.ring p o)) (fun _ _ => uses_call ⟨trivial, id⟩)
    (uses_true q)

theorem config_off {v a : UInt32} (ha : a ∈ edmaConfig) : WhileOff (.soc (.writel v a)) := by
  have hall : edmaConfig.all (fun a => a ∉ essBcr :: edmaCtl ∧ a ∉ essFwCtrl1 :: essLookups) =
      true := by decide
  obtain ⟨hctl, hfw⟩ := of_decide_eq_true (List.all_eq_true.mp hall a ha)
  exact ⟨hctl, not_opens hfw⟩

theorem onNic_bind {β : Type} (q : Soc α) (f : α → Soc β) :
    onNic (q >>= f) = onNic q >>= fun a => onNic (f a) :=
  subst_bind (S := socSig) (T := nicSig) (h := fun o => call (S := nicSig) (.soc o)) (f := f) q

/-- One access, while the queues are off. -/
theorem wp_offAccess {o : NicOp} (ho : WhileOff o) (hb : b.Released) (hk : QueuesOff k)
    {f : o.Res → Nic α} {Q : α → NicState γ → Prop} (h : Holds b k s)
    (hf : ∀ r t, Holds b k t → wp (held hw) bringUpContract (f r) Q t) :
    wp (held hw) bringUpContract (.op (S := nicSig) o f) Q s := by
  have hok : ∀ t : NicState γ, Holds b k t → bringUpContract.ok o t := fun _ ht =>
    ⟨fun _ => (ht.off hb).mpr hk, fun hs => absurd hs ho.2⟩
  exact wp_op Holds.stable (fun _ _ => trivial) (fun t ht => hok t ht)
    (fun t ht _ => hf _ _ (ht.calm ho.1)) h

/-- **The EDMA is configured**, and its queues stay off. -/
theorem wp_configure (hb : b.Released) (hk : QueuesOff k) (h : Holds b k s) :
    wp (held hw) bringUpContract (onNic (edmaConfigure ipq4019EdmaBase))
      (fun _ s => ∃ k', Holds b k' s ∧ QueuesOff k') s := by
  obtain ⟨hr, ht, -, -⟩ := mem_ctl
  have hidt : (onNic ((List.range edmaNumIdt).forM fun i => Chip.Access.writel edmaRssIdtValue
      (ipq4019EdmaBase + edmaRegRssIdt i))).Uses WhileOff :=
    uses_onNic (uses_forM fun i hi => uses_call (config_off (List.mem_cons_of_mem _
      (List.mem_cons_of_mem _ (List.mem_map.mpr ⟨i, hi, rfl⟩)))))
  refine wp_offAccess (config_off (by decide)) hb hk h fun _ t₁ h₁ => ?_
  change wp _ _ (onNic (((List.range edmaNumIdt).forM fun i => Chip.Access.writel edmaRssIdtValue
    (ipq4019EdmaBase + edmaRegRssIdt i)) >>= fun _ => _)) _ _
  rw [onNic_bind]
  refine wp_bind (wp_mono (fun _ t₂ h₂ => ?_) (wp_off hidt hb hk h₁))
  refine wp_offAccess (config_off (by decide)) hb hk h₂ fun _ t₃ h₃ => ?_
  refine wp_write hr h₃ fun t₄ h₄ => wp_write ht h₄ fun t₅ h₅ => ?_
  have hoff : QueuesOff (ctlSet k (edmaFifoThresh128Byte ||| edmaRxqCtrlRmvVlan)
      (edmaTpdBurst <<< edmaTxqNumTpdBurstShift ||| edmaTxqCtrlTpdBurstEn |||
        edmaTxfBurst <<< edmaTxqTxfBurstNumShift)) := by
    refine ⟨?_, ?_⟩
    · rw [ctlSet_rxq]
      decide
    · rw [ctlSet_txq]
      decide
  exact wp_ret Holds.stable (fun _ _ => trivial) (fun _ h => ⟨_, h, hoff⟩) h₅

/-- The address is written. -/
theorem wp_writeHwaddr {m : UipEthAddr} (hk : QueuesOff k) (h : Holds b k s) :
    wp (held hw) bringUpContract (onNic (ipq4019EthWriteHwaddr ipq4019EdmaBase m))
      (fun _ s => ∃ k', Holds b k' s ∧ QueuesOff k' ∧ stationAddr k' = m) s := by
  obtain ⟨-, -, hm₀, hm₁⟩ := mem_ctl
  obtain ⟨-, h₀r, h₀t, h₁r, h₁t, h₁₀⟩ := rxq_ne_txq
  refine wp_write hm₀ h fun t₁ h₁ => wp_write hm₁ h₁ fun t₂ h₂ => ?_
  refine wp_ret Holds.stable (fun _ _ => trivial) (fun _ h => ⟨_, h, ⟨?_, ?_⟩, ?_⟩) h₂
  · rw [Function.update_of_ne h₁r.symm, Function.update_of_ne h₀r.symm]
    exact hk.1
  · rw [Function.update_of_ne h₁t.symm, Function.update_of_ne h₀t.symm]
    exact hk.2
  · have hm : #v[m[0], m[1], m[2], m[3], m[4], m[5]] = m := by
      refine Vector.ext fun i hi => ?_
      rcases (by omega : i = 0 ∨ i = 1 ∨ i = 2 ∨ i = 3 ∨ i = 4 ∨ i = 5) with
        rfl | rfl | rfl | rfl | rfl | rfl
      all_goals rfl
    refine (stationAddr_written ?_ (Function.update_self _ _ _)).trans hm
    rw [Function.update_of_ne h₁₀.symm]
    exact Function.update_self _ _ _

/-- **The device is set up**, with the queues off. -/
theorem wp_initDev {m : UipEthAddr} (hb : b.Released) (h : Holds b k s) :
    wp (held hw) bringUpContract (initDev c p m)
      (fun _ s => ∃ k', Holds b k' s ∧ QueuesOff k' ∧ stationAddr k' = m) s := by
  have hstop : wp (held hw) bringUpContract (onNic (edmaStopRxTx ipq4019EdmaBase))
      (fun _ s => ∃ k', Holds b k' s ∧ QueuesOff k') s :=
    wp_ctl (f := (· &&& ~~~edmaRxqCtrlEn)) (g := (· &&& ~~~edmaTxqCtrlTxqEn)) (q := .ret ()) hb h
      fun t ht => wp_ret Holds.stable (fun _ _ => trivial)
        (fun _ h => ⟨_, h, queuesOff_masked k⟩) ht
  refine wp_bind (wp_mono (fun _ t₁ h₁ => ?_) hstop)
  obtain ⟨k₁, h₁, hk₁⟩ := h₁
  refine wp_bind (wp_mono (fun _ t₂ h₂ => ?_) (wp_configure hb hk₁ h₁))
  obtain ⟨k₂, h₂, hk₂⟩ := h₂
  refine wp_bind (wp_mono (fun _ t₃ h₃ => ?_) (wp_off (off_onRing _) hb hk₂ h₂))
  refine wp_bind (wp_mono (fun _ t₄ h₄ => ?_) (wp_plain plain_disableLookup h₃))
  exact wp_writeHwaddr hk₂ h₄

/-! ### The functions of the driver -/

theorem plain_onRing {q : AllocDrv α} (hq : q.Uses fun o => Plain (.ring p o)) :
    (onRing p q).Uses Plain :=
  uses_subst (S := allocSig) (T := nicSig) (h := fun o => call (S := nicSig) (.ring p o))
    (fun _ ho => uses_call ho) hq

theorem plain_onAlloc {q : Drv α} (hq : q.Uses fun o => Plain (.ring p (.edma o))) :
    (onRing p (onAlloc q)).Uses Plain :=
  plain_onRing (uses_subst (S := Edma.Driver.edmaSig) (T := allocSig)
    (h := fun o => call (S := allocSig) (.edma o)) (fun _ ho => uses_call ho) hq)

theorem plain_allocRings : (onRing p (edmaAllocRings c)).Uses Plain := by
  refine plain_onRing ?_
  have hbufs : ∀ n i, (allocBufs c n i).Uses fun o => Plain (.ring p o) := by
    intro n
    induction n with
    | zero =>
      intro i
      exact ⟨⟨trivial, id, id⟩, fun _ => ⟨⟨trivial, id, id⟩, fun _ => ⟨⟨trivial, id, id⟩, fun _ =>
        ⟨⟨trivial, id, id⟩, fun _ => trivial⟩⟩⟩⟩
    | succ n ih =>
      intro i
      refine ⟨⟨trivial, id, id⟩, fun (a : UInt32) => ⟨⟨trivial, id, id⟩, fun _ => ?_⟩⟩
      change (if a = 0 then .ret (-1) else allocBufs c n (i + 1) : AllocDrv Int).Uses _
      split
      · trivial
      · exact ih (i + 1)
  refine ⟨⟨trivial, id, id⟩, fun (tpd : UInt32) => ⟨⟨trivial, id, id⟩, fun _ =>
    ⟨⟨trivial, id, id⟩, fun (rfd : UInt32) => ⟨⟨trivial, id, id⟩, fun _ => ?_⟩⟩⟩⟩
  change (if tpd = 0 ∨ rfd = 0 then .ret (-1) else _ : AllocDrv Int).Uses _
  split
  · trivial
  · exact ⟨⟨trivial, id, id⟩, fun _ => ⟨⟨trivial, id, id⟩, fun _ => hbufs _ _⟩⟩

/-- A device more, with its address. -/
def Base.grown (b : Base) : Base := ⟨0, b.macs ++ [usable b.sysinfo], b.sysinfo⟩

/-- **`ipq4019_eth_init`.** -/
theorem wp_ethInit (h : Holds b k s) : wp (held hw) bringUpContract (ipq4019EthInit c)
    (fun r s => ∃ k', Holds b.grown k' s ∧
      (r = 0 → QueuesOff k' ∧ stationAddr k' = usable b.sysinfo)) s := by
  have hok : ∀ t : NicState γ, bringUpContract.ok .xzallocDev t := fun _ => ⟨False.elim, False.elim⟩
  change wp _ _ (.op (S := nicSig) .xzallocDev fun p => initChip p >>= _) _ _
  refine wp_op Holds.stable (fun _ _ => trivial) (fun t _ => hok t) (fun t ht _ => ?_) h
  have hlen : t.devs.length = b.macs.length := by
    rw [← ht.base]
    simp [base]
  have hnew : Holds { b with macs := b.macs ++ [Vector.replicate 6 0] } k (step hw .xzallocDev t).2 := by
    refine ⟨?_, ht.ctl⟩
    rw [← ht.base]
    simp [base, step, zeroedDev]
  have hgrown : Base.named { b with macs := b.macs ++ [Vector.replicate 6 0] } t.devs.length =
      b.grown := by
    rw [hlen]
    simp [Base.named, Base.grown]
  refine wp_bind (wp_mono (fun m t₁ h₁ => ?_) (wp_initChip hnew))
  obtain ⟨rfl, k₁, h₁⟩ := h₁
  have hk₁ : Holds b.grown k₁ t₁ := hgrown ▸ h₁
  refine wp_bind (wp_mono (fun (r : Int) t₂ h₂ => ?_) (wp_plain plain_allocRings hk₁))
  by_cases hr : r ≠ 0
  · rw [if_pos hr]
    exact wp_ret Holds.stable (fun _ _ => trivial)
      (fun _ h => ⟨k₁, h, fun h0 => absurd h0 (by decide)⟩) h₂
  · rw [if_neg hr]
    have hrel : b.grown.Released := UInt32.zero_and
    refine wp_bind (wp_mono (fun _ t₃ h₃ => ?_) (wp_initDev hrel h₂))
    obtain ⟨k₂, h₃, hoff, hst⟩ := h₃
    refine wp_access (o := .netAddDevice t.devs.length) ⟨trivial, id, id⟩ h₃ fun _ t₄ h₄ => ?_
    exact wp_ret Holds.stable (fun _ _ => trivial) (fun _ h => ⟨k₂, h, fun _ => ⟨hoff, hst⟩⟩) h₄

/-- **What a call of the poller does** to the registers. -/
inductive Polled (b : Base) (k : UInt32 → UInt32) : Option Int → NicState γ → Prop
  | idle {s : NicState γ} (h : Holds b k s) : Polled b k none s
  | tried {s : NicState γ} {r : Int} {k' : UInt32 → UInt32} (h : Holds b.grown k' s)
      (hr : r = 0 → QueuesOff k' ∧ stationAddr k' = usable b.sysinfo) : Polled b k (some r) s

theorem wp_netPoller (h : Holds b k s) :
    wp (held hw) bringUpContract (ipq4019NetPoller c) (fun r s => Polled b k r s) s := by
  refine wp_access (o := .getPoller) ⟨trivial, id, id⟩ h fun (x : Poller) t₁ h₁ => ?_
  change wp _ _ (if x.initted ≠ 0 ∨ x.gaveUp ≠ 0 then _ else if x.retryCount ≥ ipq4019EthInitMaxRetries
    then _ else _) _ _
  split
  · exact wp_ret Holds.stable (fun _ _ => trivial) (fun _ h => .idle h) h₁
  split
  · refine wp_access (o := .modPoller _) ⟨trivial, id, id⟩ h₁ fun _ t₂ h₂ => ?_
    exact wp_ret Holds.stable (fun _ _ => trivial) (fun _ h => .idle h) h₂
  · refine wp_access (o := .modPoller _) ⟨trivial, id, id⟩ h₁ fun _ t₂ h₂ => ?_
    change wp _ _ (ipq4019EthInit c >>= _) _ _
    refine wp_bind (wp_mono (fun (r : Int) t₃ h₃ => ?_) (wp_ethInit h₂))
    obtain ⟨k', h₃, hr⟩ := h₃
    have hend : ∀ t, Holds b.grown k' t → wp (held hw) bringUpContract (.ret (some r) : Nic (Option Int))
        (fun r s => Polled b k r s) t := fun t ht =>
      wp_ret Holds.stable (fun _ _ => trivial) (fun _ h => .tried h hr) ht
    by_cases h0 : r = 0
    · simp only [h0, if_true] at hend ⊢
      exact wp_access (o := .modPoller _) ⟨trivial, id, id⟩ h₃ fun _ t₄ h₄ => hend t₄ h₄
    · simp only [h0, if_false]
      exact hend t₃ h₃

/-- **`ipq4019_eth_start`**, with the queues off before it. -/
theorem wp_ethStart (hb : b.Released) (hk : QueuesOff k) (h : Holds b k s) :
    wp (held hw) bringUpContract (ipq4019EthStart c p)
      (fun _ s => ∃ k', Holds b k' s ∧ QueuesOn k' ∧ stationAddr k' = stationAddr k) s := by
  have hstart : ∀ t, Holds b k t → wp (held hw) bringUpContract (onNic (edmaStartRxTx ipq4019EdmaBase))
      (fun _ s => ∃ k', Holds b k' s ∧ QueuesOn k' ∧ stationAddr k' = stationAddr k) t := fun t ht =>
    wp_ctl (f := (· ||| edmaRxqCtrlEn)) (g := (· ||| edmaTxqCtrlTxqEn)) (q := .ret ()) hb ht
      fun u hu => wp_ret Holds.stable (fun _ _ => trivial)
        (fun _ h => ⟨_, h, queuesOn_set k, stationAddr_ctlSet _ _⟩) hu
  unfold ipq4019EthStart
  refine wp_bind (wp_mono (fun _ t₁ h₁ => ?_) (wp_off (off_onRing _) hb hk h))
  refine wp_bind (wp_mono (fun _ t₂ h₂ => ?_) (hstart t₁ h₁))
  obtain ⟨k', h₂, hon, hst⟩ := h₂
  refine wp_bind (wp_mono (fun _ t₃ h₃ => ?_) (wp_on on_enableLookup hb hon h₂))
  refine wp_access (o := .setStarted p 1) ⟨trivial, id, id⟩ h₃ fun _ t₄ h₄ => ?_
  exact wp_ret Holds.stable (fun _ _ => trivial) (fun _ h => ⟨k', h, hon, hst⟩) h₄

theorem flags_held {φ : Flags} : Stable (held hw) fun s => flags s = φ := by
  rintro s _ ⟨h, b, rfl, -, -⟩ hs
  exact hs

theorem started_dev (s : NicState γ) (p : ℕ) : (s.dev p).started = (flags s).started.getD p 0 := by
  simp only [flags, NicState.dev, List.getD_eq_getElem?_getD, List.getElem?_map]
  cases s.devs[p]? with
  | none => rfl
  | some d => rfl

theorem macAddr_dev (s : NicState γ) (p : ℕ) :
    (s.dev p).macAddr = (base s).macs.getD p (Vector.replicate 6 0) := by
  simp only [base, NicState.dev, List.getD_eq_getElem?_getD, List.getElem?_map]
  cases s.devs[p]? with
  | none => rfl
  | some d => rfl

theorem plain_checkLink {start : Option Int} : (checkLink start).Uses Plain := by
  have hbus : ∀ q : Bus Int, (onSoc q).Uses fun o => Plain (.soc o) := fun q =>
    uses_subst (h := fun o => call (S := socSig) (.bus o))
      (fun _ _ => uses_call ⟨trivial, id, id⟩) (uses_true q)
  exact uses_bind (uses_onNic (hbus _)) fun _ => trivial

/-- **A call of `ipq4019_phy_check_link`**: it starts the device if that is not done. -/
theorem wp_phyCheckLink {φ : Flags} (hb : b.Released) (hφ : flags s = φ)
    (hk : φ.started.getD p 0 = 0 → QueuesOff k) (h : Holds b k s) :
    wp (held hw) bringUpContract (ipq4019PhyCheckLink c p) (fun _ s => ∃ k', Holds b k' s ∧
      stationAddr k' = stationAddr k ∧ (φ.started.getD p 0 = 0 → QueuesOn k') ∧
        (φ.started.getD p 0 ≠ 0 → k' = k)) s := by
  have hok : ∀ t : NicState γ, bringUpContract.ok (.getStarted p) t := fun _ =>
    ⟨False.elim, False.elim⟩
  refine wp_op (Holds.stable.and flags_held) (fun _ _ => trivial) (fun t _ => hok t)
    (fun t ht _ => ?_) (⟨h, hφ⟩ : Holds b k s ∧ flags s = φ)
  obtain ⟨ht, hφt⟩ := ht
  have hstarted := started_dev t p
  rw [hφt] at hstarted
  change wp _ _ (if (t.dev p).started = 0 then ipq4019EthStart c p >>= fun r => checkLink (some r)
    else checkLink none) _ t
  rw [hstarted]
  by_cases h0 : φ.started.getD p 0 = 0
  · rw [if_pos h0]
    refine wp_bind (wp_mono (fun _ t₁ h₁ => ?_) (wp_ethStart hb (hk h0) ht))
    obtain ⟨k', h₁, hon, hst⟩ := h₁
    exact wp_mono (fun _ u hu => ⟨k', hu, hst, fun _ => hon, fun hn => absurd h0 hn⟩)
      (wp_plain plain_checkLink h₁)
  · rw [if_neg h0]
    exact wp_mono (fun _ u hu => ⟨k, hu, rfl, fun hn => absurd hn h0, fun _ => rfl⟩)
      (wp_plain plain_checkLink ht)

/-- Sends and receptions have nothing to do with it. -/
theorem plain_send {packet : UInt32} {length : UInt16} :
    (onRing p (onAlloc (ipq4019EthSend c packet length))).Uses Plain := by
  refine plain_onAlloc ?_
  have hfill : ∀ o, Edma.Send.FillOp o → Plain (.ring p (.edma o)) := by
    intro o ho
    cases o <;> first | exact ho.elim | exact ⟨trivial, id, id⟩
  have hdone : ∀ o, Edma.Send.DoneOp o → Plain (.ring p (.edma o)) := by
    intro o ho
    cases o with
    | writel v r =>
      cases r with
      | txSwConsIdxQ => exact ⟨trivial, by simp [Setup], id⟩
      | _ => exact ho.elim
    | _ => first | exact ho.elim | exact ⟨trivial, id, id⟩
  unfold ipq4019EthSend
  split
  · trivial
  · refine uses_bind (uses_mono hfill Edma.Send.uses_txFill) fun _ => ?_
    exact ⟨⟨trivial, id, id⟩, fun _ => ⟨⟨trivial, by simp [Setup], id⟩, fun _ =>
      uses_mono hdone Edma.Send.uses_txComplete⟩⟩

theorem plain_recv {m : Int} : (onRing p (onAlloc (ipq4019EthRecv m))).Uses Plain := by
  refine plain_onAlloc ?_
  have hrecycle : Edma.Driver.recycle.Uses fun o => Plain (.ring p (.edma o)) :=
    ⟨⟨trivial, id, id⟩, fun _ => ⟨⟨trivial, by simp [Setup], id⟩, fun _ => ⟨⟨trivial, id, id⟩, fun _ =>
      ⟨⟨trivial, id, id⟩, fun _ => ⟨⟨trivial, id, id⟩, fun _ => ⟨⟨trivial, by simp [Setup], id⟩,
        fun _ => trivial⟩⟩⟩⟩⟩⟩
  have hcopy : ∀ pkt, (Edma.Driver.rxCopy m pkt).Uses fun o => Plain (.ring p (.edma o)) := by
    refine fun pkt => ⟨⟨trivial, id, id⟩, fun _ => ⟨⟨trivial, id, id⟩, fun bytes => ?_⟩⟩
    change (Edma.Driver.recycle >>= fun _ => _ : Drv Edma.Driver.RecvOut).Uses _
    exact uses_bind hrecycle fun _ => trivial
  refine ⟨⟨trivial, id, id⟩, fun (v : UInt32) => ⟨⟨trivial, id, id⟩,
    fun (d : Edma.Driver.IpqEdmaDev) => ?_⟩⟩
  change (if ((v >>> Edma.Driver.edmaRfdConsIdxShift) &&& Edma.Driver.edmaRfdConsIdxMask : UInt32).toNat
    = d.rfdTail.toNat then .ret ⟨0, 0, []⟩ else Edma.Driver.rxTake m d.rfdTail :
      Drv Edma.Driver.RecvOut).Uses _
  split
  · trivial
  · refine ⟨⟨trivial, id, id⟩, fun pkt => ⟨⟨trivial, id, id⟩, fun _ => ⟨⟨trivial, id, id⟩,
      fun (rrd7 : UInt16) => ?_⟩⟩⟩
    change (if rrd7 &&& Edma.Driver.edmaRrd7DescValid = 0 then .ret ⟨0, 0, []⟩
      else Edma.Driver.rxCopy m pkt : Drv Edma.Driver.RecvOut).Uses _
    split
    · trivial
    · exact hcopy pkt

/-! ### Runs -/

/-- **While a device is registered.** -/
structure Up (z : UipEthAddr) (s : NicState γ) : Prop where
  released : (base s).Released
  station : stationAddr s.board.regs = usable z
  dev : ∀ p ∈ s.netDevices, (s.dev p).macAddr = usable z ∧
    ((s.dev p).started = 0 → QueuesOff s.board.regs) ∧
      ((s.dev p).started ≠ 0 → QueuesOn s.board.regs)

/-- **Between two calls.** -/
structure Good (z : UipEthAddr) (s : NicState γ) : Prop where
  sysinfo : s.sysinfo = z
  flags : Life.Inv (flags s)
  up : s.netDevices ≠ [] → Up z s

variable {z : UipEthAddr} {φ : Flags}

theorem Holds.self (s : NicState γ) : Holds (BringUp.base s) s.board.regs s := ⟨rfl, fun _ _ _ => rfl⟩

/-- The state is up as the registers `k` and the flags say. -/
theorem Up.of_holds (h : Holds b k s) (hφ : Life.flags s = φ) (hb : b.Released)
    (hst : stationAddr k = usable z) (hdev : ∀ p ∈ φ.netDevices,
      b.macs.getD p (Vector.replicate 6 0) = usable z ∧ (φ.started.getD p 0 = 0 → QueuesOff k) ∧
        (φ.started.getD p 0 ≠ 0 → QueuesOn k)) : Up z s := by
  refine ⟨h.base ▸ hb, (h.stationAddr hb).trans hst, fun p hp => ?_⟩
  rw [started_dev, macAddr_dev, h.base, hφ, h.off hb, h.on hb]
  refine hdev p ?_
  rw [← hφ]
  exact hp

/-- What is up stays up, if the registers and the flags stay. -/
theorem Up.keep (h : Up z s) (hs : Holds (base s) s.board.regs s')
    (hn : (Life.flags s').netDevices = (Life.flags s).netDevices)
    (hf : (Life.flags s').started = (Life.flags s).started) : Up z s' := by
  refine Up.of_holds hs rfl h.released h.station fun p hp => ?_
  rw [hn] at hp
  rw [hf, ← started_dev, ← macAddr_dev]
  exact h.dev p hp

theorem Good.stable : Stable (held hw) (Good z) := by
  intro s s' hs h
  have hholds := Holds.stable s s' hs (Holds.self s)
  have hflags : Life.flags s' = Life.flags s := flags_held s s' hs rfl
  refine ⟨?_, hflags ▸ h.flags, fun hne => ?_⟩
  · have hsys : (base s').sysinfo = s.sysinfo := congrArg Base.sysinfo hholds.base
    exact hsys.trans h.sysinfo
  · have hdev : s'.netDevices = s.netDevices := congrArg Flags.netDevices hflags
    rw [hdev] at hne
    exact (h.up hne).keep hholds (by rw [hflags]) (by rw [hflags])

/-- A run beside this hardware is one beside any hardware. -/
theorem run_nic {q q' : Nic α} (h : Run (held hw) s q l s' q') : Run (nic hw) s q l s' q' :=
  Run.mono (M := held hw) (N := nic hw) rfl (by
    rintro s _ ⟨h, b, rfl, -, -⟩
    exact ⟨h, b, rfl⟩) h

theorem ok_of_wp {q : Nic α} {Q : α → NicState γ → Prop} {a : α}
    (h : wp (held hw) bringUpContract q Q s) (hr : Run (held hw) s q l s' (.ret a)) :
    (∀ y ∈ l, bringUpContract.ok y.1 y.2) ∧ Q a s' :=
  ⟨ok_run h hr fun _ _ => trivial, wp_run_ret h hr fun _ _ => trivial⟩

/-- What the poller leaves is as before, or a device more. -/
theorem good_poll {out : Option Int} (h : Good z s) (hpolls : Polls (flags s) out (flags s'))
    (hpost : Polled (base s) s.board.regs out s') : s'.sysinfo = z ∧ (s'.netDevices ≠ [] → Up z s') := by
  have hclosed : ¬((flags s).poller.initted ≠ 0 ∨ (flags s).poller.gaveUp ≠ 0) →
      s.netDevices = [] := fun hn => h.flags.none (by
    by_contra h0
    exact hn (Or.inl h0))
  cases hpost with
  | idle hs =>
    have hsame : (flags s').netDevices = (flags s).netDevices ∧
        (flags s').started = (flags s).started := by
      generalize flags s' = φ at hpolls
      cases hpolls with
      | idle hn => exact ⟨rfl, rfl⟩
      | giveUp hn hr => exact ⟨rfl, rfl⟩
    refine ⟨(congrArg Base.sysinfo hs.base).trans h.sysinfo, fun hne => ?_⟩
    have hdev : s'.netDevices = s.netDevices := hsame.1
    rw [hdev] at hne
    exact (h.up hne).keep hs hsame.1 hsame.2
  | @tried r _ k' hs hup =>
    refine ⟨(congrArg Base.sysinfo hs.base).trans h.sysinfo, fun hne => ?_⟩
    generalize hφ : flags s' = φ at hpolls
    have hne' : φ.netDevices ≠ [] := by
      rw [← hφ]
      exact hne
    cases hpolls with
    | fail hn hr h0 => exact absurd (hclosed hn) hne'
    | succeed hn hr =>
      obtain ⟨hoff, hst⟩ := hup rfl
      have hz : usable (base s).sysinfo = usable z := by
        rw [← h.sysinfo]
        rfl
      refine Up.of_holds hs hφ UInt32.zero_and (hst.trans hz) fun p hp => ?_
      have hnil : (flags s).netDevices = [] := hclosed hn
      simp only [Flags.add, Flags.alloc, hnil, List.nil_append, List.mem_singleton] at hp
      have hlen : (base s).macs.length = (flags s).started.length := by simp [base, flags]
      subst hp
      refine ⟨?_, fun _ => hoff, fun hstarted => absurd ?_ hstarted⟩
      · rw [← hlen]
        simpa [Base.grown] using hz
      · simp [Flags.add, Flags.alloc]

/-- What a call of `ready` on the device leaves. -/
theorem good_ready {out : ReadyOut} {rec : NicRec γ} (h : Good z s) (hp : p ∈ s.netDevices)
    (hready : Readies (flags s) p rec out) (hafter : rec.after = s')
    (hpost : ∃ k', Holds (base s) k' s' ∧ stationAddr k' = stationAddr s.board.regs ∧
      ((flags s).started.getD p 0 = 0 → QueuesOn k') ∧
        ((flags s).started.getD p 0 ≠ 0 → k' = s.board.regs)) :
    s'.sysinfo = z ∧ Up z s' := by
  obtain ⟨k', hs, hst, hon, hkeep⟩ := hpost
  have hup := h.up (List.ne_nil_of_mem hp)
  have hone : ∀ q ∈ s.netDevices, q = p := by
    have hle : s.netDevices.length ≤ 1 := h.flags.length
    intro q hq
    obtain ⟨x, hx⟩ := List.length_eq_one_iff.mp (le_antisymm hle (List.length_pos_of_mem hp))
    rw [hx, List.mem_singleton] at hp hq
    rw [hp, hq]
  have hflags := hready.flags
  rw [hafter] at hflags
  refine ⟨(congrArg Base.sysinfo hs.base).trans h.sysinfo, ?_⟩
  have hlt := h.flags.lt p hp
  have hdev := hup.dev p hp
  rw [macAddr_dev, started_dev] at hdev
  by_cases h0 : (flags s).started.getD p 0 = 0
  · rw [if_pos h0] at hflags
    refine Up.of_holds hs hflags hup.released (hst.trans hup.station) fun q hq => ?_
    obtain rfl := hone q hq
    refine ⟨hdev.1, fun hz => ?_, fun _ => hon h0⟩
    simp [Flags.start, List.getD_eq_getElem?_getD, hlt] at hz
  · rw [if_neg h0] at hflags
    refine Up.of_holds hs hflags hup.released (hst.trans hup.station) fun q hq => ?_
    obtain rfl := hone q hq
    rw [hkeep h0]
    exact hdev

/-- **A call.** -/
theorem good_call {x : NicCall} {out : x.Out} (h : Good z s) (hreg : OnRegistered ⟨x, s, l, out, s'⟩)
    (hr : Run (held hw) s (x.prog c) l s' (.ret out)) :
    (∀ y ∈ l, bringUpContract.ok y.1 y.2) ∧ Good z s' := by
  have hdoes := does_run (run_nic hr)
  have hflags : Life.Inv (flags s') := h.flags.call hdoes
  have hquiet : ∀ {α : Type} {q : Nic α} {a : α}, q.Uses Plain → Run (held hw) s q l s' (.ret a) →
      flags s' = flags s → (∀ y ∈ l, bringUpContract.ok y.1 y.2) ∧ Good z s' := by
    intro α q a hq hr hf
    obtain ⟨hok, hs⟩ := ok_of_wp (wp_plain hq (Holds.self s)) hr
    refine ⟨hok, (congrArg Base.sysinfo hs.base).trans h.sysinfo, hflags, fun hne => ?_⟩
    have hdev : s'.netDevices = s.netDevices := congrArg Flags.netDevices hf
    rw [hdev] at hne
    exact (h.up hne).keep hs (by rw [hf]) (by rw [hf])
  cases x with
  | poll =>
    obtain ⟨hok, hpost⟩ := ok_of_wp (wp_netPoller (Holds.self s)) hr
    obtain ⟨hsys, hup⟩ := good_poll h hdoes hpost
    exact ⟨hok, hsys, hflags, hup⟩
  | ready p =>
    have hp : p ∈ s.netDevices := hreg
    have hup := h.up (List.ne_nil_of_mem hp)
    have hoff : (flags s).started.getD p 0 = 0 → QueuesOff s.board.regs := fun h0 =>
      (hup.dev p hp).2.1 ((started_dev s p).trans h0)
    obtain ⟨hok, hpost⟩ := ok_of_wp (wp_phyCheckLink hup.released rfl hoff (Holds.self s)) hr
    obtain ⟨hsys, hup'⟩ := good_ready h hp hdoes rfl hpost
    exact ⟨hok, hsys, hflags, fun _ => hup'⟩
  | send p packet length => exact hquiet plain_send hr hdoes
  | recv p m => exact hquiet plain_recv hr hdoes

theorem Good.fresh (h : Fresh s) : Good s.sysinfo s :=
  ⟨rfl, h.inv, fun hne => absurd h.netDevices hne⟩

/-- **Bring-up**, in every run of calls from the start of the payload, whatever becomes of the attempts
to bring the device up, and whatever happens to the rest of the hardware. -/
theorem bring_up (hw : (o : AllocOp) → γ → o.Res × γ) (c : Platform) (s s' : NicState γ)
    (cs : List (NicRec γ)) (h : CallRun (held hw) (NicCall.prog c) s cs s') (hs : Fresh s)
    (hreg : ∀ x ∈ cs, OnRegistered x) : BroughtUp s.sysinfo cs := by
  have hcall : ∀ (i : Unit) t x l out t', Good s.sysinfo t →
      Run (held hw) t (NicCall.prog c x) l t' (.ret out) → OnRegistered ⟨x, t, l, out, t'⟩ →
      ((∀ y ∈ l, bringUpContract.ok y.1 y.2) ∧ Good s.sysinfo t') ∧ ∃ i' : Unit, Good s.sysinfo t' := by
    intro _ t x l out t' ht hr hx
    have hgood := good_call ht hx hr
    exact ⟨hgood, (), hgood.2⟩
  have hall := (CallRun.forall (i := ()) (A := fun _ t => Good s.sysinfo t)
    (P := fun x => (∀ y ∈ x.hist, bringUpContract.ok y.1 y.2) ∧ Good s.sysinfo x.after)
    (fun _ => Good.stable) hcall h hreg (Good.fresh hs)).1
  refine ⟨fun x hx y hy => ((hall x hx).1 y hy).1, fun x hx y hy => ((hall x hx).1 y hy).2,
    fun x hx p hp => ?_, fun x hx p hp => ?_⟩
  · have hup := (hall x hx).2.up (List.ne_nil_of_mem hp)
    exact ⟨(hup.dev p hp).1, hup.station⟩
  · have hup := (hall x hx).2.up (List.ne_nil_of_mem hp)
    exact (hup.dev p hp).2

/-- The poller, and a call to see whether the device is ready. -/
def pollReady : List (NicRec UInt32) :=
  let x := still (held blocks) (NicCall.prog .flat) .poll startOfPayload
  [x, still (held blocks) (NicCall.prog .flat) (.ready 0) x.after]

theorem pollReady_before : (pollReady.map fun x => x.before.netDevices) = [[], [0]] := by
  decide +kernel

theorem bring_up_ready : BroughtUp (Vector.replicate 6 0) pollReady := by
  have hrun : CallRun (held blocks) (NicCall.prog .flat) startOfPayload pollReady _ :=
    (CallRun.still NicCall.poll _).trans (CallRun.still (NicCall.ready 0) _)
  refine bring_up blocks .flat startOfPayload _ pollReady hrun ⟨rfl, rfl, rfl⟩ ?_
  have hbefore := pollReady_before
  simp only [pollReady, List.map_cons, List.map_nil, List.cons.injEq, and_true] at hbefore
  obtain ⟨-, hy⟩ := hbefore
  refine List.forall_mem_cons.mpr ⟨trivial, List.forall_mem_cons.mpr ⟨?_, by simp⟩⟩
  show 0 ∈ (still _ _ _ _ : NicRec UInt32).before.netDevices
  rw [hy]
  simp

end Ipq4019.Eth.BringUp
