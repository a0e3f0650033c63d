import Ipq4019.Lib.Calls
import Ipq4019.Mdio.Line

/-!
# MDIO: the helpers implement a register file

As long as the controller completes every transaction, the calls do on the PHYs what reads and
writes do on a memory whose keys are the clause-22 registers and the MMD registers.  The function,
device and address that earlier accesses left in a PHY do not matter, since each access through 0x0e
selects anew.

* `exec_refines`: one call, on the PHYs and on the memory.
* `regfile`: the runs of calls on the wire.
-/

namespace Ipq4019.Mdio.RegFile

open Ipq4019.Lib Ipq4019.Lib.Interleave Ipq4019.Lib.Interleave.Prog
open Ipq4019.Mdio.Driver Ipq4019.Mdio.Controller Ipq4019.Mdio.Call Ipq4019.Mdio.Bank
open Ipq4019.Mdio.Line

/-! ### The calls -/

/-- A call of one of the four functions. -/
inductive PhyCall
  | mdioRead (phy reg : UInt8) (val : UInt16)
  | mdioWrite (phy reg : UInt8) (val : UInt16)
  | readMmd (phy devad : UInt8) (reg : UInt16)
  | writeMmd (phy devad : UInt8) (reg val : UInt16)

def PhyCall.Res : PhyCall → Type
  | .mdioRead _ _ _ => Int × UInt16
  | .mdioWrite _ _ _ => Int
  | .readMmd _ _ _ => UInt16
  | .writeMmd _ _ _ _ => Unit

def PhyCall.prog : (c : PhyCall) → Bus c.Res
  | .mdioRead phy reg val => Driver.mdioRead phy reg val
  | .mdioWrite phy reg val => Driver.mdioWrite phy reg val
  | .readMmd phy devad reg => ipq4019PhyReadMmd phy devad reg
  | .writeMmd phy devad reg val => ipq4019PhyWriteMmd phy devad reg val

/-! ### The memory -/

/-- A register: clause 22, or MMD. -/
inductive Key
  | c22 (phy reg : UInt8)
  | mmd (phy devad : UInt8) (reg : UInt16)
  deriving DecidableEq

/-- The keys that name a register of their own: addresses have five bits, and 0x0d and 0x0e serve
the indirect access. -/
def Key.Valid : Key → Prop
  | .c22 phy reg => phy.toNat < 32 ∧ reg.toNat < 32 ∧ reg ≠ miiMmdCtrl ∧ reg ≠ miiMmdData
  | .mmd phy devad _ => phy.toNat < 32 ∧ devad.toNat < 32

/-- The key of a call. -/
def PhyCall.key : PhyCall → Key
  | .mdioRead phy reg _ => .c22 phy reg
  | .mdioWrite phy reg _ => .c22 phy reg
  | .readMmd phy devad reg => .mmd phy devad reg
  | .writeMmd phy devad reg _ => .mmd phy devad reg

abbrev Memory := Key → UInt16

/-- **What a call does on the memory.** -/
def PhyCall.onMemory : (c : PhyCall) → Memory → c.Res × Memory
  | .mdioRead phy reg _, m => (((0, m (.c22 phy reg)) : Int × UInt16), m)
  | .mdioWrite phy reg val, m => ((0 : Int), Function.update m (.c22 phy reg) val)
  | .readMmd phy devad reg, m => (m (.mmd phy devad reg), m)
  | .writeMmd phy devad reg val, m => ((), Function.update m (.mmd phy devad reg) val)

/-- What the PHYs hold under a key. -/
def memoryOf (b : Phys) : Memory
  | .c22 phy reg => (b (low5 phy)).reg (low5 reg)
  | .mmd phy devad reg => (b (low5 phy)).mmd (low5 devad) reg

/-- The memory is that of the PHYs. -/
def Sim (m : Memory) (b : Phys) : Prop := ∀ k, k.Valid → memoryOf b k = m k

theorem update_congr {m m' : Memory} (h : ∀ k, k.Valid → m k = m' k) {k₀ k : Key} {v : UInt16}
    (hk : k.Valid) : Function.update m k₀ v k = Function.update m' k₀ v k := by
  by_cases he : k = k₀
  · simp [he]
  · simp [he, h k hk]

/-! ### One call -/

variable {phy reg devad : UInt8} {b : Phys} {m : Memory}

theorem low5_inj {x y : UInt8} (hx : x.toNat < 32) (hy : y.toNat < 32) :
    low5 x = low5 y ↔ x = y := by
  refine ⟨fun h => UInt8.toNat_inj.mp ?_, fun h => by rw [h]⟩
  have hv : x.toNat % 32 = y.toNat % 32 := congrArg Fin.val h
  omega

/-- A PHY whose data and clause-22 registers are as before holds the same. -/
theorem memoryOf_update {i : Fin 32} {p : Phy} (hm : p.mmd = (b i).mmd) (hr : p.reg = (b i).reg) :
    memoryOf (Function.update b i p) = memoryOf b := by
  funext k
  cases k with
  | c22 phy reg =>
    by_cases h : low5 phy = i
    · simp [memoryOf, h, hr]
    · simp [memoryOf, h]
  | mmd phy devad reg =>
    by_cases h : low5 phy = i
    · simp [memoryOf, h, hm]
    · simp [memoryOf, h]

theorem exec_mdioWrite (phy reg : UInt8) (val : UInt16) (b : Phys) :
    exec prompt (mdioWrite phy reg val) b = ((0 : Int), Function.update b (low5 phy)
      ((b (low5 phy)).write (low5 reg) val)) := by
  change outcome .ok (.write phy reg val) b = _
  unfold outcome
  rw [perform_write]
  rfl

theorem exec_mdioRead (phy reg : UInt8) (val : UInt16) (b : Phys) :
    exec prompt (mdioRead phy reg val) b = (((0, ((b (low5 phy)).read (low5 reg)).1) : Int × UInt16),
      Function.update b (low5 phy) ((b (low5 phy)).read (low5 reg)).2) := by
  change outcome .ok (.read phy reg val) b = _
  unfold outcome
  rw [perform_read, succeeded_read]
  rfl

theorem exec_writeMmd (phy devad : UInt8) (reg val : UInt16) (b : Phys) :
    exec prompt (ipq4019PhyWriteMmd phy devad reg val) b = ((), Function.update b (low5 phy)
      (((b (low5 phy)).select devad reg).setMmd (low5 devad) reg val)) := by
  unfold ipq4019PhyWriteMmd
  simp only [exec_bind, exec_mdioWrite, Function.update_self, Function.update_idem, select_eq]
  rw [write_data, storeData_select]
  rfl

theorem exec_readMmd (phy devad : UInt8) (reg : UInt16) (b : Phys) :
    exec prompt (ipq4019PhyReadMmd phy devad reg) b = ((b (low5 phy)).mmd (low5 devad) reg,
      Function.update b (low5 phy) ((b (low5 phy)).select devad reg)) := by
  unfold ipq4019PhyReadMmd
  simp only [exec_bind, exec_mdioWrite, exec_mdioRead, Function.update_self, Function.update_idem,
    select_eq]
  rw [read_data, loadData_select]
  rfl

/-- A clause-22 register of its own is not 0x0d or 0x0e on the wire either. -/
theorem low5_ne {reg x : UInt8} (h : reg.toNat < 32) (hx : x.toNat < 32) (hne : reg ≠ x) :
    low5 reg ≠ low5 x := fun he => hne ((low5_inj h hx).mp he)

theorem write_plain {p : Phy} {v : UInt16} (h : (Key.c22 phy reg).Valid) :
    p.write (low5 reg) v = { p with reg := Function.update p.reg (low5 reg) v } := by
  obtain ⟨-, hr, hc, hd⟩ := h
  have hc' : low5 reg ≠ 0x0d := low5_ne (x := miiMmdCtrl) hr (by decide) hc
  have hd' : low5 reg ≠ 0x0e := low5_ne (x := miiMmdData) hr (by decide) hd
  simp only [Phy.write, hc', hd', if_false]

theorem read_plain {p : Phy} (h : (Key.c22 phy reg).Valid) :
    p.read (low5 reg) = (p.reg (low5 reg), p) := by
  obtain ⟨-, hr, hc, hd⟩ := h
  have hc' : low5 reg ≠ 0x0d := low5_ne (x := miiMmdCtrl) hr (by decide) hc
  have hd' : low5 reg ≠ 0x0e := low5_ne (x := miiMmdData) hr (by decide) hd
  simp only [Phy.read, hc', hd', if_false]

/-- The clause-22 register of a valid key takes a word, and no other key changes. -/
theorem memoryOf_c22 {k : Key} {v : UInt16} (h : (Key.c22 phy reg).Valid) (hk : k.Valid) :
    memoryOf (Function.update b (low5 phy) ((b (low5 phy)).write (low5 reg) v)) k =
      Function.update (memoryOf b) (.c22 phy reg) v k := by
  rw [write_plain h]
  cases k with
  | c22 phy' reg' =>
    by_cases hp : phy' = phy
    · subst hp
      by_cases hr : reg' = reg
      · subst hr
        simp [memoryOf]
      · have hne : low5 reg' ≠ low5 reg := low5_ne hk.2.1 h.2.1 hr
        simp [memoryOf, hr, hne]
    · have hne : low5 phy' ≠ low5 phy := low5_ne hk.1 h.1 hp
      simp [memoryOf, hp, hne]
  | mmd phy' devad' reg' =>
    by_cases hp : low5 phy' = low5 phy
    · simp [memoryOf, hp]
    · simp [memoryOf, hp]

/-- The MMD register of a valid key takes a word, and no other key changes. -/
theorem memoryOf_mmd {k : Key} {r v : UInt16} {p : Phy} (h : (Key.mmd phy devad r).Valid)
    (hk : k.Valid) (hm : p.mmd = (b (low5 phy)).mmd) (hr : p.reg = (b (low5 phy)).reg) :
    memoryOf (Function.update b (low5 phy) (p.setMmd (low5 devad) r v)) k =
      Function.update (memoryOf b) (.mmd phy devad r) v k := by
  cases k with
  | c22 phy' reg' =>
    by_cases hp : low5 phy' = low5 phy
    · simp [memoryOf, Phy.setMmd, hp, hr]
    · simp [memoryOf, hp]
  | mmd phy' devad' r' =>
    by_cases hp : phy' = phy
    · subst hp
      by_cases hd : devad' = devad
      · subst hd
        by_cases he : r' = r
        · subst he
          simp [memoryOf, Phy.setMmd]
        · simp [memoryOf, Phy.setMmd, he, hm]
      · have hne : low5 devad' ≠ low5 devad := low5_ne hk.2 h.2 hd
        simp [memoryOf, Phy.setMmd, hd, hne, hm]
    · have hne : low5 phy' ≠ low5 phy := low5_ne hk.1 h.1 hp
      simp [memoryOf, hp, hne]

/-- **One call** does on the PHYs what it does on the memory. -/
theorem exec_refines (c : PhyCall) (hc : c.key.Valid) (h : Sim m b) :
    (exec prompt c.prog b).1 = (c.onMemory m).1 ∧
      Sim (c.onMemory m).2 (exec prompt c.prog b).2 := by
  cases c with
  | mdioRead phy reg val =>
    change (exec prompt (Driver.mdioRead phy reg val) b).1 = _ ∧
      Sim _ (exec prompt (Driver.mdioRead phy reg val) b).2
    rw [exec_mdioRead, read_plain hc, Function.update_eq_self]
    exact ⟨congrArg (Prod.mk (0 : Int)) (h _ hc), h⟩
  | mdioWrite phy reg val =>
    change (exec prompt (Driver.mdioWrite phy reg val) b).1 = _ ∧
      Sim _ (exec prompt (Driver.mdioWrite phy reg val) b).2
    rw [exec_mdioWrite]
    refine ⟨rfl, fun k hk => ?_⟩
    rw [memoryOf_c22 hc hk]
    exact update_congr h hk
  | readMmd phy devad reg =>
    change (exec prompt (ipq4019PhyReadMmd phy devad reg) b).1 = _ ∧
      Sim _ (exec prompt (ipq4019PhyReadMmd phy devad reg) b).2
    rw [exec_readMmd]
    refine ⟨h _ hc, fun k hk => ?_⟩
    rw [memoryOf_update (p := (b (low5 phy)).select devad reg) rfl rfl]
    exact h k hk
  | writeMmd phy devad reg val =>
    change (exec prompt (ipq4019PhyWriteMmd phy devad reg val) b).1 = _ ∧
      Sim _ (exec prompt (ipq4019PhyWriteMmd phy devad reg val) b).2
    rw [exec_writeMmd]
    refine ⟨rfl, fun k hk => ?_⟩
    change memoryOf (Function.update b (low5 phy) _) k = _
    rw [memoryOf_mmd (p := (b (low5 phy)).select devad reg) hc hk rfl rfl]
    exact update_congr h hk

/-! ### The runs of calls -/

/-- A call on the wire that was made. -/
abbrev CallRec := Calls.CallRec mdioSig (Ctl Phys) PhyCall.Res

/-- **The results are those of the memory**, each call's after the ones before it. -/
def Matches (m : Memory) : List CallRec → Prop
  | [] => True
  | x :: cs => x.out = (x.call.onMemory m).1 ∧ Matches (x.call.onMemory m).2 cs

/-- The memory after the calls. -/
def afterCalls (m : Memory) (cs : List CallRec) : Memory :=
  cs.foldl (fun m x => (x.call.onMemory m).2) m

/-- The call is on a register of its own, and the controller completes its transactions. -/
def Completes (x : CallRec) : Prop := x.call.key.Valid ∧ InTime x.hist

theorem regfile_from {s s' : Ctl Phys} {cs : List CallRec}
    (h : Calls.CallRun (mdio onPhys) (fun c : PhyCall => onWire c.prog) s cs s')
    (h0 : s.inflight = none) (hm : Sim m s.bus) (hcs : ∀ x ∈ cs, Completes x) :
    Matches m cs ∧ Sim (afterCalls m cs) s'.bus := by
  induction h generalizing m with
  | nil s => exact ⟨trivial, hm⟩
  | env he _ ih =>
    obtain ⟨hf, -⟩ := he
    rw [h0] at hf
    cases hf
  | @call s s₁ s₂ c l out cs hr _ ih =>
    obtain ⟨⟨hc, hl⟩, hrest⟩ := List.forall_mem_cons.mp hcs
    obtain ⟨hexec, h1⟩ := wire_run_prompt hr h0 (onWire_inTime hr h0 hl)
    obtain ⟨hout, hsim⟩ := exec_refines c hc hm
    rw [← hexec] at hout hsim
    obtain ⟨hmatch, hend⟩ := ih h1 hsim hrest
    exact ⟨⟨hout, hmatch⟩, hend⟩

/-- There is such a run, of every sequence of calls. -/
theorem exists_completes : ∀ (calls : List PhyCall) {s : Ctl Phys}, s.inflight = none →
    (∀ c ∈ calls, c.key.Valid) → ∃ cs s',
      Calls.CallRun (mdio onPhys) (fun c : PhyCall => onWire c.prog) s cs s' ∧
        cs.map (·.call) = calls ∧ ∀ x ∈ cs, Completes x
  | [], s, _, _ => ⟨[], s, .nil s, rfl, by simp⟩
  | c :: calls, s, h0, hc => by
    obtain ⟨hvalid, hrest⟩ := List.forall_mem_cons.mp hc
    obtain ⟨a, s₁, l, hr, hl, h1⟩ := prompt_onWire c.prog h0
    obtain ⟨cs, s', hcs, hmap, hall⟩ := exists_completes calls h1 hrest
    refine ⟨⟨c, s, l, a, s₁⟩ :: cs, s', .call hr hcs, ?_, ?_⟩
    · rw [List.map_cons, hmap]
    · exact List.forall_mem_cons.mpr ⟨⟨hvalid, inTime_of_idle hl⟩, hall⟩

/-- **The helpers implement a register file.**  From any state of the PHYs, and beside a controller
that takes any time below 100 ms for each transaction, every read returns what was written to its key
last, or what the PHYs held there at the start, and the PHYs hold the rest as it was. -/
theorem regfile (reg : MdioReg → UInt32) (b : Phys) (cs : List CallRec) (s : Ctl Phys)
    (h : Calls.CallRun (mdio onPhys) (fun c : PhyCall => onWire c.prog) (Ctl.boot reg b none) cs s)
    (hcs : ∀ x ∈ cs, Completes x) :
    Matches (memoryOf b) cs ∧ Sim (afterCalls (memoryOf b) cs) s.bus :=
  regfile_from h rfl (fun _ _ => rfl) hcs

/-- A selection left over from elsewhere, then a write and a read back. -/
theorem regfile_write_read : ∃ cs, ∃ s : Ctl Phys,
    Calls.CallRun (mdio onPhys) (fun c : PhyCall => onWire c.prog)
      (Ctl.boot (fun _ => 0) (fun _ => ⟨0x4007, fun _ => 7, fun _ _ => 0, fun _ => 0⟩) none) cs s ∧
      cs.map (·.call) = [.writeMmd 4 3 0x8029 0x1234, .readMmd 4 3 0x8029] ∧
      (∀ x ∈ cs, Completes x) ∧
      Matches (memoryOf fun _ => ⟨0x4007, fun _ => 7, fun _ _ => 0, fun _ => 0⟩) cs ∧
      Sim (afterCalls (memoryOf fun _ => ⟨0x4007, fun _ => 7, fun _ _ => 0, fun _ => 0⟩) cs)
        s.bus := by
  obtain ⟨cs, s, hrun, hcalls, hcs⟩ := exists_completes
    [.writeMmd 4 3 0x8029 0x1234, .readMmd 4 3 0x8029]
    (s := Ctl.boot (fun _ => 0) (fun _ => ⟨0x4007, fun _ => 7, fun _ _ => 0, fun _ => 0⟩) none) rfl
    (by simp [PhyCall.key, Key.Valid])
  exact ⟨cs, s, hrun, hcalls, hcs, regfile _ _ cs s hrun hcs⟩

end Ipq4019.Mdio.RegFile
