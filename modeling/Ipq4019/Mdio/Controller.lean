import Ipq4019.Mdio.Driver

/-!
# MDIO: the controller

The controller runs one transaction at a time: a write of START latches the address and data
registers and sets BUSY, and some time later, or never, the transaction is performed and BUSY clears.
What a transaction does on the bus is a parameter.

The history numbers the transactions as they are started, and notes each one performed.
-/

namespace Ipq4019.Mdio.Controller

open Ipq4019.Lib.Interleave Ipq4019.Lib.Interleave.Prog
open Ipq4019.Mdio.Driver

/-- A transaction, as the controller latches it. -/
inductive Txn
  | read (addr : UInt32)
  | write (addr data : UInt32)
  deriving DecidableEq

/-- A transaction that was started, with its number. -/
structure Flight where
  tag : ℕ
  txn : Txn
  deriving DecidableEq

/-- A transaction that was performed, with the word it brought. -/
structure Done where
  flight : Flight
  value : UInt32
  deriving DecidableEq

/-- The controller, with what is on its bus, and the history. -/
structure Ctl (β : Type) where
  /-- The registers, as last written; the read data as the last read left them. -/
  reg : MdioReg → UInt32
  bus : β
  inflight : Option Flight
  /-- The transactions started. -/
  issued : List Flight
  /-- The transactions performed. -/
  done : List Done

variable {β : Type}

/-- A controller with the given registers, and perhaps a transaction under way. -/
def Ctl.boot (reg : MdioReg → UInt32) (bus : β) (txn : Option Txn) : Ctl β where
  reg := reg
  bus := bus
  inflight := txn.map (⟨0, ·⟩)
  issued := (txn.map (⟨0, ·⟩)).toList
  done := []

/-- The value of a register. -/
def Ctl.readReg (w : Ctl β) : MdioReg → UInt32
  | .cmd => (w.reg .cmd &&& ~~~mdioCmdAccessBusy) |||
      if w.inflight.isSome then mdioCmdAccessBusy else 0
  | r => w.reg r

/-- What a START latches. -/
def Ctl.latch (w : Ctl β) (code : UInt32) : Txn :=
  if code &&& mdioCmdAccessCodeWrite ≠ 0 then .write (w.reg .addr) (w.reg .dataWrite)
  else .read (w.reg .addr)

/-- A START. -/
def Ctl.start (w : Ctl β) (code : UInt32) : Ctl β :=
  { w with
    inflight := some ⟨w.issued.length, w.latch code⟩
    issued := w.issued ++ [⟨w.issued.length, w.latch code⟩] }

/-- A register takes a word. -/
def Ctl.setReg (w : Ctl β) (r : MdioReg) (v : UInt32) : Ctl β :=
  { w with reg := Function.update w.reg r v }

@[simp] theorem Ctl.setReg_bus (w : Ctl β) (r : MdioReg) (v : UInt32) :
    (w.setReg r v).bus = w.bus := rfl

@[simp] theorem Ctl.setReg_inflight (w : Ctl β) (r : MdioReg) (v : UInt32) :
    (w.setReg r v).inflight = w.inflight := rfl

@[simp] theorem Ctl.setReg_issued (w : Ctl β) (r : MdioReg) (v : UInt32) :
    (w.setReg r v).issued = w.issued := rfl

@[simp] theorem Ctl.setReg_done (w : Ctl β) (r : MdioReg) (v : UInt32) :
    (w.setReg r v).done = w.done := rfl

@[simp] theorem Ctl.setReg_reg (w : Ctl β) (r r' : MdioReg) (v : UInt32) :
    (w.setReg r v).reg r' = if r' = r then v else w.reg r' := by
  change Function.update w.reg r v r' = _
  by_cases h : r' = r
  · rw [if_pos h, h, Function.update_self]
  · rw [if_neg h, Function.update_of_ne h]

/-- A register write; a START counts if the controller is idle. -/
def Ctl.writeReg (w : Ctl β) (v : UInt32) (r : MdioReg) : Ctl β :=
  if r = .cmd ∧ v &&& mdioCmdAccessStart ≠ 0 ∧ w.inflight = none then (w.setReg r v).start v
  else w.setReg r v

theorem Ctl.writeReg_plain {w : Ctl β} {v : UInt32} {r : MdioReg} (hr : r ≠ .cmd) :
    w.writeReg v r = w.setReg r v := by
  unfold Ctl.writeReg
  rw [if_neg fun h => hr h.1]

theorem Ctl.writeReg_start {w : Ctl β} {v : UInt32} (hv : v &&& mdioCmdAccessStart ≠ 0)
    (h : w.inflight = none) : w.writeReg v .cmd = (w.setReg .cmd v).start v := by
  unfold Ctl.writeReg
  rw [if_pos ⟨rfl, hv, h⟩]

/-- **The meaning of an access.** -/
def step : (o : MdioOp) → Ctl β → o.Res × Ctl β
  | .readl r, w => (w.readReg r, w)
  | .writel v r, w => ((), w.writeReg v r)
  | .udelay _, w => ((), w)
  | .busyTimeout, w => ((), w)

/-- The transaction in flight is performed, and brings `v`. -/
def Ctl.perform (w : Ctl β) (f : Flight) (v : UInt32) (b : β) : Ctl β :=
  { w with
    reg := match f.txn with
      | .read _ => Function.update w.reg .dataRead v
      | .write _ _ => w.reg
    bus := b
    inflight := none
    done := w.done ++ [⟨f, v⟩] }

/-- **What the controller does by itself**: it performs the transaction in flight.  `acc t b v b'`
says that the transaction `t` may bring `v` and turn the bus from `b` to `b'`. -/
inductive Perform (acc : Txn → β → UInt32 → β → Prop) : Ctl β → Ctl β → Prop
  | mk {w : Ctl β} {f : Flight} {v : UInt32} {b : β} (h : w.inflight = some f)
      (ha : acc f.txn w.bus v b) : Perform acc w (w.perform f v b)

/-- The driver beside the controller. -/
def mdio (acc : Txn → β → UInt32 → β → Prop) : Machine mdioSig (Ctl β) where
  step := step
  env := Perform acc

/-! ### The busy bit -/

theorem busy_iff (w : Ctl β) : w.readReg .cmd &&& mdioCmdAccessBusy = 0 ↔ w.inflight = none := by
  have h₀ : ∀ x : UInt32, ((x &&& ~~~mdioCmdAccessBusy) ||| 0) &&& mdioCmdAccessBusy = 0 := by
    intro x
    apply UInt32.eq_of_toBitVec_eq
    ext i hi
    simp
  have h₁ : ∀ x : UInt32, ((x &&& ~~~mdioCmdAccessBusy) ||| mdioCmdAccessBusy) &&&
      mdioCmdAccessBusy = mdioCmdAccessBusy := by
    intro x
    apply UInt32.eq_of_toBitVec_eq
    ext i hi
    simp only [UInt32.toBitVec_and, UInt32.toBitVec_or, BitVec.getElem_and, BitVec.getElem_or]
    cases mdioCmdAccessBusy.toBitVec[i] <;> simp
  unfold Ctl.readReg
  cases hf : w.inflight with
  | none => simpa using h₀ (w.reg .cmd)
  | some f =>
    simp only [Option.isSome_some, if_true, h₁]
    exact iff_of_false (by decide) (by simp)

end Ipq4019.Mdio.Controller
