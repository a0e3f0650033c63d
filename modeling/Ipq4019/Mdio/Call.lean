import Ipq4019.Mdio.Controller

/-!
# MDIO: one call beside the controller

The calls of `ipq4019_mdio_read` and `ipq4019_mdio_write` have one shape: wait, write the registers,
give START, wait again.  `wp_wireOp` is the rule for both: what the controller keeps before START
(`A`) and after it (`B`) gives what holds where the call gives up at the first wait, gives up at the
second, or ends.
-/

namespace Ipq4019.Mdio.Call

open Ipq4019.Lib.Interleave Ipq4019.Lib.Interleave.Prog
open Ipq4019.Mdio.Driver Ipq4019.Mdio.Controller

variable {β : Type} {acc : Txn → β → UInt32 → β → Prop} {C : Contract mdioSig (Ctl β)} {s : Ctl β}

/-! ### What a call starts and returns -/

/-- The transaction of a call. -/
def txnOf : BusOp → Txn
  | .read phy reg _ => .read (addrWord phy reg)
  | .write phy reg val => .write (addrWord phy reg) val.toUInt32

/-- What a call returns that gives up: `*val` is as before. -/
def failed : (o : BusOp) → o.Res
  | .read _ _ val => ((-1, val) : Int × UInt16)
  | .write _ _ _ => (-1 : Int)

/-- What a call returns whose transaction brought `v`. -/
def succeeded (v : UInt32) : (o : BusOp) → o.Res
  | .read _ _ _ => ((0, (v &&& 0xffff).toUInt16) : Int × UInt16)
  | .write _ _ _ => (0 : Int)

/-- The controller after the START of a call. -/
def begun (o : BusOp) (s : Ctl β) : Ctl β :=
  match o with
  | .read phy reg _ =>
    let code := mdioCmdAccessStart ||| mdioCmdAccessCodeRead
    ((s.setReg .addr (addrWord phy reg)).setReg .cmd code).start code
  | .write phy reg val =>
    let code := mdioCmdAccessStart ||| mdioCmdAccessCodeWrite
    (((s.setReg .addr (addrWord phy reg)).setReg .dataWrite val.toUInt32).setReg .cmd code).start code

@[simp] theorem begun_bus (o : BusOp) (s : Ctl β) : (begun o s).bus = s.bus := by cases o <;> rfl

@[simp] theorem begun_done (o : BusOp) (s : Ctl β) : (begun o s).done = s.done := by cases o <;> rfl

@[simp] theorem begun_inflight (o : BusOp) (s : Ctl β) :
    (begun o s).inflight = some ⟨s.issued.length, txnOf o⟩ := by cases o <;> rfl

@[simp] theorem begun_issued (o : BusOp) (s : Ctl β) :
    (begun o s).issued = s.issued ++ [⟨s.issued.length, txnOf o⟩] := by cases o <;> rfl

/-! ### An idle controller -/

/-- An idle controller does nothing by itself. -/
theorem idle_stable (h : s.inflight = none) : Stable (mdio acc) (· = s) := by
  rintro _ _ ⟨hf, -⟩ rfl
  rw [h] at hf
  cases hf

/-- **The rule of an access to an idle controller.** -/
theorem wp_idle {α : Type} {o : MdioOp} {k : o.Res → Wire α} {Q : α → Ctl β → Prop}
    (h : s.inflight = none) (hinv : C.inv s) (hok : C.ok o s)
    (hk : wp (mdio acc) C (k (step o s).1) Q (step o s).2) :
    wp (mdio acc) C (.op (S := mdioSig) o k) Q s := by
  refine wp_op (idle_stable h) ?_ ?_ ?_ rfl
  all_goals rintro _ rfl
  · exact hinv
  · exact hok
  · exact fun _ => hk

theorem and_idle_stable {A : Ctl β → Prop} :
    Stable (mdio acc) fun s => A s ∧ s.inflight = none := by
  rintro s _ ⟨hf, -⟩ ⟨-, h0⟩
  rw [h0] at hf
  cases hf

/-! ### The rules of a call -/

/-- The accesses of the wait loop. -/
def WaitOp : MdioOp → Prop
  | .readl .cmd | .udelay _ | .busyTimeout => True
  | _ => False

/-- The contract forbids at most accesses to a controller that is not idle. -/
structure Lenient (C : Contract mdioSig (Ctl β)) : Prop where
  inv : ∀ s, C.inv s
  wait : ∀ o s, WaitOp o → C.ok o s
  idle : ∀ o s, s.inflight = none → C.ok o s

variable (hC : Lenient C)

include hC

/-- **The rule of the wait**: what the controller keeps, holds at the end; and then it is idle, or
the wait has timed out. -/
theorem wp_pollBusy {A : Ctl β → Prop} (hA : Stable (mdio acc) A) (n : ℕ) : ∀ {s : Ctl β}, A s →
    wp (mdio acc) C (pollBusy n) (fun r s => A s ∧
      (r = 0 ∧ s.inflight = none ∨ r = -1 ∧ ∃ t, C.asm .busyTimeout t)) s := by
  have hinv : ∀ s, A s → C.inv s := fun s _ => hC.inv s
  induction n with
  | zero =>
    intro s hs
    refine wp_op hA hinv (fun s _ => hC.wait .busyTimeout s trivial) (fun t ht ha => ?_) hs
    exact wp_ret hA hinv (fun u hu => ⟨hu, Or.inr ⟨rfl, t, ha⟩⟩) ht
  | succ n ih =>
    intro s hs
    refine wp_op hA hinv (fun s _ => hC.wait (.readl .cmd) s trivial) (fun t ht _ => ?_) hs
    change wp (mdio acc) C (if t.readReg .cmd &&& mdioCmdAccessBusy = 0 then .ret 0
      else .op (S := mdioSig) (.udelay mdioPollUs) fun _ => pollBusy n) _ t
    by_cases hb : t.readReg .cmd &&& mdioCmdAccessBusy = 0
    · rw [if_pos hb]
      exact wp_ret and_idle_stable (fun s _ => hC.inv s) (fun u hu => ⟨hu.1, Or.inl ⟨rfl, hu.2⟩⟩)
        ⟨ht, (busy_iff t).mp hb⟩
    · rw [if_neg hb]
      exact wp_op hA hinv (fun s _ => hC.wait (.udelay mdioPollUs) s trivial)
        (fun u hu _ => ih hu) ht

theorem wp_waitBusy {A : Ctl β → Prop} (hA : Stable (mdio acc) A) (hs : A s) :
    wp (mdio acc) C mdioWaitBusy (fun r s => A s ∧
      (r = 0 ∧ s.inflight = none ∨ r = -1 ∧ ∃ t, C.asm .busyTimeout t)) s := by
  unfold mdioWaitBusy
  exact wp_pollBusy hC hA _ hs

/-- **The rule of a register write**, for a register that starts nothing. -/
theorem wp_setReg {α : Type} {v : UInt32} {r : MdioReg} {k : Unit → Wire α} {Q : α → Ctl β → Prop}
    (hr : r ≠ .cmd) (h : s.inflight = none) (hk : wp (mdio acc) C (k ()) Q (s.setReg r v)) :
    wp (mdio acc) C (.op (S := mdioSig) (.writel v r) k) Q s := by
  refine wp_idle h (hC.inv s) (hC.idle _ s h) ?_
  change wp (mdio acc) C (k ()) Q (s.writeReg v r)
  rwa [Ctl.writeReg_plain hr]

/-- **The rule of a START.** -/
theorem wp_start {α : Type} {v : UInt32} {k : Unit → Wire α} {Q : α → Ctl β → Prop}
    (hv : v &&& mdioCmdAccessStart ≠ 0) (h : s.inflight = none)
    (hk : wp (mdio acc) C (k ()) Q ((s.setReg .cmd v).start v)) :
    wp (mdio acc) C (.op (S := mdioSig) (.writel v .cmd) k) Q s := by
  refine wp_idle h (hC.inv s) (hC.idle _ s h) ?_
  change wp (mdio acc) C (k ()) Q (s.writeReg v .cmd)
  rwa [Ctl.writeReg_start hv h]

variable {A B : Ctl β → Prop} (hA : Stable (mdio acc) A) (hB : Stable (mdio acc) B)

include hB

theorem wp_endRead {phy reg : UInt8} {val : UInt16} {Q : Int × UInt16 → Ctl β → Prop}
    (hlate : ∀ s, B s → (∃ t, C.asm .busyTimeout t) → Q (failed (.read phy reg val)) s)
    (hend : ∀ s, B s → s.inflight = none →
      Q (succeeded (s.reg .dataRead) (.read phy reg val)) s) (h : B s) :
    wp (mdio acc) C (endRead val) Q s := by
  refine wp_bind (wp_mono ?_ (wp_waitBusy hC hB h))
  rintro r t ⟨ht, ⟨rfl, h0⟩ | ⟨rfl, hto⟩⟩
  · refine wp_idle h0 (hC.inv t) (hC.idle (.readl .dataRead) t h0) ?_
    refine wp_ret (idle_stable h0) (fun s _ => hC.inv s) ?_ rfl
    rintro _ rfl
    exact hend _ ht h0
  · exact wp_ret hB (fun s _ => hC.inv s) (fun u hu => hlate u hu hto) ht

include hA

/-- **The rule of a call.** -/
theorem wp_wireOp (o : BusOp) {Q : o.Res → Ctl β → Prop}
    (hskip : ∀ s, A s → (∃ t, C.asm .busyTimeout t) → Q (failed o) s)
    (hstart : ∀ s, A s → s.inflight = none → B (begun o s))
    (hlate : ∀ s, B s → (∃ t, C.asm .busyTimeout t) → Q (failed o) s)
    (hend : ∀ s, B s → s.inflight = none → Q (succeeded (s.reg .dataRead) o) s) (h : A s) :
    wp (mdio acc) C (wireOp o) Q s := by
  have hwait := wp_waitBusy hC hA h
  cases o with
  | read phy reg val =>
    refine wp_bind (wp_mono ?_ hwait)
    rintro r t ⟨ht, ⟨rfl, h0⟩ | ⟨rfl, hto⟩⟩
    · refine wp_setReg hC (by decide) h0 (wp_start hC (by decide) h0 ?_)
      exact wp_endRead hC hB hlate hend (hstart t ht h0)
    · exact wp_ret hA (fun s _ => hC.inv s) (fun u hu => hskip u hu hto) ht
  | write phy reg val =>
    refine wp_bind (wp_mono ?_ hwait)
    rintro r t ⟨ht, ⟨rfl, h0⟩ | ⟨rfl, hto⟩⟩
    · refine wp_setReg hC (by decide) h0 (wp_setReg hC (by decide) h0
        (wp_start hC (by decide) h0 ?_))
      change wp (mdio acc) C mdioWaitBusy _ _
      refine wp_mono ?_ (wp_waitBusy hC hB (hstart t ht h0))
      rintro r u ⟨hu, ⟨rfl, h0⟩ | ⟨rfl, hto⟩⟩
      · exact hend u hu h0
      · exact hlate u hu hto
    · exact wp_ret hA (fun s _ => hC.inv s) (fun u hu => hskip u hu hto) ht

end Ipq4019.Mdio.Call
