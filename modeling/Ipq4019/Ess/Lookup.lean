import Ipq4019.Ess.Driver
import Ipq4019.Lib.Fields

/-!
# The switch: port lookup over sequences of operations

Each operation of the driver on the six port lookup registers rewrites a field of some of them.

* `wp_lookupOp`: what one operation does to the registers.
* `joined`: which ports an operation is to join.
* `port_lookup`: what a sequence of operations leaves in each field, and which ports forward to which
  after it.
-/

namespace Ipq4019.Ess.Lookup

open Ipq4019.Lib.Interleave Ipq4019.Lib.Interleave.Prog Ipq4019.Lib.Fields
open Ipq4019.Mdio.Driver (BusOp)
open Ipq4019.Chip.Access Ipq4019.Ess.Driver

variable {β : Type}

/-! ### The registers -/

/-- The lookup register of a port. -/
def lookup (s : Board β) (i : ℕ) : UInt32 := s.regs (ess + essPortLookupCtrl i)

/-- The registers hold `L`. -/
def Holds (L : ℕ → UInt32) (s : Board β) : Prop := ∀ i < essPortsNum, lookup s i = L i

/-- Nothing but the driver writes the registers. -/
def KeepsLookup (env : Board β → Board β → Prop) : Prop :=
  ∀ s s', env s s' → ∀ i < essPortsNum, lookup s' i = lookup s i

/-- An address that is none of the registers'. -/
def Apart (a : UInt32) : Prop := ∀ i < essPortsNum, a ≠ ess + essPortLookupCtrl i

instance (a : UInt32) : Decidable (Apart a) := by unfold Apart; infer_instance

/-- An access that leaves the registers alone. -/
def Elsewhere : SocOp → Prop
  | .writel _ a => Apart a
  | _ => True

theorem lookupCtrl_inj : ∀ i < essPortsNum, ∀ j < essPortsNum,
    ess + essPortLookupCtrl i = ess + essPortLookupCtrl j → i = j := by decide

variable {bus : (o : BusOp) → β → o.Res × β} {env : Board β → Board β → Prop} {s : Board β}
  {L : ℕ → UInt32}

theorem Holds.stable (henv : KeepsLookup env) (L : ℕ → UInt32) : Stable (board bus env) (Holds L) := by
  intro s s' he h i hi
  rw [henv s s' he i hi]
  exact h i hi

theorem Holds.elsewhere {o : SocOp} (ho : Elsewhere o) (h : Holds L s) : Holds L (step bus o s).2 := by
  cases o with
  | writel v a =>
    intro i hi
    have ha : ess + essPortLookupCtrl i ≠ a := fun he => ho i hi he.symm
    exact (Function.update_of_ne ha v s.regs).trans (h i hi)
  | readl a => exact h
  | mdelay ms => exact h
  | bus o => exact h

theorem Holds.write {i : ℕ} {v : UInt32} (hi : i < essPortsNum) (h : Holds L s) :
    Holds (Function.update L i v) (step bus (.writel v (ess + essPortLookupCtrl i)) s).2 := by
  intro j hj
  change Function.update s.regs (ess + essPortLookupCtrl i) v (ess + essPortLookupCtrl j) = _
  by_cases hij : j = i
  · rw [hij, Function.update_self, Function.update_self]
  · have hne : ess + essPortLookupCtrl j ≠ ess + essPortLookupCtrl i :=
      fun he => hij (lookupCtrl_inj j hj i hi he)
    rw [Function.update_of_ne hne, Function.update_of_ne hij]
    exact h j hj

/-! ### One register -/

/-- The registers with each `i` of the list rewritten by `f i`. -/
def rewrites (f : ℕ → UInt32 → UInt32) (l : List ℕ) (L : ℕ → UInt32) : ℕ → UInt32 :=
  l.foldl (fun L i => Function.update L i (f i (L i))) L

theorem rewrites_apply (f : ℕ → UInt32 → UInt32) {l : List ℕ} (hl : l.Nodup) (L : ℕ → UInt32)
    (i : ℕ) : rewrites f l L i = if i ∈ l then f i (L i) else L i := by
  induction l generalizing L with
  | nil => rfl
  | cons j l ih =>
    obtain ⟨hj, hl⟩ := List.nodup_cons.mp hl
    change rewrites f l (Function.update L j (f j (L j))) i = _
    rw [ih hl]
    by_cases hij : i = j
    · subst hij
      simp [hj]
    · simp [hij]

section calls

variable (henv : KeepsLookup env)
include henv

/-- A register is read, and written. -/
theorem wp_rewrite {f : UInt32 → UInt32} {i : ℕ} (hi : i < essPortsNum) (h : Holds L s) :
    wp (board bus env) .free (readl (ess + essPortLookupCtrl i) >>= fun val =>
      writel (f val) (ess + essPortLookupCtrl i))
      (fun _ => Holds (Function.update L i (f (L i)))) s := by
  refine wp_op (Holds.stable henv L) (fun _ _ => trivial) (fun _ _ => trivial) (fun t ht _ => ?_) h
  have hval : (step bus (.readl (ess + essPortLookupCtrl i)) t).1 = L i := ht i hi
  change wp _ _ (writel (f (step bus (.readl (ess + essPortLookupCtrl i)) t).1) _) _ _
  rw [hval]
  refine wp_op (Holds.stable henv L) (fun _ _ => trivial) (fun _ _ => trivial) (fun t ht _ => ?_) ht
  have hend : Holds (Function.update L i (f (L i)))
      (step bus (.writel (f (L i)) (ess + essPortLookupCtrl i)) t).2 := ht.write hi
  exact wp_ret (Holds.stable henv _) (fun _ _ => trivial) (fun _ h => h) hend

/-- A loop over registers. -/
theorem wp_rewrites {f : ℕ → UInt32 → UInt32} {l : List ℕ} (hl : ∀ i ∈ l, i < essPortsNum)
    (h : Holds L s) : wp (board bus env) .free (l.forM fun i =>
      readl (ess + essPortLookupCtrl i) >>= fun val =>
        writel (f i val) (ess + essPortLookupCtrl i)) (fun _ => Holds (rewrites f l L)) s :=
  wp_forM (Holds.stable henv) (fun _ _ _ => trivial)
    (fun i hi _ _ h => wp_rewrite henv (hl i hi) h) h

/-- What leaves the registers alone. -/
theorem wp_elsewhere {α : Type} {q : Soc α} (hq : q.Uses Elsewhere) (h : Holds L s) :
    wp (board bus env) .free q (fun _ => Holds L) s :=
  wp_of_uses (Holds.stable henv L) (fun _ _ => trivial) (fun _ _ _ _ => trivial)
    (fun _ _ ho h => h.elsewhere ho) hq h

end calls

/-! ### The operations -/

/-- A call of one of the five functions. -/
inductive LookupOp
  | init
  | disableLookup
  | enableLookup
  | loopbackSet (port : Fin essPortsNum) (enable : Int)
  | loopbackSetAll (enable : Int)

def LookupOp.prog : LookupOp → Soc Unit
  | .init => essSwitchInit ess
  | .disableLookup => essSwitchDisableLookup ess
  | .enableLookup => essSwitchEnableLookup ess
  | .loopbackSet port enable => eswPortLoopbackSet port enable
  | .loopbackSetAll enable => eswPortLoopbackSetAll enable

/-- The loopback bit as the operations set it. -/
def loopBack (enable : Int) (t : UInt32) : UInt32 :=
  if enable ≠ 0 then t ||| essPortLoopBackEn else t &&& ~~~essPortLoopBackEn

/-- The membership of a port as the operations set it. -/
def member (vid t : UInt32) : UInt32 := t &&& ~~~essPortVidMemMask ||| vid &&& essPortVidMemMask

/-- What an operation makes of the register of the port `i`. -/
def LookupOp.rewrite (i : ℕ) : LookupOp → UInt32 → UInt32
  | .init, t => t &&& ~~~essPortVidMemMask
  | .disableLookup, t => member (disabledVid i) t
  | .enableLookup, t => member (enabledVid i) t
  | .loopbackSet port enable, t => if i = port then loopBack enable t else t
  | .loopbackSetAll enable, t => if 1 ≤ i then loopBack enable t else t

theorem uses_initQueues : (initQueues ess).Uses Elsewhere := by
  have hloop : ∀ i ∈ List.range essPortsNum, Apart (ess + essPortHolCtrl0 i) ∧
      Apart (ess + essPortHolCtrl1 i) := by decide
  refine uses_bind (uses_forM fun i hi => ?_) fun _ => ?_
  · exact ⟨(hloop i hi).1, fun _ => ⟨trivial, fun _ => ⟨(hloop i hi).2, fun _ => trivial⟩⟩⟩
  · have h0 : Apart (ess + essPort0Status) := by decide
    have h1 : Apart (ess + essGlobalFwCtrl1) := by decide
    exact ⟨trivial, fun _ => ⟨trivial, fun _ => ⟨h0, fun _ => ⟨h1, fun _ => trivial⟩⟩⟩⟩

/-- **One operation.** -/
theorem wp_lookupOp (henv : KeepsLookup env) (o : LookupOp) (h : Holds L s) :
    wp (board bus env) .free o.prog (fun _ => Holds fun i => o.rewrite i (L i)) s := by
  have hfw : Apart (ess + essGlobalFwCtrl1) := by decide
  have hall : ∀ (f : ℕ → UInt32 → UInt32) (t : Board β),
      Holds (rewrites f (List.range essPortsNum) L) t → Holds (fun i => f i (L i)) t := by
    intro f t ht i hi
    rw [ht i hi, rewrites_apply f List.nodup_range, if_pos (List.mem_range.mpr hi)]
  have hrange : ∀ i ∈ List.range essPortsNum, i < essPortsNum := fun i => List.mem_range.mp
  cases o with
  | init =>
    have hst : Apart (ess + essPort0Status) := by decide
    refine wp_bind (p := writel 0x3e3e3e (ess + essGlobalFwCtrl1))
      (wp_mono (fun _ t ht => ?_) (wp_elsewhere henv ⟨hfw, fun _ => trivial⟩ h))
    refine wp_bind (p := writel _ (ess + essPort0Status))
      (wp_mono (fun _ t ht => ?_) (wp_elsewhere henv ⟨hst, fun _ => trivial⟩ ht))
    refine wp_bind (wp_mono (fun _ t ht => ?_)
      (wp_rewrites henv (f := fun _ t => t &&& ~~~essPortVidMemMask) hrange ht))
    exact wp_elsewhere henv uses_initQueues (hall _ t ht)
  | disableLookup =>
    refine wp_bind (wp_mono (fun _ t ht => ?_)
      (wp_rewrites henv (f := fun i t => member (disabledVid i) t) hrange h))
    exact wp_elsewhere henv ⟨hfw, fun _ => trivial⟩ (hall _ t ht)
  | enableLookup =>
    refine wp_bind (wp_mono (fun _ t ht => ?_)
      (wp_rewrites henv (f := fun i t => member (enabledVid i) t) hrange h))
    exact wp_elsewhere henv ⟨hfw, fun _ => trivial⟩ (hall _ t ht)
  | loopbackSet port enable =>
    refine wp_mono (fun _ t ht i hi => ?_) (wp_rewrite henv (f := loopBack enable) port.isLt h)
    rw [ht i hi]
    by_cases hip : i = port
    · simp [LookupOp.rewrite, hip]
    · simp [LookupOp.rewrite, hip]
  | loopbackSetAll enable =>
    have hports : ∀ i ∈ List.range' 1 (essPortsNum - 1), i < essPortsNum := by decide
    refine wp_mono (fun _ t ht i hi => ?_)
      (wp_rewrites henv (f := fun _ => loopBack enable) hports h)
    rw [ht i hi, rewrites_apply _ List.nodup_range']
    have hmem : i ∈ List.range' 1 (essPortsNum - 1) ↔ 1 ≤ i := by
      rw [List.mem_range'_1]
      unfold essPortsNum at *
      omega
    simp only [hmem, LookupOp.rewrite]

/-! ### The fields -/

/-- The ports of the LAN, beside the CPU's, 0, and the WAN's, 5. -/
def Lan (i : ℕ) : Prop := 1 ≤ i ∧ i ≤ 4

instance (i : ℕ) : Decidable (Lan i) := inferInstanceAs (Decidable (_ ∧ _))

/-- **Which ports an operation joins to which**: none; those of the LAN among each other; or these, and
the CPU's with every other. -/
def joined : LookupOp → Option (ℕ → ℕ → Bool)
  | .init => some fun _ _ => false
  | .disableLookup => some fun i j => i ≠ j ∧ Lan i ∧ Lan j
  | .enableLookup => some fun i j => i ≠ j ∧ (i = 0 ∨ j = 0 ∨ Lan i ∧ Lan j)
  | _ => none

/-- The membership field of a port that is joined to these. -/
def memberBits (f : ℕ → Bool) : UInt32 := (List.range essPortsNum).foldl
  (fun v j => if f j then v ||| (1 : UInt32) <<< UInt32.ofNat j else v) 0

/-- The membership that an operation prescribes for the port `i`. -/
def prescribed (i : ℕ) (o : LookupOp) : Option UInt32 := (joined o).map fun f => memberBits (f i)

/-- The loopback bit that an operation sets for the port `i`. -/
def loopSet (i : ℕ) : LookupOp → Option UInt32
  | .loopbackSet port enable =>
    if i = port then some (if enable ≠ 0 then essPortLoopBackEn else 0) else none
  | .loopbackSetAll enable =>
    if 1 ≤ i then some (if enable ≠ 0 then essPortLoopBackEn else 0) else none
  | _ => none

/-- The bits that no operation concerns. -/
def otherBits : UInt32 := ~~~(essPortVidMemMask ||| essPortLoopBackEn)

theorem loopBack_eq (enable : Int) (t : UInt32) : loopBack enable t =
    setField essPortLoopBackEn (if enable ≠ 0 then essPortLoopBackEn else 0) t := by
  unfold loopBack
  by_cases h : enable = 0
  · simp only [h, ne_eq, not_true_eq_false, if_false]
    exact clear_eq
  · simp only [ne_eq, h, not_false_eq_true, if_true]
    exact fill_eq

theorem vidMem_loopBack : essPortVidMemMask &&& essPortLoopBackEn = 0 := by decide
theorem loopBack_vidMem : essPortLoopBackEn &&& essPortVidMemMask = 0 := by decide
theorem vidMem_other : essPortVidMemMask &&& otherBits = 0 := by decide
theorem loopBack_other : essPortLoopBackEn &&& otherBits = 0 := by decide

/-- The two tables of the driver are that. -/
theorem disabledVid_eq : ∀ i < essPortsNum,
    some (disabledVid i &&& essPortVidMemMask) = prescribed i .disableLookup := by decide

theorem enabledVid_eq : ∀ i < essPortsNum,
    some (enabledVid i &&& essPortVidMemMask) = prescribed i .enableLookup := by decide

/-- Membership after one operation. -/
theorem rewrite_vidMem {i : ℕ} (hi : i < essPortsNum) (t : UInt32) (o : LookupOp) :
    o.rewrite i t &&& essPortVidMemMask = (prescribed i o).getD (t &&& essPortVidMemMask) := by
  have hloop : ∀ enable : Int, loopBack enable t &&& essPortVidMemMask = t &&& essPortVidMemMask := by
    intro enable
    rw [loopBack_eq]
    exact setField_of_disjoint loopBack_vidMem
  have hmember : ∀ vid, member vid t &&& essPortVidMemMask = vid &&& essPortVidMemMask :=
    fun vid => setField_self
  cases o with
  | init =>
    change t &&& ~~~essPortVidMemMask &&& essPortVidMemMask = 0
    rw [clear_eq, setField_self]
    exact UInt32.zero_and
  | disableLookup =>
    rw [← disabledVid_eq i hi]
    exact hmember (disabledVid i)
  | enableLookup =>
    rw [← enabledVid_eq i hi]
    exact hmember (enabledVid i)
  | loopbackSet port enable =>
    change (if i = port then loopBack enable t else t) &&& essPortVidMemMask = _
    split_ifs
    · exact hloop enable
    · rfl
  | loopbackSetAll enable =>
    change (if 1 ≤ i then loopBack enable t else t) &&& essPortVidMemMask = _
    split_ifs
    · exact hloop enable
    · rfl

/-- The loopback bit after one operation. -/
theorem rewrite_loopBack (i : ℕ) (t : UInt32) (o : LookupOp) :
    o.rewrite i t &&& essPortLoopBackEn = (loopSet i o).getD (t &&& essPortLoopBackEn) := by
  have hloop : ∀ enable : Int, loopBack enable t &&& essPortLoopBackEn =
      if enable ≠ 0 then essPortLoopBackEn else 0 := by
    intro enable
    rw [loopBack_eq, setField_self]
    split_ifs <;> simp
  cases o with
  | init =>
    change t &&& ~~~essPortVidMemMask &&& essPortLoopBackEn = _
    rw [clear_eq]
    exact setField_of_disjoint vidMem_loopBack
  | disableLookup => exact setField_of_disjoint vidMem_loopBack
  | enableLookup => exact setField_of_disjoint vidMem_loopBack
  | loopbackSet port enable =>
    change (if i = port then loopBack enable t else t) &&& essPortLoopBackEn = Option.getD
      (if i = port then some (if enable ≠ 0 then essPortLoopBackEn else 0) else none) _
    by_cases h : i = port
    · rw [if_pos h, if_pos h]
      exact hloop enable
    · rw [if_neg h, if_neg h]
      rfl
  | loopbackSetAll enable =>
    change (if 1 ≤ i then loopBack enable t else t) &&& essPortLoopBackEn = Option.getD
      (if 1 ≤ i then some (if enable ≠ 0 then essPortLoopBackEn else 0) else none) _
    by_cases h : 1 ≤ i
    · rw [if_pos h, if_pos h]
      exact hloop enable
    · rw [if_neg h, if_neg h]
      rfl

/-- The other bits after one operation. -/
theorem rewrite_other (i : ℕ) (t : UInt32) (o : LookupOp) :
    o.rewrite i t &&& otherBits = t &&& otherBits := by
  have hloop : ∀ enable : Int, loopBack enable t &&& otherBits = t &&& otherBits := by
    intro enable
    rw [loopBack_eq]
    exact setField_of_disjoint loopBack_other
  cases o with
  | init =>
    change t &&& ~~~essPortVidMemMask &&& otherBits = _
    rw [clear_eq]
    exact setField_of_disjoint vidMem_other
  | disableLookup => exact setField_of_disjoint vidMem_other
  | enableLookup => exact setField_of_disjoint vidMem_other
  | loopbackSet port enable =>
    change (if i = port then loopBack enable t else t) &&& otherBits = _
    split_ifs
    · exact hloop enable
    · rfl
  | loopbackSetAll enable =>
    change (if 1 ≤ i then loopBack enable t else t) &&& otherBits = _
    split_ifs
    · exact hloop enable
    · rfl

/-! ### Forwarding -/

/-- The port `i` forwards to the port `j`. -/
def Forwards (L : ℕ → UInt32) (i j : ℕ) : Prop :=
  i < essPortsNum ∧ j < essPortsNum ∧ (L i).toBitVec.getLsbD j = true

/-- The operation is the last one that sets membership. -/
def LastMembership (ops : List LookupOp) (o : LookupOp) : Prop :=
  ∃ before after, ops = before ++ o :: after ∧ ∀ o' ∈ after, ∀ i, prescribed i o' = none

theorem LastMembership.getLast? {ops : List LookupOp} {o : LookupOp} {i : ℕ} {w : UInt32}
    (h : LastMembership ops o) (hw : prescribed i o = some w) :
    (ops.filterMap (prescribed i)).getLast? = some w := by
  obtain ⟨before, after, rfl, hafter⟩ := h
  have hnil : after.filterMap (prescribed i) = [] :=
    List.filterMap_eq_nil_iff.mpr fun o' ho' => hafter o' ho' i
  rw [List.filterMap_append, List.filterMap_cons_some hw, hnil]
  simp

/-- A port is a bit of the membership field. -/
theorem forwards_iff {L : ℕ → UInt32} {i j : ℕ} {w : UInt32} (h : L i &&& essPortVidMemMask = w)
    (hi : i < essPortsNum) (hj : j < essPortsNum) :
    Forwards L i j ↔ w.toBitVec.getLsbD j = true := by
  have hmask : ∀ j < essPortsNum, essPortVidMemMask.toBitVec.getLsbD j = true := by decide
  rw [← h, UInt32.toBitVec_and, BitVec.getLsbD_and, hmask j hj, Bool.and_true]
  exact ⟨fun hf => hf.2.2, fun hb => ⟨hi, hj, hb⟩⟩

theorem memberBits_bit {o : LookupOp} {f : ℕ → ℕ → Bool} (h : joined o = some f) :
    ∀ i < essPortsNum, ∀ j < essPortsNum,
      ((memberBits (f i)).toBitVec.getLsbD j = true ↔ f i j = true) := by
  cases o with
  | init =>
    cases h
    decide
  | disableLookup =>
    cases h
    decide
  | enableLookup =>
    cases h
    decide
  | loopbackSet port enable => cases h
  | loopbackSetAll enable => cases h

/-- **What a sequence of operations leaves.** -/
structure PortLookup (ops : List LookupOp) (L L' : ℕ → UInt32) : Prop where
  members : ∀ i < essPortsNum, L' i &&& essPortVidMemMask =
    (ops.filterMap (prescribed i)).getLast?.getD (L i &&& essPortVidMemMask)
  loop : ∀ i < essPortsNum, L' i &&& essPortLoopBackEn =
    (ops.filterMap (loopSet i)).getLast?.getD (L i &&& essPortLoopBackEn)
  other : ∀ i < essPortsNum, L' i &&& otherBits = L i &&& otherBits
  forwards : ∀ o f, LastMembership ops o → joined o = some f →
    ∀ i < essPortsNum, ∀ j < essPortsNum, (Forwards L' i j ↔ f i j = true)
  enabled : LastMembership ops .enableLookup → (∀ i j, Forwards L' i j → Forwards L' j i) ∧
    (∀ i, ¬ Forwards L' i i) ∧ ∀ j, 1 ≤ j → j ≤ 4 → ¬ Forwards L' 5 j ∧ ¬ Forwards L' j 5
  disabled : LastMembership ops .disableLookup →
    ∀ i j, Forwards L' i j → (i ≠ 0 ∧ i ≠ 5) ∧ j ≠ 0 ∧ j ≠ 5

theorem portLookup_foldl (ops : List LookupOp) (L L' : ℕ → UInt32)
    (h : ∀ i < essPortsNum, L' i = ops.foldl (fun t o => o.rewrite i t) (L i)) :
    PortLookup ops L L' := by
  have hmem : ∀ i < essPortsNum, L' i &&& essPortVidMemMask =
      (ops.filterMap (prescribed i)).getLast?.getD (L i &&& essPortVidMemMask) := by
    intro i hi
    rw [h i hi]
    exact foldl_last (g := fun t => t &&& essPortVidMemMask) (rewrite_vidMem hi) _ ops
  have hfw : ∀ o f, LastMembership ops o → joined o = some f →
      ∀ i < essPortsNum, ∀ j < essPortsNum, (Forwards L' i j ↔ f i j = true) := by
    intro o f hlast hf i hi j hj
    have hset : prescribed i o = some (memberBits (f i)) := by
      unfold prescribed
      rw [hf]
      rfl
    have hw := hmem i hi
    rw [hlast.getLast? hset] at hw
    exact (forwards_iff hw hi hj).trans (memberBits_bit hf i hi j hj)
  refine ⟨hmem, fun i hi => ?_, fun i hi => ?_, hfw, fun hlast => ?_, fun hlast => ?_⟩
  · rw [h i hi]
    exact foldl_last (g := fun t => t &&& essPortLoopBackEn) (rewrite_loopBack i) _ ops
  · rw [h i hi]
    have hnone : ops.filterMap (fun _ : LookupOp => (none : Option UInt32)) = [] := by simp
    have hfold := foldl_last (g := fun t => t &&& otherBits) (h := fun _ => none)
      (rewrite_other i) (L i) ops
    rwa [hnone] at hfold
  · have hon : ∀ i < essPortsNum, ∀ j < essPortsNum,
        (Forwards L' i j ↔ i ≠ j ∧ (i = 0 ∨ j = 0 ∨ Lan i ∧ Lan j)) := fun i hi j hj =>
      (hfw .enableLookup _ hlast rfl i hi j hj).trans decide_eq_true_iff
    unfold Lan at hon
    refine ⟨fun i j hf => ?_, fun i hf => ?_, fun j h1 h4 => ⟨fun hf => ?_, fun hf => ?_⟩⟩
    · have hij := (hon i hf.1 j hf.2.1).mp hf
      refine (hon j hf.2.1 i hf.1).mpr ?_
      omega
    · have hii := (hon i hf.1 i hf.2.1).mp hf
      omega
    · have h5j := (hon 5 hf.1 j hf.2.1).mp hf
      omega
    · have hj5 := (hon j hf.1 5 hf.2.1).mp hf
      omega
  · intro i j hf
    have hoff : Forwards L' i j ↔ i ≠ j ∧ Lan i ∧ Lan j :=
      (hfw .disableLookup _ hlast rfl i hf.1 j hf.2.1).trans decide_eq_true_iff
    have hij := hoff.mp hf
    unfold Lan at hij
    omega

/-- **Port lookup over any sequence of operations.** -/
theorem port_lookup (bus : (o : BusOp) → β → o.Res × β) (env : Board β → Board β → Prop)
    (henv : KeepsLookup env) (ops : List LookupOp) (s s' : Board β) (l : List (SocOp × Board β))
    (u : Unit)
    (h : Run (board bus env) s (ops.forM LookupOp.prog) l s' (.ret u)) :
    PortLookup ops (lookup s) (lookup s') := by
  have hwp := wp_forM (M := board bus env) (I := Holds) (f := LookupOp.prog)
    (g := fun L o i => o.rewrite i (L i)) (C := .free) (Holds.stable henv) (fun _ _ _ => trivial) (l := ops)
    (fun o _ _ _ h => wp_lookupOp henv o h) (x := lookup s) (s := s) fun _ _ => rfl
  have hend := wp_run_free hwp h
  refine portLookup_foldl ops _ _ fun i hi => ?_
  rw [hend i hi]
  exact (List.foldl_hom (fun L : ℕ → UInt32 => L i) fun _ _ => rfl).symm

/-- A board with all registers set to `v`, and nothing behind MDIO. -/
def boardOf (v : UInt32) : Board Unit := ⟨fun _ => v, ()⟩

/-- No transaction succeeds. -/
def deadBus : (o : BusOp) → Unit → o.Res × Unit
  | .read _ _ val, u => (((-1, val) : Int × UInt16), u)
  | .write _ _ _, u => ((-1 : Int), u)

/-- Bring-up, a start, and loopback off. -/
def bringUp : List LookupOp := [.init, .disableLookup, .enableLookup, .loopbackSetAll 0]

theorem port_lookup_bringUp : PortLookup bringUp (lookup (boardOf 0xffffffff))
    (lookup (exec (board deadBus fun _ _ => False) (bringUp.forM LookupOp.prog)
      (boardOf 0xffffffff)).2) :=
  port_lookup deadBus (fun _ _ => False) (fun _ _ h => h.elim) bringUp _ _ _ _ (run_exec _ _)

end Ipq4019.Ess.Lookup
