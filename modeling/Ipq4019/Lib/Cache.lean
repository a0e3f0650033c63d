import Mathlib.Logic.Function.Basic
import Mathlib.Tactic.Common

/-!
# A write-back cache in front of a memory

A cache holds copies of some lines of a memory; a line that was stored to is dirty.  It may be filled
and evicted at any time, and an eviction of a dirty line writes it back.  A device that does not see
the cache reads and writes the memory behind it (`dma`).

* `Holds m a v`: the processor reads `v` at `a`, and whatever the cache does `v` ends in memory.
* `Settled m a v`: `v` is in memory at `a`, and the cache has nothing else and nothing to write back.

The cache keeps both.  A store makes the first (`holds_store`), cleaning a line the second of the
first (`Holds.clean`).  Invalidating a line settles what is in memory there (`settled_invalidate`).
-/

namespace Ipq4019.Lib.Cache

variable {α κ β : Type}

structure Line (α β : Type) where
  dirty : Bool
  data : α → β

/-- A memory and the lines that are in the cache. -/
structure Cached (α κ β : Type) where
  mem : α → β
  line : κ → Option (Line α β)

section Defs

variable (lineOf : α → κ)

/-- What the processor reads. -/
def view (m : Cached α κ β) (a : α) : β :=
  match m.line (lineOf a) with
  | some l => l.data a
  | none => m.mem a

def Dirty (m : Cached α κ β) (k : κ) : Prop := ∃ l, m.line k = some l ∧ l.dirty = true

/-- The processor reads `v`, and it is in memory too unless the line is dirty. -/
structure Holds (m : Cached α κ β) (a : α) (v : β) : Prop where
  view : view lineOf m a = v
  clean : ¬Dirty m (lineOf a) → m.mem a = v

/-- `v` is in memory, the line is not dirty, and it has `v` if it is there. -/
structure Settled (m : Cached α κ β) (a : α) (v : β) : Prop where
  view : view lineOf m a = v
  clean : ¬Dirty m (lineOf a)
  mem : m.mem a = v

variable [DecidableEq κ]

/-- A line is brought in, if it is not there. -/
def fill (k : κ) (m : Cached α κ β) : Cached α κ β :=
  match m.line k with
  | some _ => m
  | none => { m with line := Function.update m.line k (some ⟨false, m.mem⟩) }

/-- A line is written back, if it is dirty, and dropped. -/
def evict (k : κ) (m : Cached α κ β) : Cached α κ β where
  mem a :=
    if lineOf a = k then
      match m.line k with
      | some ⟨true, d⟩ => d a
      | _ => m.mem a
    else m.mem a
  line := Function.update m.line k none

/-- A line is dropped as it is. -/
def invalidate (k : κ) (m : Cached α κ β) : Cached α κ β :=
  { m with line := Function.update m.line k none }

variable [DecidableEq α]

/-- The processor stores to a line, which is brought in if it is not there. -/
def store (a : α) (b : β) (m : Cached α κ β) : Cached α κ β :=
  let l : Line α β := ⟨true, Function.update (view lineOf m) a b⟩
  { m with line := Function.update m.line (lineOf a) (some l) }

/-- A device writes to the memory. -/
def dma (a : α) (b : β) (m : Cached α κ β) : Cached α κ β :=
  { m with mem := Function.update m.mem a b }

end Defs

variable {lineOf : α → κ} {m m' : Cached α κ β} {a x : α} {b v : β} {k k' : κ}

theorem Settled.holds (h : Settled lineOf m a v) : Holds lineOf m a v := ⟨h.view, fun _ => h.mem⟩

theorem Holds.settled (h : Holds lineOf m a v) (hd : ¬Dirty m (lineOf a)) : Settled lineOf m a v :=
  ⟨h.view, hd, h.clean hd⟩

theorem view_of_line {l : Line α β} (h : m.line (lineOf a) = some l) : view lineOf m a = l.data a := by
  unfold view
  rw [h]

theorem view_of_none (h : m.line (lineOf a) = none) : view lineOf m a = m.mem a := by
  unfold view
  rw [h]

theorem not_dirty_of_none (h : m.line k = none) : ¬Dirty m k := by
  rintro ⟨l, hl, -⟩
  rw [h] at hl
  exact nomatch hl

theorem settled_of_none (h : m.line (lineOf a) = none) : Settled lineOf m a (m.mem a) :=
  ⟨view_of_none h, not_dirty_of_none h, rfl⟩

theorem dirty_congr (h : m.line k = m'.line k) : Dirty m k ↔ Dirty m' k := by
  unfold Dirty
  rw [h]

theorem view_congr (h : m.line (lineOf a) = m'.line (lineOf a)) (hm : m.mem a = m'.mem a) :
    view lineOf m a = view lineOf m' a := by
  unfold view
  rw [h, hm]

/-- Both depend on the line and the byte in memory only. -/
theorem Holds.congr (h : Holds lineOf m a v) (hl : m'.line (lineOf a) = m.line (lineOf a))
    (hm : m'.mem a = m.mem a) : Holds lineOf m' a v :=
  ⟨(view_congr hl hm).trans h.view, fun hd => hm.trans (h.clean fun h' => hd ((dirty_congr hl).mpr h'))⟩

theorem Settled.congr (h : Settled lineOf m a v) (hl : m'.line (lineOf a) = m.line (lineOf a))
    (hm : m'.mem a = m.mem a) : Settled lineOf m' a v :=
  (h.holds.congr hl hm).settled fun hd => h.clean ((dirty_congr hl).mp hd)

section Lines

variable [DecidableEq κ]

/-! ### What happens to other lines -/

theorem line_fill_ne (h : k' ≠ k) : (fill k m).line k' = m.line k' := by
  unfold fill
  split
  · rfl
  · exact Function.update_of_ne h _ _

theorem line_evict_ne (h : k' ≠ k) : (evict lineOf k m).line k' = m.line k' :=
  Function.update_of_ne h _ _

theorem line_evict : (evict lineOf k m).line k = none := Function.update_self _ _ _

theorem line_invalidate_ne (h : k' ≠ k) : (invalidate k m).line k' = m.line k' :=
  Function.update_of_ne h _ _

theorem line_invalidate : (invalidate k m).line k = none := Function.update_self _ _ _

theorem mem_fill : (fill k m).mem = m.mem := by
  unfold fill
  split
  · rfl
  · rfl

theorem mem_evict_ne (h : lineOf a ≠ k) : (evict lineOf k m).mem a = m.mem a := if_neg h

/-- Without a dirty line nothing is written back. -/
theorem mem_evict_clean (h : ¬Dirty m (lineOf a)) : (evict lineOf k m).mem a = m.mem a := by
  by_cases hk : lineOf a = k
  · refine (if_pos hk).trans ?_
    cases hl : m.line k with
    | none => rfl
    | some l =>
      obtain ⟨d, data⟩ := l
      cases d with
      | false => rfl
      | true => exact absurd ⟨⟨true, data⟩, hk ▸ hl, rfl⟩ h
  · exact mem_evict_ne hk

/-- What the processor reads of a dirty line is written back. -/
theorem mem_evict_dirty (h : Dirty m (lineOf a)) :
    (evict lineOf (lineOf a) m).mem a = view lineOf m a := by
  obtain ⟨⟨d, data⟩, hl, hd⟩ := h
  cases hd
  rw [view_of_line hl]
  refine (if_pos rfl).trans ?_
  rw [hl]

theorem dirty_fill (h : Dirty (fill k' m) k) : Dirty m k := by
  unfold fill at h
  split at h
  · exact h
  · rename_i hl
    by_cases hk : k = k'
    · subst hk
      obtain ⟨l, hl', hd⟩ := h
      have hs : Function.update m.line k (some ⟨false, m.mem⟩) k = some l := hl'
      rw [Function.update_self] at hs
      cases hs
      exact nomatch hd
    · exact (dirty_congr (Function.update_of_ne hk _ _)).mp h

theorem dirty_evict (h : Dirty (evict lineOf k' m) k) : Dirty m k := by
  by_cases hk : k = k'
  · subst hk
    exact absurd h (not_dirty_of_none line_evict)
  · exact (dirty_congr (line_evict_ne hk)).mp h

theorem dirty_invalidate (h : Dirty (invalidate k' m) k) : Dirty m k := by
  by_cases hk : k = k'
  · subst hk
    exact absurd h (not_dirty_of_none line_invalidate)
  · exact (dirty_congr (line_invalidate_ne hk)).mp h

/-- A dirty line is there, so that nothing is filled. -/
theorem Dirty.fill (h : Dirty m k) : Dirty (fill k' m) k := by
  by_cases hk : k = k'
  · obtain ⟨l, hl, hld⟩ := h
    refine ⟨l, ?_, hld⟩
    unfold Cache.fill
    rw [← hk, hl]
    exact hl
  · exact (dirty_congr (line_fill_ne hk)).mpr h

theorem Dirty.evict (h : Dirty m k) (hk : k ≠ k') : Dirty (evict lineOf k' m) k :=
  (dirty_congr (line_evict_ne hk)).mpr h

theorem Dirty.invalidate (h : Dirty m k) (hk : k ≠ k') : Dirty (invalidate k' m) k :=
  (dirty_congr (line_invalidate_ne hk)).mpr h

/-! ### What the cache does by itself -/

theorem view_fill : view lineOf (fill k m) a = view lineOf m a := by
  by_cases hk : lineOf a = k
  · cases hl : m.line k with
    | some l =>
      have hf : fill k m = m := by unfold fill; rw [hl]
      rw [hf]
    | none =>
      have hf : (fill k m).line (lineOf a) = some ⟨false, m.mem⟩ := by
        unfold fill
        rw [hl, hk]
        exact Function.update_self _ _ _
      rw [view_of_line hf, view_of_none (hk ▸ hl)]
  · exact view_congr (line_fill_ne hk) (congrFun mem_fill a)

theorem Holds.fill (h : Holds lineOf m a v) (k : κ) : Holds lineOf (fill k m) a v := by
  refine ⟨view_fill.trans h.view, fun hd => ?_⟩
  rw [mem_fill]
  by_cases hm : Dirty m (lineOf a)
  · exact absurd hm.fill hd
  · exact h.clean hm

theorem Holds.evict (h : Holds lineOf m a v) (k : κ) : Holds lineOf (evict lineOf k m) a v := by
  by_cases hk : lineOf a = k
  · subst hk
    have hmem : (Cache.evict lineOf (lineOf a) m).mem a = v := by
      by_cases hm : Dirty m (lineOf a)
      · rw [mem_evict_dirty hm, h.view]
      · rw [mem_evict_clean hm, h.clean hm]
    exact ⟨(view_of_none line_evict).trans hmem, fun _ => hmem⟩
  · exact h.congr (line_evict_ne hk) (mem_evict_ne hk)

theorem Settled.fill (h : Settled lineOf m a v) (k : κ) : Settled lineOf (fill k m) a v :=
  (h.holds.fill k).settled fun hd => h.clean (dirty_fill hd)

theorem Settled.evict (h : Settled lineOf m a v) (k : κ) : Settled lineOf (evict lineOf k m) a v :=
  (h.holds.evict k).settled fun hd => h.clean (dirty_evict hd)

theorem Settled.invalidate (h : Settled lineOf m a v) (k : κ) :
    Settled lineOf (invalidate k m) a v := by
  by_cases hk : lineOf a = k
  · have hl : (Cache.invalidate k m).line (lineOf a) = none := by rw [hk]; exact line_invalidate
    exact ⟨(view_of_none hl).trans h.mem, not_dirty_of_none hl, h.mem⟩
  · exact h.congr (line_invalidate_ne hk) rfl

/-! ### What the processor does -/

/-- **Invalidating a line** settles what is in memory. -/
theorem settled_invalidate : Settled lineOf (invalidate (lineOf a) m) a (m.mem a) :=
  settled_of_none line_invalidate

variable [DecidableEq α]

theorem line_store_ne (h : k ≠ lineOf a) : (store lineOf a b m).line k = m.line k :=
  Function.update_of_ne h _ _

theorem line_store : (store lineOf a b m).line (lineOf a) =
    some ⟨true, Function.update (view lineOf m) a b⟩ := Function.update_self _ _ _

theorem dirty_store (hk : k ≠ lineOf a) (h : Dirty (store lineOf a b m) k) : Dirty m k :=
  (dirty_congr (line_store_ne hk)).mp h

theorem Dirty.store (h : Dirty m k) : Dirty (store lineOf a b m) k := by
  by_cases hk : k = lineOf a
  · rw [hk]
    exact ⟨_, line_store, rfl⟩
  · exact (dirty_congr (line_store_ne hk)).mpr h

/-- **A store** is read back. -/
theorem holds_store : Holds lineOf (store lineOf a b m) a b :=
  ⟨(view_of_line line_store).trans (Function.update_self _ _ _), fun h =>
    absurd ⟨_, line_store, rfl⟩ h⟩

/-- And leaves the other bytes, those of its line too. -/
theorem Holds.store (h : Holds lineOf m x v) (hx : x ≠ a) :
    Holds lineOf (store lineOf a b m) x v := by
  by_cases hl : lineOf x = lineOf a
  · have hs : (Cache.store lineOf a b m).line (lineOf x) =
        some ⟨true, Function.update (Cache.view lineOf m) a b⟩ := by rw [hl]; exact line_store
    refine ⟨?_, fun hd => absurd ⟨_, hs, rfl⟩ hd⟩
    rw [view_of_line hs]
    exact (Function.update_of_ne hx _ _).trans h.view
  · exact h.congr (line_store_ne hl) rfl

theorem Settled.store (h : Settled lineOf m x v) (hx : lineOf x ≠ lineOf a) :
    Settled lineOf (store lineOf a b m) x v :=
  h.congr (line_store_ne hx) rfl

end Lines

/-! ### What the device does -/

section Dma

variable [DecidableEq α]

theorem mem_dma : (dma a b m).mem a = b := Function.update_self _ _ _

theorem mem_dma_ne (h : x ≠ a) : (dma a b m).mem x = m.mem x := Function.update_of_ne h _ _

/-- The processor does not see it where the line is dirty. -/
theorem Dirty.view_dma (h : Dirty m (lineOf a)) : view lineOf (dma x b m) a = view lineOf m a := by
  obtain ⟨l, hl, -⟩ := h
  have hl' : (Cache.dma x b m).line (lineOf a) = some l := hl
  rw [view_of_line hl, view_of_line hl']

/-- A write of the device leaves the other bytes, those of its line too. -/
theorem Settled.dma (h : Settled lineOf m x v) (hx : x ≠ a) : Settled lineOf (dma a b m) x v :=
  h.congr rfl (mem_dma_ne hx)

end Dma

end Ipq4019.Lib.Cache
