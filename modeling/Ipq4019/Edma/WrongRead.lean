import Ipq4019.Edma.RightReads

/-!
# Coherence of the receive buffers: a wrong read

The allocator gives the blocks out one after the other, and every line is dirty before the first.
The lines of the buffers stay dirty when the ring is handed over; the EDMA writes a byte of the first
buffer, and the line is evicted before the driver invalidates it.  Without the eviction the byte is
read as the EDMA wrote it (`reads_right_first`), with it it is not (`wrong_read`).
-/

namespace Ipq4019.Edma.WrongRead

open Ipq4019.Lib Ipq4019.Lib.Interleave Ipq4019.Lib.Interleave.Prog Ipq4019.Lib.Memory
open Ipq4019.Lib.Ring Ipq4019.Lib.Cache
open Ipq4019.Edma.Driver Ipq4019.Edma.Alloc Ipq4019.Edma.RxCache Ipq4019.Edma.Coherence
open Ipq4019.Edma.RightReads

/-! ### An allocator -/

/-- The end of what is given out. -/
def top (bs : List Block) : ℕ := bs.foldr (fun b t => max (b.addr.toNat + b.size) t) 0x81000000

theorem le_top {b : Block} : ∀ {bs : List Block}, b ∈ bs → b.addr.toNat + b.size ≤ top bs
  | b' :: bs, h => by
    unfold top
    rw [List.foldr_cons]
    rcases List.mem_cons.mp h with rfl | h
    · exact le_max_left _ _
    · exact (le_top h).trans (le_max_right _ _)

theorem base_le_top : ∀ bs : List Block, 0x81000000 ≤ top bs
  | [] => le_rfl
  | _ :: bs => (base_le_top bs).trans (le_max_right _ _)

/-- The blocks one after the other, as long as there is room. -/
def heapPlace (bs : List Block) (align size : ℕ) : UInt32 :=
  if 0 < align ∧ alignUp (top bs) align + size < 2 ^ 32 then UInt32.ofNat (alignUp (top bs) align)
  else 0

theorem le_alignUp {n a : ℕ} (ha : 0 < a) : n ≤ alignUp n a := by
  unfold alignUp
  have h := Nat.div_add_mod (n + a - 1) a
  have hm := Nat.mod_lt (n + a - 1) ha
  rw [Nat.mul_comm] at h
  omega

theorem heapPlace_of_room {bs : List Block} {align size : ℕ} (ha : 0 < align)
    (h : alignUp (top bs) align + size < 2 ^ 32) :
    (heapPlace bs align size).toNat = alignUp (top bs) align := by
  unfold heapPlace
  rw [if_pos ⟨ha, h⟩, UInt32.toNat_ofNat']
  exact Nat.mod_eq_of_lt (by omega)

theorem room_of_ne {bs : List Block} {align size : ℕ} (h : heapPlace bs align size ≠ 0) :
    0 < align ∧ alignUp (top bs) align + size < 2 ^ 32 := by
  by_contra hno
  exact h (if_neg hno)

def heap : Allocator where
  place := heapPlace
  aligned bs align size := by
    by_cases h : 0 < align ∧ alignUp (top bs) align + size < 2 ^ 32
    · rw [heapPlace_of_room h.1 h.2]
      exact Dvd.intro_left _ rfl
    · unfold heapPlace
      rw [if_neg h]
      exact Dvd.intro 0 rfl
  fits bs align size hne := by
    obtain ⟨ha, hroom⟩ := room_of_ne hne
    rwa [heapPlace_of_room ha hroom]
  apart bs align size hne b hb := by
    obtain ⟨ha, hroom⟩ := room_of_ne hne
    right
    change _ ≤ (heapPlace bs align size).toNat
    rw [heapPlace_of_room ha hroom]
    exact (le_top hb).trans (le_alignUp ha)

/-! ### The blocks are given out -/

section Allocation

variable {c : Platform} {A : Allocator} {careful : Prop} {s : RxWorld}

/-- Blocks of these sizes are given out, one after the other. -/
def Fits (A : Allocator) (align : ℕ) : List ℕ → List Block → Prop
  | [], _ => True
  | n :: ns, bs => A.place bs align n ≠ 0 ∧ Fits A align ns (⟨A.place bs align n, n⟩ :: bs)

theorem give_of_ne {a : UInt32} {n : ℕ} (h : a ≠ 0) : (s.give a n).blocks = ⟨a, n⟩ :: s.blocks :=
  if_neg h

/-- The state with one more buffer. -/
def takeBuf (c : Platform) (A : Allocator) (i : ℕ) (s : RxWorld) : RxWorld :=
  let a := A.place s.blocks c.dcacheLineBytes edmaRxBufSize
  { s.give a edmaRxBufSize with netRxPackets := Function.update s.netRxPackets i a }

theorem exec_allocBufs_succ (n i : ℕ) (h : A.place s.blocks c.dcacheLineBytes edmaRxBufSize ≠ 0) :
    exec (rxCache c A careful) (onAllocCache c (allocBufs c (n + 1) i)) s =
      exec (rxCache c A careful) (onAllocCache c (allocBufs c n (i + 1))) (takeBuf c A i s) := by
  change exec _ (onAllocCache c (if A.place s.blocks c.dcacheLineBytes edmaRxBufSize = 0 then _
    else _)) _ = _
  rw [if_neg h]
  rfl

theorem exec_allocBufs : ∀ (n i : ℕ) {s : RxWorld},
    Fits A c.dcacheLineBytes (List.replicate n edmaRxBufSize) s.blocks →
    (exec (rxCache c A careful) (onAllocCache c (allocBufs c n i)) s).1 = 0
  | 0, _, _, _ => rfl
  | n + 1, i, s, ⟨hne, hrest⟩ => by
    rw [exec_allocBufs_succ n i hne]
    refine exec_allocBufs n (i + 1) ?_
    change Fits A _ _ (s.give _ _).blocks
    rwa [give_of_ne hne]

/-- The steps that neither give out blocks, nor set the table of the buffers, nor maintain the
cache. -/
def Usual : CacheOp → Prop
  | .xmemalign _ _ => False
  | .setNetRxPacket _ _ => False
  | .cleanInvalidateLine _ => False
  | .invalidateLine _ => False
  | _ => True

theorem storeBytes_usual : ∀ (bs : List UInt8) (a : UInt32), (storeBytes a bs).Uses Usual
  | [], _ => trivial
  | _ :: bs, a => ⟨trivial, fun _ => storeBytes_usual bs (a + 1)⟩

theorem step_blocks {bs : List Block} (o : CacheOp) (s : RxWorld) (ho : Usual o)
    (h : s.blocks = bs) : (step c A o s).2.blocks = bs := by
  cases o with
  | xmemalign align size => exact ho.elim
  | writel v r => cases r <;> exact h
  | _ => exact h

theorem blocks_storeBytes (bs : List UInt8) (a : UInt32) :
    (exec (rxCache c A careful) (storeBytes a bs) s).2.blocks = s.blocks :=
  exec_of_uses (A := fun t : RxWorld => t.blocks = s.blocks) step_blocks (storeBytes_usual bs a) rfl

/-- The two rings. -/
theorem exec_allocRings_eq {tpd rfd : UInt32}
    (htpd : A.place s.blocks c.dcacheLineBytes
      (alignUp (noOfTxDesc * sizeofEdmaTpd) c.dcacheLineBytes) = tpd)
    (hrfd : A.place (s.give tpd (alignUp (noOfTxDesc * sizeofEdmaTpd) c.dcacheLineBytes)).blocks
      c.dcacheLineBytes (alignUp (noOfRxDesc * sizeofEdmaRfd) c.dcacheLineBytes) = rfd)
    (hne : ¬(tpd = 0 ∨ rfd = 0)) :
    exec (rxCache c A careful) (onAllocCache c (edmaAllocRings c)) s =
      exec (rxCache c A careful) (storeBytes tpd (List.replicate (noOfTxDesc * sizeofEdmaTpd) 0) >>=
        fun _ => storeBytes rfd (List.replicate (noOfRxDesc * sizeofEdmaRfd) 0) >>=
        fun _ => onAllocCache c (allocBufs c noOfRxDesc 0))
        { (s.give tpd (alignUp (noOfTxDesc * sizeofEdmaTpd) c.dcacheLineBytes)).give rfd
            (alignUp (noOfRxDesc * sizeofEdmaRfd) c.dcacheLineBytes) with
          dev := { s.dev with tpdRing := tpd, rfdRing := rfd } } := by
  subst hrfd htpd
  change exec _ (onAllocCache c (if A.place s.blocks c.dcacheLineBytes
    (alignUp (noOfTxDesc * sizeofEdmaTpd) c.dcacheLineBytes) = 0 ∨ A.place (s.give _ _).blocks
    c.dcacheLineBytes (alignUp (noOfRxDesc * sizeofEdmaRfd) c.dcacheLineBytes) = 0 then _ else _)) _ = _
  rw [if_neg hne]
  rfl

/-- **The allocation succeeds** if all blocks are given out. -/
theorem exec_allocRings (h : Fits A c.dcacheLineBytes
    (alignUp (noOfTxDesc * sizeofEdmaTpd) c.dcacheLineBytes ::
      alignUp (noOfRxDesc * sizeofEdmaRfd) c.dcacheLineBytes ::
      List.replicate noOfRxDesc edmaRxBufSize) s.blocks) :
    (exec (rxCache c A careful) (onAllocCache c (edmaAllocRings c)) s).1 = 0 := by
  obtain ⟨htpd, hrfd, hbufs⟩ := h
  rw [← give_of_ne htpd] at hrfd hbufs
  rw [← give_of_ne hrfd] at hbufs
  rw [exec_allocRings_eq rfl rfl (not_or.mpr ⟨htpd, hrfd⟩), exec_bind, exec_bind]
  refine exec_allocBufs noOfRxDesc 0 ?_
  rw [blocks_storeBytes, blocks_storeBytes]
  exact hbufs

end Allocation

/-- With whole lines no room is lost. -/
theorem place_heap {bs : List Block} {size : ℕ} (hline : 64 ∣ top bs) (hroom : top bs + size < 2 ^ 32) :
    heap.place bs 64 size ≠ 0 ∧ top (⟨heap.place bs 64 size, size⟩ :: bs) = top bs + size := by
  have halign : alignUp (top bs) 64 = top bs := by
    unfold alignUp
    omega
  have hplace : (heapPlace bs 64 size).toNat = top bs := by
    rw [heapPlace_of_room (by decide) (by rwa [halign]), halign]
  have hbase := base_le_top bs
  constructor
  · intro h0
    have : (heapPlace bs 64 size).toNat = 0 := by
      change heapPlace bs 64 size = 0 at h0
      rw [h0]
      rfl
    omega
  · change max ((heapPlace bs 64 size).toNat + size) (top bs) = _
    rw [hplace]
    exact max_eq_left (by omega)

theorem fits_heap : ∀ {ns : List ℕ} {bs : List Block}, (∀ n ∈ ns, 64 ∣ n) → 64 ∣ top bs →
    top bs + ns.sum < 2 ^ 32 → Fits heap 64 ns bs
  | [], _, _, _, _ => trivial
  | n :: ns, bs, hns, hline, hroom => by
    rw [List.sum_cons] at hroom
    obtain ⟨hne, htop⟩ := place_heap hline (show top bs + n < 2 ^ 32 by omega)
    refine ⟨hne, fits_heap (fun m hm => hns m (List.mem_cons_of_mem n hm)) ?_ ?_⟩
    · rw [htop]
      exact Nat.dvd_add hline (hns n List.mem_cons_self)
    · rw [htop]
      omega

/-! ### The lines of the buffers stay dirty -/

section Dirty

variable {c : Platform} {A : Allocator} {careful : Prop} {s : RxWorld} {b : Block}

/-- The lines of the block are dirty, and the EDMA's index is at the first descriptor. -/
structure Stained (c : Platform) (b : Block) (s : RxWorld) : Prop where
  dirty : ∀ a, b.Has a → Dirty s.cache (lineOf c a)
  cons : s.rfdCons = 0

/-- No maintenance of a line of the block. -/
def Spares (c : Platform) (b : Block) (o : CacheOp) : Prop :=
  ∀ a, b.Has a → o ≠ .cleanInvalidateLine (lineOf c a) ∧ o ≠ .invalidateLine (lineOf c a)

theorem step_stained (o : CacheOp) (s : RxWorld) (ho : Spares c b o) (h : Stained c b s) :
    Stained c b (step c A o s).2 := by
  obtain ⟨hd, hcons⟩ := h
  cases o with
  | writel v r => cases r <;> exact ⟨hd, hcons⟩
  | loadByte x => exact ⟨fun a ha => (hd a ha).fill, hcons⟩
  | storeByte x v => exact ⟨fun a ha => (hd a ha).store, hcons⟩
  | cleanInvalidateLine k =>
    exact ⟨fun a ha => (hd a ha).evict fun he => (ho a ha).1 (by rw [he]), hcons⟩
  | invalidateLine k =>
    exact ⟨fun a ha => (hd a ha).invalidate fun he => (ho a ha).2 (by rw [he]), hcons⟩
  | _ => exact ⟨hd, hcons⟩

/-- Nor a change of the table of the buffers. -/
def SparesBufs (c : Platform) (b : Block) (o : CacheOp) : Prop :=
  Spares c b o ∧ ∀ i a, o ≠ .setNetRxPacket i a

theorem step_stained_bufs {f : ℕ → UInt32} (o : CacheOp) (s : RxWorld) (ho : SparesBufs c b o)
    (h : Stained c b s ∧ s.netRxPackets = f) :
    Stained c b (step c A o s).2 ∧ (step c A o s).2.netRxPackets = f := by
  refine ⟨step_stained o s ho.1 h.1, ?_⟩
  cases o with
  | writel v r => cases r <;> exact h.2
  | setNetRxPacket i a => exact absurd rfl (ho.2 i a)
  | _ => exact h.2

/-- The accesses that are no maintenance. -/
def Plain : EdmaOp → Prop
  | .flushRange _ _ => False
  | .invalidateRange _ _ => False
  | _ => True

theorem spares_of_usual (o : CacheOp) (ho : Usual o) : Spares c b o :=
  fun _ _ => ⟨fun he => by rw [he] at ho; exact ho, fun he => by rw [he] at ho; exact ho⟩

theorem sparesBufs_of_usual (o : CacheOp) (ho : Usual o) : SparesBufs c b o :=
  ⟨spares_of_usual o ho, fun _ _ he => by rw [he] at ho; exact ho⟩

theorem cachedEdma_usual (o : EdmaOp) (ho : Plain o) : (cachedEdma c o).Uses Usual := by
  cases o with
  | flushRange a n => exact ho.elim
  | invalidateRange a n => exact ho.elim
  | storeTpd i t => exact ⟨trivial, fun p => storeBytes_usual _ _⟩
  | storeRfd i a => exact ⟨trivial, fun p => storeBytes_usual _ _⟩
  | load16 a => exact uses_mono (by rintro o ⟨a, rfl⟩; trivial) (load16_uses a)
  | memcpy src n => exact uses_mono (by rintro o ⟨a, rfl⟩; trivial) (loadBytes_uses n src)
  | _ => exact ⟨trivial, fun _ => trivial⟩

theorem fillRfds_plain : ∀ n i, (fillRfds c n i).Uses Plain
  | 0, _ => trivial
  | n + 1, i => ⟨trivial, fun _ => ⟨trivial, fun _ => fillRfds_plain n (i + 1)⟩⟩

theorem fillRfds_usual (n i : ℕ) : (onCache c (fillRfds c n i)).Uses Usual :=
  uses_subst cachedEdma_usual (fillRfds_plain n i)

/-- The accesses of the allocation that are no maintenance. -/
def AllocPlain : AllocOp → Prop
  | .edma o => Plain o
  | _ => True

theorem cached_spares (o : AllocOp) (ho : AllocPlain o) : (cached c o).Uses (Spares c b) := by
  cases o with
  | edma o => exact uses_mono spares_of_usual (cachedEdma_usual o ho)
  | clear a n => exact uses_mono spares_of_usual (storeBytes_usual _ _)
  | _ => exact ⟨fun _ _ => ⟨nofun, nofun⟩, fun _ => trivial⟩

theorem allocBufs_plain : ∀ n i, (allocBufs c n i).Uses AllocPlain
  | 0, _ => ⟨trivial, fun _ => ⟨trivial, fun _ => ⟨trivial, fun _ => ⟨trivial, fun _ => trivial⟩⟩⟩⟩
  | n + 1, i => by
    refine ⟨trivial, fun (a : UInt32) => ⟨trivial, fun _ => ?_⟩⟩
    change Uses (S := allocSig) AllocPlain (if a = 0 then _ else _)
    split
    · trivial
    · exact allocBufs_plain n (i + 1)

theorem allocRings_plain : (edmaAllocRings c).Uses AllocPlain := by
  refine ⟨trivial, fun (tpd : UInt32) => ⟨trivial, fun _ => ⟨trivial, fun (rfd : UInt32) =>
    ⟨trivial, fun _ => ?_⟩⟩⟩⟩
  change Uses (S := allocSig) AllocPlain (if tpd = 0 ∨ rfd = 0 then _ else _)
  split
  · trivial
  · exact ⟨trivial, fun _ => ⟨trivial, fun _ => allocBufs_plain _ _⟩⟩

/-- The lines of a block of whole lines are those of its bytes. -/
theorem has_of_linesOf {r : Block} (hl : Lined c.dcacheLineBytes r) (hL : 0 < c.dcacheLineBytes)
    {a : UInt32} (ha : lineOf c a ∈ linesOf c r.addr r.size) : r.Has a := by
  obtain ⟨u, hu⟩ := hl.start
  obtain ⟨w, hw⟩ := hl.whole
  simp only [linesOf, lineOf, List.mem_range'_1] at ha
  have hend : (r.addr.toNat + r.size + c.dcacheLineBytes - 1) / c.dcacheLineBytes = u + w := by
    rw [hu, hw, ← Nat.mul_add, Nat.add_sub_assoc (by omega), Nat.mul_add_div hL,
      Nat.div_eq_of_lt (by omega), Nat.add_zero]
  have hstart : r.addr.toNat / c.dcacheLineBytes = u := by rw [hu, Nat.mul_div_cancel_left _ hL]
  rw [hend, hstart] at ha
  have hlo := (Nat.le_div_iff_mul_le hL).mp ha.1
  have hhi := (Nat.div_lt_iff_lt_mul hL).mp (show a.toNat / c.dcacheLineBytes < u + w by omega)
  rw [Nat.mul_comm] at hlo hhi
  rw [Nat.mul_add] at hhi
  constructor
  · omega
  · omega

/-- Writing the ring back does not touch a buffer. -/
theorem flush_spares {n : ℕ} (hL : 0 < c.dcacheLineBytes) (hl : Laid c n s) {j : ℕ} (hj : j < n) :
    (cleanInvalidateByMva c s.dev.rfdRing (noOfRxDesc * sizeofEdmaRfd)).Uses
      (SparesBufs c (buf s j)) := by
  refine uses_forM fun k hk => uses_call ⟨fun a ha => ⟨fun he => ?_, nofun⟩, nofun⟩
  cases he
  exact not_has_of_apart (hl.ringApart j hj) (has_of_linesOf hl.ringLined hL hk) ha

/-- The lines of a buffer stay dirty when the ring is handed over. -/
theorem stained_init (hL : 0 < c.dcacheLineBytes) (hl : Laid c noOfRxDesc s) (hi : Idle s) {j : ℕ}
    (hj : j < noOfRxDesc) (h : Stained c (buf s j) s) {u : RxWorld}
    (hu : u = (exec (rxCache c A True) (onCache c (edmaInitRfdRing c)) s).2) :
    Stained c (buf u j) u := by
  have hsafe : True ∨ CleanBufs c s := Or.inl trivial
  have hwp := wp_fillRfds (A := A) noOfRxDesc 0 (Nat.zero_add _) (fillingOf_start hl hi hsafe)
  have hfill := exec_of_wp hwp fun _ _ => trivial
  have hfillUses : (onCache c (fillRfds c noOfRxDesc 0)).Uses Usual := fillRfds_usual noOfRxDesc 0
  have huses := uses_mono (sparesBufs_of_usual (c := c) (b := buf s j)) hfillUses
  have hstained := exec_of_uses (M := rxCache c A True) step_stained_bufs huses ⟨h, rfl⟩
  unfold onCache edmaInitRfdRing at hu
  rw [subst_bind, exec_bind] at hu
  generalize exec (rxCache c A True) ((fillRfds c noOfRxDesc 0).subst (cachedEdma c)) s = t at *
  obtain ⟨_, t⟩ := t
  obtain ⟨hfill, -, hbufs⟩ := hfill
  have hbuf : buf t j = buf s j := by
    unfold buf
    rw [hbufs]
  suffices Stained c (buf t j) u ∧ u.netRxPackets = s.netRxPackets by
    have hbuf' : buf u j = buf t j := by
      unfold buf
      rw [hbufs, this.2]
    rw [hbuf']
    exact this.1
  rw [← hbuf] at hstained
  rw [hu]
  change Stained c _ (exec _ (cleanInvalidateByMva c t.dev.rfdRing _ >>= fun _ => _) t).2 ∧
    (exec _ (cleanInvalidateByMva c t.dev.rfdRing _ >>= fun _ => _) t).2.netRxPackets = _
  refine exec_of_uses
    (A := fun v : RxWorld => Stained c (buf t j) v ∧ v.netRxPackets = s.netRxPackets)
    step_stained_bufs (uses_bind (flush_spares hL hfill.laid hj) fun _ => ?_) hstained
  have hrest : ∀ o, Usual o → SparesBufs c (buf t j) o := sparesBufs_of_usual
  exact uses_mono hrest ⟨trivial, fun _ => ⟨trivial, fun _ => ⟨trivial, fun _ => ⟨trivial, fun _ =>
    trivial⟩⟩⟩⟩

theorem stained_alloc (hd : ∀ k, Dirty s.cache k) (hcons : s.rfdCons = 0) :
    Stained c b (exec (rxCache c A careful) (onAllocCache c (edmaAllocRings c)) s).2 :=
  exec_of_uses (M := rxCache c A careful) step_stained
    (uses_subst (P := AllocPlain) cached_spares allocRings_plain) ⟨fun _ _ => hd _, hcons⟩

end Dirty

/-! ### The first frame -/

section FirstFrame

variable {c : Platform} {A : Allocator} {careful : Prop} {s : RxWorld}

/-- **The ring is handed over with dirty lines.** -/
theorem run_handed (hc : c.dcacheLineBytes ∣ edmaRxBufSize) (hs : Start s) (hcons : s.rfdCons = 0)
    (hd : ∀ k, Dirty s.cache k) (hfits : Fits A c.dcacheLineBytes
      (alignUp (noOfTxDesc * sizeofEdmaTpd) c.dcacheLineBytes ::
        alignUp (noOfRxDesc * sizeofEdmaRfd) c.dcacheLineBytes ::
        List.replicate noOfRxDesc edmaRxBufSize) s.blocks) (ms : List Int) :
    ∃ l u, Run (rxCache c A True) s (session c ms) l u (onCache c (recvs ms)) ∧
      Serves c True 0 511 0 511 u ∧ Stained c (buf u 0) u := by
  have hL : 0 < c.dcacheLineBytes := Nat.pos_of_dvd_of_pos hc (by decide)
  have hidle : Idle s := ⟨hs.idle, hs.cons, hs.wrote⟩
  have hret : (exec (rxCache c A True) (onAllocCache c (edmaAllocRings c)) s).1 = 0 :=
    exec_allocRings hfits
  have halloc := run_exec (M := rxCache c A True) (onAllocCache c (edmaAllocRings c)) s
  have hwp : wp (rxCache c A True) (reads c) (onAllocCache c (edmaAllocRings c))
      (fun r s => r = 0 → Allocated c noOfRxDesc s) s := wp_allocRings hc hidle
  have hpost := exec_of_wp hwp fun _ _ => trivial
  have hstain : ∀ b, Stained c b (exec (rxCache c A True) (onAllocCache c (edmaAllocRings c)) s).2 :=
    fun _ => stained_alloc hd hcons
  generalize exec (rxCache c A True) (onAllocCache c (edmaAllocRings c)) s = t at *
  obtain ⟨r, t⟩ := t
  obtain ⟨hlaid, hidle'⟩ := hpost hret
  have hinit := run_exec (M := rxCache c A True) (onCache c (edmaInitRfdRing c)) t
  have hserves : wp (rxCache c A True) (reads c) (onCache c (edmaInitRfdRing c))
      (fun _ => Serves c True 0 511 0 511) t := wp_initRfdRing hL hlaid hidle' (Or.inl trivial)
  have hdirty := stained_init (A := A) hL hlaid hidle' (by decide : 0 < noOfRxDesc) (hstain _) rfl
  have hend := exec_of_wp hserves fun _ _ => trivial
  have hfirst := halloc.bind fun r : Int => if r = 0 then serve c ms else pure []
  rw [ret_bind, if_pos hret] at hfirst
  exact ⟨_, _, hfirst.trans (hinit.bind fun _ => onCache c (recvs ms)), hend, hdirty⟩

/-- The EDMA writes a byte of the first buffer, and steps past its descriptor. -/
def received (c : Platform) (i : ℕ) (v : UInt8) (s : RxWorld) : RxWorld :=
  (s.dma (s.target c 0 i) v).advance

theorem run_received {α : Type} {u : RxWorld} {p q : Prog cacheSig α} {l : List (CacheOp × RxWorld)}
    (hrun : Run (rxCache c A careful) s p l u q) (hu : Serves c careful 0 511 0 511 u)
    (hcons : u.rfdCons = 0) {i : ℕ} (hi : i < edmaRxBufSize) (v : UInt8) :
    Run (rxCache c A careful) s p l (received c i v u) q := by
  obtain ⟨k, -, hu⟩ := hu
  have hprod : u.rfdProd.val = 511 := hu.pos.prod
  have howned : Owned u 0 := ⟨0, by rw [hcons, hprod]; decide, by rw [hcons]; rfl⟩
  refine (hrun.env (.dma 0 i v howned hi)).env (.advance fun he => ?_)
  have heq : u.rfdCons.val = u.rfdProd.val := congrArg Fin.val he
  rw [hcons, hprod] at heq
  exact absurd heq (by decide)

theorem wrote_received {u : RxWorld} (hu : Serves c careful 0 511 0 511 u) {i : ℕ} {v : UInt8} :
    (received c i v u).wrote ((buf u 0).addr + UInt32.ofNat i) = some v := by
  obtain ⟨k, -, hu⟩ := hu
  rw [← hu.target (by decide : 0 < noOfRxDesc) i]
  exact Function.update_self _ _ _

/-- Invalidating leaves what is settled, and what the driver and the EDMA have. -/
theorem exec_invalidate (a : UInt32) (n : ℕ) {t : RxWorld}
    (ht : t = (exec (rxCache c A careful) (invalidateByMva c a n) s).2) :
    t.dev = s.dev ∧ t.netRxPackets = s.netRxPackets ∧ t.wrote = s.wrote ∧
      ∀ x w, Settled (lineOf c) s.cache x w → Settled (lineOf c) t.cache x w := by
  rw [ht]
  refine exec_of_uses (P := fun o : CacheOp => ∃ k, o = .invalidateLine k)
    (A := fun t : RxWorld => t.dev = s.dev ∧ t.netRxPackets = s.netRxPackets ∧ t.wrote = s.wrote ∧
      ∀ x w, Settled (lineOf c) s.cache x w → Settled (lineOf c) t.cache x w)
    ?_ (uses_forM fun k _ => uses_call ⟨k, rfl⟩) ⟨rfl, rfl, rfl, fun _ _ h => h⟩
  rintro o t ⟨k, rfl⟩ ⟨h₁, h₂, h₃, h₄⟩
  exact ⟨h₁, h₂, h₃, fun x w h => (h₄ x w h).invalidate k⟩

/-- **What the first call reads** of the first buffer, if the EDMA has let go of it. -/
theorem mem_hist_recv (careful : Prop) (hcons : s.rfdCons = 1) (htail : s.dev.rfdTail = 0) (m : Int) :
    ∃ x ∈ hist (rxCache c A careful) (onCache c (recvs [m])) s,
      x.1 = .loadByte (tailBuf x.2 + UInt32.ofNat offsetofRrd7) ∧ tailBuf x.2 = (buf s 0).addr ∧
        x.2.wrote = s.wrote ∧
        ∀ a w, Settled (lineOf c) s.cache a w → Settled (lineOf c) x.2.cache a w := by
  have hnonempty : ((s.readReg .rfdIdxQ >>> edmaRfdConsIdxShift) &&& edmaRfdConsIdxMask).toNat ≠
      s.dev.rfdTail.toNat := by
    rw [readReg_cons, hcons, htail]
    decide
  have hpkt : s.netRxPackets s.dev.rfdTail.toNat = (buf s 0).addr := by
    rw [htail]
    rfl
  generalize ht : (exec (rxCache c A careful) (invalidateByMva c (buf s 0).addr edmaRxBufSize) s).2 = t
  obtain ⟨hdev, hbufs, hwrote, hsettled⟩ := exec_invalidate _ _ ht.symm
  have htail' : tailBuf t = (buf s 0).addr := by
    unfold tailBuf
    rw [hdev, hbufs, htail]
    rfl
  refine ⟨(.loadByte (tailBuf t + UInt32.ofNat offsetofRrd7), t), List.mem_cons_of_mem _
    (List.mem_cons_of_mem _ ?_), rfl, htail', hwrote, hsettled⟩
  change _ ∈ hist _ (onCache c ((if ((s.readReg .rfdIdxQ >>> edmaRfdConsIdxShift) &&&
    edmaRfdConsIdxMask).toNat = s.dev.rfdTail.toNat then Prog.ret _ else rxTake m s.dev.rfdTail) >>=
      fun r => _)) s
  rw [if_neg hnonempty]
  refine List.mem_cons_of_mem _ ?_
  change _ ∈ hist _ (invalidateByMva c (s.netRxPackets s.dev.rfdTail.toNat) edmaRxBufSize >>= fun _ => _) s
  rw [hpkt]
  refine mem_hist_right ?_
  change _ ∈ (CacheOp.loadByte (s.netRxPackets s.dev.rfdTail.toNat + UInt32.ofNat offsetofRrd7), _) :: _
  rw [hpkt, ht, htail']
  exact List.mem_cons_self

/-- A world in which every line is dirty. -/
def boot : RxWorld where
  dev := ⟨0, 0, 0, 0, 0, 0⟩
  netRxPackets _ := 0
  blocks := []
  cache := ⟨fun _ => 0, fun _ => some ⟨true, fun _ => 0⟩⟩
  rfdProd := 0
  rfdCons := 0
  reg _ := 0
  wrote _ := none

theorem start_boot : Start boot := ⟨rfl, by decide, fun _ => rfl⟩

theorem dirty_boot (k : ℕ) : Dirty boot.cache k := ⟨_, rfl, rfl⟩

theorem fits_boot : Fits heap 64 (alignUp (noOfTxDesc * sizeofEdmaTpd) 64 ::
    alignUp (noOfRxDesc * sizeofEdmaRfd) 64 :: List.replicate noOfRxDesc edmaRxBufSize) [] := by
  refine fits_heap (fun n hn => ?_) (by decide) ?_
  · simp only [List.mem_cons, List.mem_replicate] at hn
    rcases hn with rfl | rfl | ⟨-, rfl⟩
    · decide
    · decide
    · decide
  · simp only [List.sum_cons, List.sum_replicate_nat]
    decide

theorem run_boot (m : Int) : ∃ l u, Run (rxCache .flat heap True) boot (session .flat [m]) l u
    (onCache .flat (recvs [m])) ∧ Serves .flat True 0 511 0 511 u ∧ Stained .flat (buf u 0) u :=
  run_handed (by decide) start_boot rfl dirty_boot fits_boot [m]

/-- After the first frame. -/
theorem received_eq {u : RxWorld} (hu : Serves c careful 0 511 0 511 u) (hcons : u.rfdCons = 0) (i : ℕ)
    (v : UInt8) : (received c i v u).rfdCons = 1 ∧ (received c i v u).dev.rfdTail = 0 := by
  obtain ⟨k, -, hu⟩ := hu
  refine ⟨Fin.ext ?_, UInt16.toNat_inj.mp hu.pos.tail⟩
  change (u.rfdCons.val + 1) % noOfRxDesc = 1
  rw [hcons]
  rfl

/-- The driver does not move the EDMA's index. -/
theorem exec_cons {α : Type} (p : Prog cacheSig α) :
    (exec (rxCache c A careful) p s).2.rfdCons = s.rfdCons := by
  refine exec_of_uses (A := fun t : RxWorld => t.rfdCons = s.rfdCons) ?_ (uses_true p) rfl
  intro o t _ ht
  cases o with
  | writel v r => cases r <;> exact ht
  | _ => exact ht

/-- A world in which the ring and the buffers are given out, and no line is in the cache. -/
def clean : RxWorld where
  dev := ⟨0, 0x81000000, 0, 0, 0, 0⟩
  netRxPackets j := UInt32.ofNat (0x82000000 + edmaRxBufSize * j)
  blocks := ⟨0x81000000, noOfRxDesc * sizeofEdmaRfd⟩ ::
    (List.range noOfRxDesc).map fun j => ⟨UInt32.ofNat (0x82000000 + edmaRxBufSize * j), edmaRxBufSize⟩
  cache := ⟨fun _ => 0, fun _ => none⟩
  rfdProd := 0
  rfdCons := 0
  reg _ := 0
  wrote _ := none

theorem toNat_clean {j : ℕ} (hj : j < noOfRxDesc) :
    (clean.netRxPackets j).toNat = 0x82000000 + 2048 * j := by
  have hj' : j < 512 := hj
  change (UInt32.ofNat (0x82000000 + 2048 * j)).toNat = _
  rw [UInt32.toNat_ofNat']
  omega

theorem laid_clean : Laid .flat noOfRxDesc clean where
  ring := List.mem_cons_self
  ringLined := ⟨by decide, by decide, by decide⟩
  bufs j hj := List.mem_cons_of_mem _ (List.mem_map.mpr ⟨j, List.mem_range.mpr hj, rfl⟩)
  bufLined j hj := by
    have hj' : j < 512 := hj
    have ha := toNat_clean hj
    refine ⟨?_, ⟨32, rfl⟩, ?_⟩
    · change 64 ∣ (clean.netRxPackets j).toNat
      omega
    · change (clean.netRxPackets j).toNat + 2048 < _
      omega
  ringApart j hj := by
    have ha := toNat_clean hj
    have hring : (ringBlock clean).addr.toNat = 0x81000000 := rfl
    left
    change (ringBlock clean).addr.toNat + 2048 ≤ (clean.netRxPackets j).toNat
    omega
  apart i hi j hj hij := by
    have ha := toNat_clean hi
    have hb := toNat_clean hj
    change (clean.netRxPackets i).toNat + 2048 ≤ (clean.netRxPackets j).toNat ∨
      (clean.netRxPackets j).toNat + 2048 ≤ (clean.netRxPackets i).toNat
    omega

theorem idle_clean : Idle clean := ⟨rfl, by decide, fun _ => rfl⟩

theorem cleanBufs_clean : CleanBufs .flat clean := fun _ _ _ _ => not_dirty_of_none rfl

end FirstFrame

/-- A call reads a byte that the EDMA wrote, and every byte is read right. -/
theorem reads_right_first : ∃ l s' q,
    Run (rxCache .flat heap True) boot (session .flat [1514]) l s' q ∧
      (∃ x ∈ l, x.1 = .loadByte (tailBuf x.2 + UInt32.ofNat offsetofRrd7) ∧
        x.2.wrote (tailBuf x.2 + UInt32.ofNat offsetofRrd7) = some 1) ∧
      ∀ x ∈ l, RightRead .flat x.1 x.2 := by
  obtain ⟨l, u, hrun, hu, hst⟩ := run_boot 1514
  have hrun' := run_received hrun hu hst.cons (by decide : offsetofRrd7 < edmaRxBufSize) 1
  have hwhole := hrun'.trans (run_exec _ _)
  obtain ⟨hcons, htail⟩ := received_eq hu hst.cons offsetofRrd7 1
  obtain ⟨x, hx, hload, hbuf, hwrote, -⟩ := mem_hist_recv (A := heap) True hcons htail 1514
  refine ⟨_, _, _, hwhole, ⟨x, List.mem_append_right _ hx, hload, ?_⟩, ?_⟩
  · rw [hwrote, hbuf]
    exact wrote_received hu
  · exact reads_right .flat heap (by decide) boot start_boot [1514] hwhole

/-- With clean buffers too, whatever is evicted. -/
theorem reads_right_of_clean_first : ∃ l s' q,
    Run (rxCache .flat heap False) clean (serve .flat [1514]) l s' q ∧
      (∃ x ∈ l, x.1 = .loadByte (tailBuf x.2 + UInt32.ofNat offsetofRrd7) ∧
        x.2.wrote (tailBuf x.2 + UInt32.ofNat offsetofRrd7) = some 1) ∧
      ∀ x ∈ l, RightRead .flat x.1 x.2 := by
  have hrun := run_exec (M := rxCache .flat heap False) (onCache .flat (edmaInitRfdRing .flat)) clean
  have hcons : (exec (rxCache .flat heap False) (onCache .flat (edmaInitRfdRing .flat)) clean).2.rfdCons
      = 0 := exec_cons _
  have hserves : wp (rxCache .flat heap False) (reads .flat) (onCache .flat (edmaInitRfdRing .flat))
      (fun _ => Serves .flat False 0 511 0 511) clean :=
    wp_initRfdRing (by decide) laid_clean idle_clean (Or.inr cleanBufs_clean)
  have hu := exec_of_wp hserves fun _ _ => trivial
  generalize exec (rxCache .flat heap False) (onCache .flat (edmaInitRfdRing .flat)) clean = u at *
  obtain ⟨_, u⟩ := u
  have hrun' := run_received (hrun.bind fun _ => onCache .flat (recvs [1514])) hu hcons
    (by decide : offsetofRrd7 < edmaRxBufSize) 1
  have hwhole := hrun'.trans (run_exec _ _)
  obtain ⟨hcons', htail⟩ := received_eq hu hcons offsetofRrd7 1
  obtain ⟨x, hx, hload, hbuf, hwrote, -⟩ := mem_hist_recv (A := heap) False hcons' htail 1514
  refine ⟨_, _, _, hwhole, ⟨x, List.mem_append_right _ hx, hload, ?_⟩, ?_⟩
  · rw [hwrote, hbuf]
    exact wrote_received hu
  · exact reads_right_of_clean .flat heap (by decide) clean laid_clean idle_clean cleanBufs_clean
      [1514] hwhole

/-- **An eviction can make a call read another byte than the EDMA wrote.** -/
theorem wrong_read : ¬∀ (c : Platform) (A : Allocator), c.dcacheLineBytes ∣ edmaRxBufSize →
    ∀ s, Start s → ∀ (ms : List Int) (l : List (CacheOp × RxWorld)) (s' : RxWorld)
      (q : Prog cacheSig (List RecvOut)), Run (rxCache c A False) s (session c ms) l s' q →
        ∀ x ∈ l, RightRead c x.1 x.2 := by
  intro hall
  obtain ⟨l, u, hrun, hu, hst⟩ := run_boot 1514
  have hbyte : offsetofRrd7 < edmaRxBufSize := by decide
  have hlined : Lined 64 (buf u 0) := by
    obtain ⟨k, -, hu⟩ := hu
    exact hu.laid.bufLined 0 (by decide)
  generalize ha : (buf u 0).addr + UInt32.ofNat offsetofRrd7 = a
  have hhas : (buf u 0).Has a := ha ▸ has_add hlined hbyte
  have hd : Dirty u.cache (lineOf .flat a) := hst.dirty a hhas
  -- the EDMA writes another byte than the one in the dirty line
  generalize hb : view (lineOf .flat) u.cache a = b
  have hrun' := run_received hrun hu hst.cons hbyte (b + 1)
  obtain ⟨hcons, htail⟩ := received_eq hu hst.cons offsetofRrd7 (b + 1)
  have hwrote := wrote_received hu (i := offsetofRrd7) (v := b + 1)
  rw [ha] at hwrote
  have hd' : Dirty (received .flat offsetofRrd7 (b + 1) u).cache (lineOf .flat a) := hd
  have hview : view (lineOf .flat) (received .flat offsetofRrd7 (b + 1) u).cache a = b :=
    (hd.view_dma).trans hb
  have haddr : (buf (received .flat offsetofRrd7 (b + 1) u) 0).addr + UInt32.ofNat offsetofRrd7 = a := ha
  generalize received .flat offsetofRrd7 (b + 1) u = w at *
  have hbeside : Run (rxCache .flat heap False) boot (session .flat [1514]) l w
      (onCache .flat (recvs [1514])) :=
    Run.mono (by rfl) (fun _ _ h => CacheStep.mono .flat h False.elim) hrun'
  -- the line is written back over it
  have hwhole := (hbeside.env (.evict (lineOf .flat a) False.elim)).trans (run_exec _ _)
  have hmem : (evict (lineOf .flat) (lineOf .flat a) w.cache).mem a = b :=
    (mem_evict_dirty hd').trans hview
  have haddr' : (buf { w with cache := evict (lineOf .flat) (lineOf .flat a) w.cache } 0).addr +
      UInt32.ofNat offsetofRrd7 = a := haddr
  obtain ⟨x, hx, hload, hbuf, hw, hsettled⟩ := mem_hist_recv (c := .flat) (A := heap) False
    (s := { w with cache := evict (lineOf .flat) (lineOf .flat a) w.cache }) hcons htail 1514
  have hread := (hsettled a b (hmem ▸ settled_of_none line_evict)).view
  have hright := hall .flat heap (by decide) boot start_boot [1514] _ _ _ hwhole x
    (List.mem_append_right _ hx)
  rw [hload] at hright
  have hsame := hright offsetofRrd7 hbyte rfl (b + 1) (by rw [hw, hbuf, haddr']; exact hwrote)
  rw [hbuf, haddr', hread] at hsame
  have hnat := congrArg UInt8.toNat hsame
  rw [UInt8.toNat_add] at hnat
  have hone : (1 : UInt8).toNat = 1 := rfl
  have hlt := b.toNat_lt
  omega

end Ipq4019.Edma.WrongRead
