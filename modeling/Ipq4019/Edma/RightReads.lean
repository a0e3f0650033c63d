import Ipq4019.Edma.Coherence

/-!
# Coherence of the receive buffers: what is read

What `ipq4019_eth_recv` reads from a buffer is in memory and not in the cache: it invalidates the
buffer first, and the EDMA has let go of it by then.  The driver itself never makes a line of a buffer
dirty; but it hands the buffers over as the allocator gave them, with the lines that are dirty from
before.

* `reads_right`: if no eviction writes other bytes over those of the EDMA, every byte is read as the
  EDMA wrote it.
* `reads_right_of_clean`: that is so if no line of a buffer is dirty when the ring is handed over.
-/

namespace Ipq4019.Edma.RightReads

open Ipq4019.Lib Ipq4019.Lib.Interleave Ipq4019.Lib.Interleave.Prog Ipq4019.Lib.Memory
open Ipq4019.Lib.Ring Ipq4019.Lib.Cache
open Ipq4019.Edma.Driver Ipq4019.Edma.Alloc Ipq4019.Edma.RxCache Ipq4019.Edma.Coherence

variable {c : Platform} {A : Allocator} {careful : Prop} {s s' : RxWorld} {α : Type}

/-- Every byte is read right. -/
def reads (c : Platform) : Contract cacheSig RxWorld where
  inv _ := True
  asm _ _ := True
  ok := RightRead c

/-- A step of the driver, from a stable assertion. -/
theorem op_rule {I : RxWorld → Prop} (hI : Stable (rxCache c A careful) I) {o : CacheOp}
    {k : o.Res → Prog cacheSig α} {Q : α → RxWorld → Prop} (hok : ∀ s, I s → RightRead c o s)
    (hk : ∀ s, I s → wp (rxCache c A careful) (reads c) (k (step c A o s).1) Q (step c A o s).2)
    (h : I s) : wp (rxCache c A careful) (reads c) (.op (S := cacheSig) o k) Q s :=
  wp_op hI (fun _ _ => trivial) hok (fun s hs _ => hk s hs) h

theorem ret_rule {I : RxWorld → Prop} (hI : Stable (rxCache c A careful) I) {a : α}
    {Q : α → RxWorld → Prop} (hQ : ∀ s, I s → Q a s) (h : I s) :
    wp (rxCache c A careful) (reads c) (.ret (S := cacheSig) a) Q s :=
  wp_ret hI (fun _ _ => trivial) hQ h

/-- **Bytes are stored** one after the other. -/
theorem wp_storeBytes {J : ℕ → RxWorld → Prop} (hJ : ∀ n, Stable (rxCache c A careful) (J n)) :
    ∀ {bs : List UInt8} {n : ℕ} {a : UInt32} {s : RxWorld},
    (∀ (i : ℕ) (b : UInt8), bs[i]? = some b → ∀ s, J (n + i) s →
      J (n + i + 1) { s with cache := store (lineOf c) (a + UInt32.ofNat i) b s.cache }) → J n s →
    wp (rxCache c A careful) (reads c) (storeBytes a bs) (fun _ => J (n + bs.length)) s
  | [], n, a, s, _, h => ret_rule (hJ n) (fun _ hs => hs) h
  | b :: bs, n, a, s, hstore, h => by
    refine op_rule (hJ n) (fun _ _ => trivial) (fun t ht => ?_) h
    rw [show n + (b :: bs).length = n + 1 + bs.length by simp; omega]
    refine wp_storeBytes hJ (fun i b' hb' u hu => ?_) ?_
    · have hi := hstore (i + 1) b' (by simpa using hb') u (by rwa [show n + (i + 1) = n + 1 + i by omega])
      rw [show a + 1 + UInt32.ofNat i = a + UInt32.ofNat (i + 1) by
        rw [UInt32.ofNat_add, UInt32.add_assoc, UInt32.add_comm 1]; rfl]
      rwa [show n + 1 + i + 1 = n + (i + 1) + 1 by omega]
    · have hb := hstore 0 b rfl t ht
      have ha : a + UInt32.ofNat 0 = a := by simp
      rw [ha] at hb
      exact hb

/-- The implementation of the accesses. -/
abbrev onCache (c : Platform) (q : Drv α) : Prog cacheSig α :=
  q.subst (S := edmaSig) (T := cacheSig) (cachedEdma c)

/-- The driver's own fields are its own. -/
theorem dev_stable (P : IpqEdmaDev → Prop) : Stable (rxCache c A careful) fun s => P s.dev := by
  intro s s' henv h
  rwa [(frame_env henv).dev]

/-! ### The ring is filled -/

/-- The ring is being filled, with nothing else of the driver changing. -/
def FillingOf (c : Platform) (careful : Prop) (d : IpqEdmaDev) (f : ℕ → UInt32) (n : ℕ)
    (s : RxWorld) : Prop :=
  Filling c careful n s ∧ s.dev = d ∧ s.netRxPackets = f

theorem fillingOf_stable {d : IpqEdmaDev} {f : ℕ → UInt32} (n : ℕ) :
    Stable (rxCache c A careful) (FillingOf c careful d f n) := by
  rintro s s' henv ⟨hs, hd, hf⟩
  have hfr := frame_env henv
  exact ⟨hs.env henv, hfr.dev.trans hd, hfr.bufs.trans hf⟩

theorem fillingOf_start (hl : Laid c noOfRxDesc s) (hi : Idle s) (hsafe : careful ∨ CleanBufs c s) :
    FillingOf c careful s.dev s.netRxPackets (sizeofEdmaRfd * 0) s :=
  ⟨⟨hl, hi, hsafe, Nat.zero_le _, fun x hx => absurd hx (Nat.not_lt_zero x)⟩, rfl, rfl⟩

/-- The descriptor of a buffer, byte by byte. -/
theorem rfdByte_of_bytes32 {i j : ℕ} {b : UInt8}
    (hb : (bytes32 (c.virtToPhys (s.netRxPackets i)))[j]? = some b) :
    j < sizeofEdmaRfd ∧ b = rfdByte c s (sizeofEdmaRfd * i + j) := by
  have hj : j < sizeofEdmaRfd := by
    obtain ⟨hlt, -⟩ := List.getElem?_eq_some_iff.mp hb
    simpa [bytes32, sizeofEdmaRfd] using hlt
  refine ⟨hj, ?_⟩
  have hdiv : (sizeofEdmaRfd * i + j) / sizeofEdmaRfd = i := by
    unfold sizeofEdmaRfd at *
    omega
  have hmod : (sizeofEdmaRfd * i + j) % sizeofEdmaRfd = j := by
    unfold sizeofEdmaRfd at *
    omega
  have hr : (List.range 4)[j]? = some j := by
    rw [List.getElem?_range]
    exact hj
  unfold rfdByte
  rw [hdiv, hmod]
  simpa [bytes32, hr] using hb.symm

theorem wp_fillRfds {d : IpqEdmaDev} {f : ℕ → UInt32} : ∀ (n i : ℕ) {s : RxWorld},
    i + n = noOfRxDesc → FillingOf c careful d f (sizeofEdmaRfd * i) s →
    wp (rxCache c A careful) (reads c) (onCache c (fillRfds c n i))
      (fun _ => FillingOf c careful d f (noOfRxDesc * sizeofEdmaRfd)) s
  | 0, i, s, hi, h => by
    have he : sizeofEdmaRfd * i = noOfRxDesc * sizeofEdmaRfd := by
      rw [← hi, Nat.add_zero, Nat.mul_comm]
    rw [he] at h
    exact ret_rule (fillingOf_stable _) (fun _ hs => hs) h
  | n + 1, i, s, hi, h => by
    refine op_rule (fillingOf_stable _) (fun _ _ => trivial) (fun t ht => ?_) h
    refine op_rule (fillingOf_stable _) (fun _ _ => trivial) (fun u hu => ?_) ht
    refine wp_bind (wp_mono (fun _ v hv => wp_fillRfds n (i + 1) (by omega) hv) ?_)
    have hlen : sizeofEdmaRfd * (i + 1) =
        sizeofEdmaRfd * i + (bytes32 (c.virtToPhys (t.netRxPackets i))).length := rfl
    rw [hlen]
    refine wp_storeBytes fillingOf_stable (fun j b hb v hv => ?_) hu
    obtain ⟨hv, hdev, hbufs⟩ := hv
    have hpkt : (step c A (.netRxPacket i) t).1 = v.netRxPackets i := by
      change t.netRxPackets i = _
      rw [ht.2.2, hbufs]
    rw [hpkt] at hb
    obtain ⟨hj, rfl⟩ := rfdByte_of_bytes32 hb
    have hbase : (step c A .getDev u).1.rfdRing + UInt32.ofNat (sizeofEdmaRfd * i) +
        UInt32.ofNat j = ringByte v (sizeofEdmaRfd * i + j) := by
      change u.dev.rfdRing + _ + _ = _
      unfold ringByte
      rw [UInt32.ofNat_add, ← UInt32.add_assoc, hdev, hu.2.1]
    refine ⟨?_, hdev, hbufs⟩
    rw [hbase]
    refine hv.store ?_
    unfold sizeofEdmaRfd noOfRxDesc at *
    omega

/-! ### It is written back and handed over -/

/-- The descriptors are in memory, and the EDMA has none. -/
structure Ready (c : Platform) (careful : Prop) (s : RxWorld) : Prop where
  laid : Laid c noOfRxDesc s
  idle : Idle s
  safe : careful ∨ CleanBufs c s
  rfds : ∀ x < noOfRxDesc * sizeofEdmaRfd,
    Settled (lineOf c) s.cache (ringByte s x) (rfdByte c s x)

theorem ready_stable : Stable (rxCache c A careful) (Ready c careful) := by
  intro s s' henv h
  have hf := frame_env henv
  refine ⟨h.laid.frame hf, idle_env h.idle henv, safe_env h.laid h.safe henv, fun x hx => ?_⟩
  have hr := h.laid.has_ringByte hx
  rw [hf.ringByte, hf.rfdByte]
  have hs := h.rfds x hx
  exact (holds_env h.idle h.laid.ring hr hs.holds henv).settled
    (not_dirty_env h.laid.ring h.laid.ringLined hr hs.clean henv)

/-- The EDMA has no descriptor, and the driver's own fields do not matter. -/
theorem Ready.modDev (h : Ready c careful s) (f : IpqEdmaDev → IpqEdmaDev)
    (hf : (f s.dev).rfdRing = s.dev.rfdRing) : Ready c careful { s with dev := f s.dev } := by
  have hring : ∀ x, ringByte { s with dev := f s.dev } x = ringByte s x := fun x => by
    unfold ringByte
    rw [← hf]
  refine ⟨h.laid.congr ?_ (fun _ => rfl) rfl, ⟨h.idle.idle, h.idle.cons, h.idle.wrote⟩, h.safe,
    fun x hx => ?_⟩
  · unfold ringBlock
    rw [← hf]
  · rw [hring]
    exact h.rfds x hx

/-- The ring is written back. -/
theorem wp_flush (hL : 0 < c.dcacheLineBytes)
    (h : Filling c careful (noOfRxDesc * sizeofEdmaRfd) s) {r : UInt32} (hr : s.dev.rfdRing = r) :
    wp (rxCache c A careful) (reads c) (cleanInvalidateByMva c r (noOfRxDesc * sizeofEdmaRfd))
      (fun _ => Ready c careful) s := by
  have hstable : ∀ t, Stable (rxCache c A careful)
      (fun s => Flushing c careful t s ∧ s.dev.rfdRing = r) := by
    rintro t s s' henv ⟨hs, hring⟩
    exact ⟨hs.env henv, by rw [(frame_env henv).dev, hring]⟩
  refine wp_mono ?_ (wp_range' hstable (fun _ _ _ => trivial) (fun t _ s hs => ?_) (s := s) ?_)
  · rintro - u ⟨⟨hf, hclean⟩, rfl⟩
    refine ⟨hf.laid, hf.idle, hf.safe, fun x hx => (hf.filled x hx).settled (hclean x hx ?_)⟩
    exact (lineOf_mem hL (hf.laid.has_ringByte hx)).2
  · refine op_rule (hstable t) (fun _ _ => trivial) (fun u hu => ?_) hs
    refine ret_rule (hstable (t + 1)) (fun _ hv => hv) ⟨hu.1.line ?_, hu.2⟩
    rw [hu.2]
  · refine ⟨⟨h, fun x hx hlt => ?_⟩, hr⟩
    have := (lineOf_mem hL (h.laid.has_ringByte hx)).1
    change s.dev.rfdRing.toNat / _ ≤ _ at this
    omega

/-- The EDMA has let go of at least `k₀` descriptors. -/
def Serves (c : Platform) (careful : Prop) (t h k₀ p : ℕ) (s : RxWorld) : Prop :=
  ∃ k ≥ k₀, Serving c careful t h k p s

theorem serves_stable {t h k₀ p : ℕ} :
    Stable (rxCache c A careful) (Serves c careful t h k₀ p) := by
  rintro s s' henv ⟨k, hk, hs⟩
  obtain ⟨k', hk', hs'⟩ := hs.env henv
  exact ⟨k', le_trans hk hk', hs'⟩

/-- **The hand-over.** -/
theorem wp_initRfdRing (hL : 0 < c.dcacheLineBytes) (hl : Laid c noOfRxDesc s) (hi : Idle s)
    (hsafe : careful ∨ CleanBufs c s) :
    wp (rxCache c A careful) (reads c) (onCache c (edmaInitRfdRing c))
      (fun _ => Serves c careful 0 511 0 511) s := by
  unfold onCache edmaInitRfdRing
  rw [subst_bind]
  refine wp_bind (wp_mono (fun _ t ht => ?_) (wp_fillRfds noOfRxDesc 0 (Nat.zero_add _)
    (fillingOf_start hl hi hsafe)))
  refine op_rule (fillingOf_stable _) (fun _ _ => trivial) (fun u hu => ?_) ht
  refine wp_bind (p := cleanInvalidateByMva c u.dev.rfdRing _)
    (wp_mono (fun _ v hv => ?_) (wp_flush hL hu.1 rfl))
  refine op_rule ready_stable (fun _ _ => trivial) (fun w hw => ?_) hv
  have hhead : Stable (rxCache c A careful)
      (fun s => Ready c careful s ∧ s.dev.rfdHead = UInt16.ofNat (noOfRxDesc - 1)) :=
    ready_stable.and (dev_stable fun d => d.rfdHead = UInt16.ofNat (noOfRxDesc - 1))
  refine op_rule hhead (fun _ _ => trivial) (fun x hx => ?_)
    ⟨hw.modDev (fun p => { p with rfdHead := UInt16.ofNat (noOfRxDesc - 1) }) rfl, rfl⟩
  have hboth : Stable (rxCache c A careful)
      (fun s => Ready c careful s ∧ s.dev.rfdHead = UInt16.ofNat (noOfRxDesc - 1) ∧
        s.dev.rfdTail = 0) :=
    ready_stable.and (dev_stable fun d => d.rfdHead = UInt16.ofNat (noOfRxDesc - 1) ∧ d.rfdTail = 0)
  refine op_rule hboth (fun _ _ => trivial) (fun y hy => ?_) 
    ⟨hx.1.modDev (fun p => { p with rfdTail := 0 }) rfl, hx.2, rfl⟩
  refine op_rule hboth (fun _ _ => trivial) (fun z hz => ?_) hy
  refine ret_rule serves_stable (fun _ h => h) ?_
  obtain ⟨⟨hlaid, hidle, hsafe, hrfds⟩, hzh, hzt⟩ := hz
  refine ⟨z.rfdCons.val, Nat.zero_le _, hlaid.congr rfl (fun _ => rfl) rfl, hsafe, ?_, hrfds, ?_⟩
  · have hcons : z.rfdCons.val < 512 := hidle.cons
    refine ⟨?_, ?_, (Nat.mod_eq_of_lt hcons).symm, ?_, Nat.zero_le _, by omega, by decide⟩
    · change z.dev.rfdTail.toNat = _
      rw [hzt]
      rfl
    · change z.dev.rfdHead.toNat = _
      rw [hzh]
      rfl
    · change y.dev.rfdHead.toUInt32.toNat % 4096 = _
      rw [hy.2.1]
      rfl
  · intro a v ha
    have hno : some v = none := ha.symm.trans (hidle.wrote a)
    exact nomatch hno

/-! ### A frame is received -/

section Recv

variable {t h p : ℕ}

/-- The EDMA has let go of the buffer at the tail, and the processor reads what is in memory there. -/
structure Reading (c : Platform) (careful : Prop) (t h p : ℕ) (s : RxWorld) : Prop where
  serves : Serves c careful t h (t + 1) p s
  fresh : ∀ a, (buf s (t % noOfRxDesc)).Has a → Fresh c s a

theorem reading_stable : Stable (rxCache c A careful) (Reading c careful t h p) := by
  rintro s s' henv ⟨⟨k, hk, hs⟩, hf⟩
  obtain ⟨k', hk', hs'⟩ := hs.env henv
  refine ⟨⟨k', by omega, hs'⟩, fun a ha => ?_⟩
  rw [(frame_env henv).buf] at ha
  exact hs.fresh_env hk ha (hf a ha) henv

/-- The first `n` lines of the buffer are invalidated. -/
structure Invalidating (c : Platform) (careful : Prop) (t h p : ℕ) (pkt : UInt32) (n : ℕ)
    (s : RxWorld) : Prop where
  serves : Serves c careful t h (t + 1) p s
  packet : s.netRxPackets (t % noOfRxDesc) = pkt
  fresh : ∀ a, (buf s (t % noOfRxDesc)).Has a →
    lineOf c a < pkt.toNat / c.dcacheLineBytes + n → Fresh c s a

theorem invalidating_stable {pkt : UInt32} (n : ℕ) :
    Stable (rxCache c A careful) (Invalidating c careful t h p pkt n) := by
  rintro s s' henv ⟨⟨k, hk, hs⟩, hpkt, hf⟩
  obtain ⟨k', hk', hs'⟩ := hs.env henv
  refine ⟨⟨k', by omega, hs'⟩, (congrFun (frame_env henv).bufs _).trans hpkt, fun a ha hlt => ?_⟩
  rw [(frame_env henv).buf] at ha
  exact hs.fresh_env hk ha (hf a ha hlt) henv

theorem wp_invalidate (hL : 0 < c.dcacheLineBytes) {pkt : UInt32}
    (hs : Serves c careful t h (t + 1) p s) (hpkt : s.netRxPackets (t % noOfRxDesc) = pkt) :
    wp (rxCache c A careful) (reads c) (invalidateByMva c pkt edmaRxBufSize)
      (fun _ => Reading c careful t h p) s := by
  refine wp_mono ?_ (wp_range' (I := Invalidating c careful t h p pkt) invalidating_stable
    (fun _ _ _ => trivial) (fun n _ s hs => ?_) ?_)
  · rintro - u ⟨hu, rfl, hf⟩
    exact ⟨hu, fun a ha => hf a ha (lineOf_mem hL ha).2⟩
  · refine op_rule (invalidating_stable n) (fun _ _ => trivial) (fun u hu => ?_) hs
    refine ret_rule (invalidating_stable (n + 1)) (fun _ hv => hv) ?_
    obtain ⟨⟨k, hk, hu⟩, hpkt, hf⟩ := hu
    refine ⟨⟨k, hk, hu.invalidate _⟩, hpkt, fun a ha hlt => fresh_invalidate ?_⟩
    by_cases ha' : lineOf c a = pkt.toNat / c.dcacheLineBytes + n
    · exact Or.inl ha'
    · exact Or.inr (hf a ha (by omega))
  · refine ⟨hs, hpkt, fun a ha hlt => ?_⟩
    have := (lineOf_mem hL ha).1
    change (s.netRxPackets _).toNat / _ ≤ _ at this
    rw [hpkt] at this
    omega

/-- **Every byte of the buffer is read right.** -/
theorem Reading.right (hr : Reading c careful t h p s) (a : UInt32) :
    RightRead c (.loadByte a) s := by
  obtain ⟨⟨k, hk, hs⟩, hf⟩ := hr
  rintro i hi rfl v hv
  refine hs.view_eq (hf _ ?_) hv
  unfold tailBuf
  rw [hs.pos.tail]
  exact has_add (hs.laid.bufLined _ (Nat.mod_lt _ (by decide))) hi

def IsLoad (o : CacheOp) : Prop := ∃ a, o = .loadByte a

theorem loadBytes_uses : ∀ (n : ℕ) (a : UInt32), (loadBytes a n).Uses IsLoad
  | 0, _ => trivial
  | n + 1, a => ⟨⟨a, rfl⟩, fun _ =>
      uses_bind (p := loadBytes (a + 1) n) (loadBytes_uses n (a + 1)) fun _ => trivial⟩

theorem load16_uses (a : UInt32) : (cachedEdma c (.load16 a)).Uses IsLoad :=
  ⟨⟨a, rfl⟩, fun _ => ⟨⟨a + 1, rfl⟩, fun _ => trivial⟩⟩

/-- Loads. -/
theorem wp_loads {q : Prog cacheSig α} (hq : q.Uses IsLoad) (hr : Reading c careful t h p s) :
    wp (rxCache c A careful) (reads c) q (fun _ => Reading c careful t h p) s := by
  refine wp_of_uses reading_stable (fun _ _ => trivial) ?_ ?_ hq hr
  · rintro o s ⟨a, rfl⟩ hs
    exact hs.right a
  · rintro o s ⟨a, rfl⟩ hs
    exact reading_stable (A := A) _ _ (.fill (lineOf c a)) hs

/-- The producer index is written. -/
theorem doorbell_serving {k h' : ℕ} {x : Fin 4096} (hs : Serving c careful t h k p s) (hp : p ≤ h')
    (hlap : h' < t + noOfRxDesc) (hx : x.val = h' % noOfRxDesc) :
    Serving c careful t h k h' { s with rfdProd := x } := by
  obtain ⟨h₁, h₂, h₃, -, h₅, h₆, -⟩ := hs.pos
  exact ⟨hs.laid.congr rfl (fun _ => rfl) rfl, hs.safe, ⟨h₁, h₂, h₃, hx, h₅, h₆.trans hp, hlap⟩,
    hs.rfds, hs.wrote⟩

theorem head_serving {k : ℕ} (hs : Serving c careful t h k p s) :
    Serving c careful t (h + 1) k p
      { s with dev := { s.dev with rfdHead := bump noOfRxDesc s.dev.rfdHead } } := by
  obtain ⟨h₁, h₂, h₃, h₄, h₅, h₆, h₇⟩ := hs.pos
  refine ⟨hs.laid.congr rfl (fun _ => rfl) rfl, hs.safe, ⟨h₁, ?_, h₃, h₄, h₅, h₆, h₇⟩, hs.rfds,
    hs.wrote⟩
  exact toNat_bump_of_mod h₂ (by decide) (by decide)

theorem tail_serving {k : ℕ} (hs : Serving c careful t h k p s) (hk : t < k) :
    Serving c careful (t + 1) h k p
      { s with dev := { s.dev with rfdTail := bump noOfRxDesc s.dev.rfdTail } } := by
  obtain ⟨h₁, h₂, h₃, h₄, h₅, h₆, h₇⟩ := hs.pos
  refine ⟨hs.laid.congr rfl (fun _ => rfl) rfl, hs.safe, ⟨?_, h₂, h₃, h₄, hk, h₆, by omega⟩, hs.rfds,
    hs.wrote⟩
  exact toNat_bump_of_mod h₁ (by decide) (by decide)

/-- The other registers do not matter. -/
theorem reg_serving {k : ℕ} (hs : Serving c careful t h k p s) (r : EdmaReg → UInt32) :
    Serving c careful t h k p { s with reg := r } :=
  ⟨hs.laid.congr rfl (fun _ => rfl) rfl, hs.safe, hs.pos.congr rfl rfl rfl, hs.rfds, hs.wrote⟩

/-- **The descriptor at the tail is given back.** -/
theorem wp_recycle (hp : p ≤ t + 511) (hs : Serves c careful t (t + 511) (t + 1) p s) :
    wp (rxCache c A careful) (reads c) (onCache c recycle)
      (fun _ => Serves c careful (t + 1) (t + 512) (t + 1) (t + 511)) s := by
  refine op_rule serves_stable (fun _ _ => trivial) (fun u hu => ?_) hs
  have hhead : u.dev.rfdHead.toNat = (t + 511) % noOfRxDesc := by
    obtain ⟨k, -, hu⟩ := hu
    exact hu.pos.head
  refine op_rule serves_stable (fun _ _ => trivial) (fun v hv => ?_) hu
  have hdoorbell : Serves c careful t (t + 511) (t + 1) (t + 511)
      (v.writeReg u.dev.rfdHead.toUInt32 .rfdIdxQ) := by
    obtain ⟨k, hk, hv⟩ := hv
    refine ⟨k, hk, doorbell_serving hv hp (by unfold noOfRxDesc; omega) ?_⟩
    change u.dev.rfdHead.toUInt32.toNat % 4096 = _
    rw [UInt16.toNat_toUInt32, hhead]
    exact Nat.mod_eq_of_lt ((Nat.mod_lt _ (by decide)).trans (by decide : noOfRxDesc < 4096))
  refine op_rule serves_stable (fun _ _ => trivial) (fun w hw => ?_) hdoorbell
  have hbump : Serves c careful t (t + 512) (t + 1) (t + 511)
      { w with dev := { w.dev with rfdHead := bump noOfRxDesc w.dev.rfdHead } } := by
    obtain ⟨k, hk, hw⟩ := hw
    exact ⟨k, hk, head_serving hw⟩
  refine op_rule serves_stable (fun _ _ => trivial) (fun x hx => ?_) hbump
  have htail : Serves c careful (t + 1) (t + 512) (t + 1) (t + 511)
      { x with dev := { x.dev with rfdTail := bump noOfRxDesc x.dev.rfdTail } } := by
    obtain ⟨k, hk, hx⟩ := hx
    exact ⟨k, hk, tail_serving hx hk⟩
  refine op_rule serves_stable (fun _ _ => trivial) (fun y hy => ?_) htail
  refine op_rule serves_stable (fun _ _ => trivial) (fun z hz => ?_) hy
  obtain ⟨k, hk, hz⟩ := hz
  exact ret_rule serves_stable (fun _ h => h) ⟨k, hk, reg_serving hz _⟩

/-- Between two calls. -/
def Between (c : Platform) (careful : Prop) (t : ℕ) (s : RxWorld) : Prop :=
  ∃ p ≤ t + 511, Serves c careful t (t + 511) t p s

theorem between_stable : Stable (rxCache c A careful) (Between c careful t) := by
  rintro s s' henv ⟨p, hp, hs⟩
  exact ⟨p, hp, serves_stable (A := A) _ _ henv hs⟩

theorem between_of_serves (hp : p ≤ t + 511) {k : ℕ} (hk : t ≤ k)
    (hs : Serves c careful t (t + 511) k p s) : Between c careful t s := by
  obtain ⟨k', hk', hs⟩ := hs
  exact ⟨p, hp, k', hk.trans hk', hs⟩

theorem wp_rxCopy (hp : p ≤ t + 511) (m : Int) (pkt : UInt32)
    (hr : Reading c careful t (t + 511) p s) :
    wp (rxCache c A careful) (reads c) (onCache c (rxCopy m pkt))
      (fun _ => Between c careful (t + 1)) s := by
  refine wp_bind (p := cachedEdma c (.load16 (pkt + UInt32.ofNat offsetofRrd6)))
    (wp_mono (fun rrd6 u hu => ?_) (wp_loads (load16_uses _) hr))
  refine wp_bind (p := loadBytes _ _) (wp_mono (fun bytes v hv => ?_) (wp_loads (loadBytes_uses _ _) hu))
  change wp _ _ (onCache c (recycle >>= fun _ => _)) _ v
  unfold onCache
  rw [subst_bind]
  refine wp_bind (wp_mono (fun _ w hw => ?_) (wp_recycle hp hv.serves))
  exact ret_rule between_stable (fun _ h => h) (between_of_serves (by omega) le_rfl hw)

theorem wp_rxTake (hL : 0 < c.dcacheLineBytes) (hp : p ≤ t + 511) (m : Int) {tail : UInt16}
    (ht : tail.toNat = t % noOfRxDesc) (hs : Serves c careful t (t + 511) (t + 1) p s) :
    wp (rxCache c A careful) (reads c) (onCache c (rxTake m tail))
      (fun _ s => Between c careful t s ∨ Between c careful (t + 1) s) s := by
  refine op_rule serves_stable (fun _ _ => trivial) (fun u hu => ?_) hs
  refine wp_bind (p := invalidateByMva c _ _)
    (wp_mono (fun _ v hv => ?_) (wp_invalidate hL hu (ht ▸ rfl)))
  refine wp_bind (p := cachedEdma c (.load16 _))
    (wp_mono (fun (rrd7 : UInt16) w hw => ?_) (wp_loads (load16_uses _) hv))
  change wp _ _ (onCache c (if rrd7 &&& edmaRrd7DescValid = 0 then _ else _)) _ w
  by_cases hvalid : rrd7 &&& edmaRrd7DescValid = 0
  · rw [if_pos hvalid]
    exact ret_rule reading_stable
      (fun _ h => Or.inl (between_of_serves hp (Nat.le_succ t) h.serves)) hw
  · rw [if_neg hvalid]
    exact wp_mono (fun _ _ h => Or.inr h) (wp_rxCopy hp m _ hw)

/-- The index that the driver reads. -/
theorem readReg_cons (s : RxWorld) :
    ((s.readReg .rfdIdxQ >>> edmaRfdConsIdxShift) &&& edmaRfdConsIdxMask).toNat = s.rfdCons.val :=
  Device.rfdCons_field { Device.World.cold 0 0 fun _ => 0 with
    hw := ⟨0, 0, s.rfdProd, s.rfdCons, fun _ => 0, []⟩ }

/-- **A call** consumes a frame or leaves things as they were. -/
theorem wp_recv (hL : 0 < c.dcacheLineBytes) (m : Int) (hs : Between c careful t s) :
    wp (rxCache c A careful) (reads c) (onCache c (ipq4019EthRecv m))
      (fun _ s => Between c careful t s ∨ Between c careful (t + 1) s) s := by
  obtain ⟨p, hp, hs⟩ := hs
  refine op_rule serves_stable (fun _ _ => trivial) (fun u hu => ?_) hs
  obtain ⟨k, hk, hu⟩ := hu
  have hnow : Serves c careful t (t + 511) k p u := ⟨k, le_rfl, hu⟩
  refine op_rule serves_stable (fun _ _ => trivial) (fun v hv => ?_) hnow
  obtain ⟨k', hk', hv⟩ := hv
  change wp _ _ (onCache c (if (u.readReg .rfdIdxQ >>> edmaRfdConsIdxShift &&&
    edmaRfdConsIdxMask).toNat = v.dev.rfdTail.toNat then _ else _)) _ v
  rw [readReg_cons, hu.pos.cons, hv.pos.tail]
  by_cases hempty : k % noOfRxDesc = t % noOfRxDesc
  · rw [if_pos hempty]
    exact ret_rule serves_stable
      (fun _ h => Or.inl (between_of_serves hp hk h)) ⟨k', hk', hv⟩
  · rw [if_neg hempty]
    have hne : k ≠ t := fun he => hempty (by rw [he])
    exact wp_rxTake hL hp m hv.pos.tail ⟨k', by omega, hv⟩

/-- **Any sequence of calls.** -/
theorem wp_recvs (hL : 0 < c.dcacheLineBytes) : ∀ (ms : List Int) {t : ℕ} {s : RxWorld},
    Between c careful t s →
    wp (rxCache c A careful) (reads c) (onCache c (recvs ms))
      (fun _ s => ∃ t, Between c careful t s) s
  | [], t, s, hs => ret_rule between_stable (fun _ h => ⟨t, h⟩) hs
  | m :: ms, t, s, hs => by
    have hrest : ∀ {t : ℕ} {s : RxWorld} {r : RecvOut}, Between c careful t s →
        wp (rxCache c A careful) (reads c) (onCache c (recvs ms >>= fun rs => pure (r :: rs)))
          (fun _ s => ∃ t, Between c careful t s) s := by
      intro t s r h
      unfold onCache
      rw [subst_bind]
      refine wp_bind (wp_mono (fun _ u hu => ?_) (wp_recvs hL ms h))
      obtain ⟨t', hu⟩ := hu
      exact ret_rule between_stable (fun _ h => ⟨t', h⟩) hu
    change wp _ _ (onCache c (ipq4019EthRecv m >>= fun r => _)) _ s
    unfold onCache
    rw [subst_bind]
    refine wp_bind (wp_mono (fun r u hu => ?_) (wp_recv hL m hs))
    rcases hu with hu | hu
    · exact hrest hu
    · exact hrest hu

end Recv

/-- The hand-over and the calls after it. -/
theorem wp_serve (hL : 0 < c.dcacheLineBytes) (ms : List Int) (hl : Laid c noOfRxDesc s)
    (hi : Idle s) (hsafe : careful ∨ CleanBufs c s) :
    wp (rxCache c A careful) (reads c) (serve c ms) (fun _ _ => True) s := by
  refine wp_bind (wp_mono (fun _ t ht => ?_) (wp_initRfdRing hL hl hi hsafe))
  have hbetween : Between c careful 0 t := between_of_serves le_rfl le_rfl ht
  exact wp_mono (fun _ _ _ => trivial) (wp_recvs hL ms hbetween)

/-! ### The allocation -/

/-- The ring and the first `n` buffers are there, and the EDMA has nothing. -/
def Allocated (c : Platform) (n : ℕ) (s : RxWorld) : Prop := Laid c n s ∧ Idle s

theorem allocated_stable (n : ℕ) : Stable (rxCache c A careful) (Allocated c n) :=
  fun _ _ henv h => ⟨h.1.frame (frame_env henv), idle_env h.2 henv⟩

theorem idle_stable : Stable (rxCache c A careful) Idle := fun _ _ henv h => idle_env h henv

theorem lined_place (A : Allocator) {bs : List Block} {size : ℕ}
    (hne : A.place bs c.dcacheLineBytes size ≠ 0) (hsize : c.dcacheLineBytes ∣ size) :
    Lined c.dcacheLineBytes ⟨A.place bs c.dcacheLineBytes size, size⟩ :=
  ⟨A.aligned _ _ _, hsize, A.fits _ _ _ hne⟩

theorem mem_give {a : UInt32} {size : ℕ} (ha : a ≠ 0) : ⟨a, size⟩ ∈ (s.give a size).blocks := by
  unfold RxWorld.give
  rw [if_neg ha]
  exact List.mem_cons_self

theorem blocks_give {a : UInt32} {size : ℕ} {b : Block} (hb : b ∈ s.blocks) :
    b ∈ (s.give a size).blocks := by
  unfold RxWorld.give
  split
  · exact hb
  · exact List.mem_cons_of_mem _ hb

theorem laid_give {n : ℕ} (h : Laid c n s) (a : UInt32) (size : ℕ) : Laid c n (s.give a size) :=
  ⟨blocks_give h.ring, h.ringLined, fun j hj => blocks_give (h.bufs j hj), h.bufLined, h.ringApart,
    h.apart⟩

theorem idle_give (h : Idle s) (a : UInt32) (size : ℕ) : Idle (s.give a size) :=
  ⟨h.idle, h.cons, h.wrote⟩

/-- A block for the next buffer. -/
structure Spare (c : Platform) (n : ℕ) (a : UInt32) (s : RxWorld) : Prop where
  mem : ⟨a, edmaRxBufSize⟩ ∈ s.blocks
  lined : Lined c.dcacheLineBytes ⟨a, edmaRxBufSize⟩
  ringApart : (ringBlock s).Apart ⟨a, edmaRxBufSize⟩
  apart : ∀ j < n, (buf s j).Apart ⟨a, edmaRxBufSize⟩

theorem spare_stable {n : ℕ} {a : UInt32} :
    Stable (rxCache c A careful) fun s => a ≠ 0 → Spare c n a s := by
  intro s s' henv h ha
  have hf := frame_env henv
  obtain ⟨h₁, h₂, h₃, h₄⟩ := h ha
  exact ⟨hf.blocks ▸ h₁, h₂, hf.ringBlock ▸ h₃, fun j hj => hf.buf j ▸ h₄ j hj⟩

theorem block_apart_symm {b b' : Block} (h : b.Apart b') : b'.Apart b := Or.symm h

/-- **One more buffer.** -/
theorem laid_setNetRxPacket {n : ℕ} {a : UInt32} (h : Laid c n s) (ha : Spare c n a s) :
    Laid c (n + 1) { s with netRxPackets := Function.update s.netRxPackets n a } := by
  have hbuf : ∀ j, buf { s with netRxPackets := Function.update s.netRxPackets n a } j =
      if j = n then ⟨a, edmaRxBufSize⟩ else buf s j := by
    intro j
    unfold buf
    by_cases hj : j = n
    · rw [if_pos hj, hj]
      exact congrArg (Block.mk · edmaRxBufSize) (Function.update_self n a s.netRxPackets)
    · rw [if_neg hj]
      exact congrArg (Block.mk · edmaRxBufSize) (Function.update_of_ne hj a s.netRxPackets)
  refine ⟨h.ring, h.ringLined, fun j hj => ?_, fun j hj => ?_, fun j hj => ?_, fun i hi j hj hij => ?_⟩
  · rw [hbuf]
    split
    · exact ha.mem
    · exact h.bufs j (by omega)
  · rw [hbuf]
    split
    · exact ha.lined
    · exact h.bufLined j (by omega)
  · rw [hbuf]
    split
    · exact ha.ringApart
    · exact h.ringApart j (by omega)
  · rw [hbuf, hbuf]
    split_ifs with h₁ h₂ h₂
    · omega
    · exact block_apart_symm (ha.apart j (by omega))
    · exact ha.apart i (by omega)
    · exact h.apart i (by omega) j (by omega) hij

/-- The implementation of the accesses of the allocation. -/
abbrev onAllocCache (c : Platform) (q : AllocDrv α) : Prog cacheSig α :=
  q.subst (S := allocSig) (T := cacheSig) (cached c)

theorem wp_resetIndices {n : ℕ} (h : Allocated c n s) :
    wp (rxCache c A careful) (reads c) (onAllocCache c (onAlloc resetIndices))
      (fun _ => Allocated c n) s := by
  have hmod : ∀ {s : RxWorld}, Allocated c n s → ∀ f : IpqEdmaDev → IpqEdmaDev,
      (f s.dev).rfdRing = s.dev.rfdRing → Allocated c n { s with dev := f s.dev } := by
    intro s hs f hf
    refine ⟨hs.1.congr ?_ (fun _ => rfl) rfl, ⟨hs.2.idle, hs.2.cons, hs.2.wrote⟩⟩
    unfold ringBlock
    rw [← hf]
  refine op_rule (allocated_stable n) (fun _ _ => trivial) (fun t ht => ?_) h
  refine op_rule (allocated_stable n) (fun _ _ => trivial) (fun u hu => ?_)
    (hmod ht (fun p => { p with tpdTail := 0 }) rfl)
  refine op_rule (allocated_stable n) (fun _ _ => trivial) (fun v hv => ?_)
    (hmod hu (fun p => { p with tpdHead := 0 }) rfl)
  refine op_rule (allocated_stable n) (fun _ _ => trivial) (fun w hw => ?_)
    (hmod hv (fun p => { p with rfdTail := 0 }) rfl)
  exact ret_rule (allocated_stable n) (fun _ hx => hx)
    (hmod hw (fun p => { p with rfdHead := 0 }) rfl)

theorem wp_allocBufs (hc : c.dcacheLineBytes ∣ edmaRxBufSize) : ∀ (n i : ℕ) {s : RxWorld},
    i + n = noOfRxDesc → Allocated c i s →
    wp (rxCache c A careful) (reads c) (onAllocCache c (allocBufs c n i))
      (fun r s => r = 0 → Allocated c noOfRxDesc s) s
  | 0, i, s, hi, h => by
    unfold onAllocCache allocBufs
    rw [subst_bind]
    refine wp_bind (wp_mono (fun _ t ht => ?_) (wp_resetIndices h))
    refine ret_rule (allocated_stable i) (fun u hu _ => ?_) ht
    rw [← hi]
    exact hu
  | n + 1, i, s, hi, h => by
    refine op_rule (allocated_stable i) (fun _ _ => trivial) (fun t ht => ?_) h
    have hspare : A.place t.blocks c.dcacheLineBytes edmaRxBufSize ≠ 0 →
        Spare c i (A.place t.blocks c.dcacheLineBytes edmaRxBufSize)
          (t.give (A.place t.blocks c.dcacheLineBytes edmaRxBufSize) edmaRxBufSize) := fun hne =>
      ⟨mem_give hne, lined_place A hne hc, block_apart_symm (A.apart _ _ _ hne _ ht.1.ring),
        fun j hj => block_apart_symm (A.apart _ _ _ hne _ (ht.1.bufs j hj))⟩
    have hboth : Stable (rxCache c A careful) fun s => Allocated c i s ∧
        (A.place t.blocks c.dcacheLineBytes edmaRxBufSize ≠ 0 →
          Spare c i (A.place t.blocks c.dcacheLineBytes edmaRxBufSize) s) :=
      (allocated_stable i).and spare_stable
    refine op_rule hboth (fun _ _ => trivial) (fun u hu => ?_)
      ⟨⟨laid_give ht.1 _ _, idle_give ht.2 _ _⟩, hspare⟩
    change wp _ _ (onAllocCache c
      (if A.place t.blocks c.dcacheLineBytes edmaRxBufSize = 0 then _ else _)) _ _
    by_cases hzero : A.place t.blocks c.dcacheLineBytes edmaRxBufSize = 0
    · rw [if_pos hzero]
      refine ret_rule (I := fun _ => True) (fun _ _ _ _ => trivial) (fun _ _ hr => ?_) trivial
      exact absurd hr (by decide)
    · rw [if_neg hzero]
      exact wp_allocBufs hc n (i + 1) (by omega)
        ⟨laid_setNetRxPacket hu.1.1 (hu.2 hzero), ⟨hu.1.2.idle, hu.1.2.cons, hu.1.2.wrote⟩⟩

/-- Clearing a block does not matter. -/
theorem wp_clear {n : ℕ} (a : UInt32) (m : ℕ) (h : Allocated c n s) :
    wp (rxCache c A careful) (reads c) (storeBytes a (List.replicate m 0))
      (fun _ => Allocated c n) s :=
  wp_storeBytes (J := fun _ => Allocated c n) (n := 0) (fun _ => allocated_stable n)
    (fun _ _ _ _ hs => ⟨hs.1.congr rfl (fun _ => rfl) rfl, ⟨hs.2.idle, hs.2.cons, hs.2.wrote⟩⟩) h

/-- A ring of whole lines. -/
theorem alignUp_ring (hc : c.dcacheLineBytes ∣ edmaRxBufSize) :
    alignUp (noOfRxDesc * sizeofEdmaRfd) c.dcacheLineBytes = noOfRxDesc * sizeofEdmaRfd := by
  obtain ⟨q, hq⟩ := hc
  have hL : 0 < c.dcacheLineBytes := by
    by_contra h0
    have : c.dcacheLineBytes = 0 := by omega
    rw [this] at hq
    exact absurd hq (by simp [edmaRxBufSize])
  have hsize : noOfRxDesc * sizeofEdmaRfd = c.dcacheLineBytes * q := hq
  unfold alignUp
  rw [hsize, Nat.add_sub_assoc (by omega), Nat.mul_add_div hL, Nat.div_eq_of_lt (by omega),
    Nat.add_zero, Nat.mul_comm]

theorem wp_allocRings (hc : c.dcacheLineBytes ∣ edmaRxBufSize) (h : Idle s) :
    wp (rxCache c A careful) (reads c) (onAllocCache c (edmaAllocRings c))
      (fun r s => r = 0 → Allocated c noOfRxDesc s) s := by
  refine op_rule idle_stable (fun _ _ => trivial) (fun t ht => ?_) h
  refine op_rule idle_stable (fun _ _ => trivial) (fun u hu => ?_) (idle_give ht _ _)
  refine op_rule idle_stable (fun _ _ => trivial) (fun v hv => ?_)
    (show Idle { u with dev := _ } from ⟨hu.idle, hu.cons, hu.wrote⟩)
  rw [alignUp_ring hc]
  have hring : Stable (rxCache c A careful) fun s => Idle s ∧
      (A.place v.blocks c.dcacheLineBytes (noOfRxDesc * sizeofEdmaRfd) ≠ 0 →
        ⟨A.place v.blocks c.dcacheLineBytes (noOfRxDesc * sizeofEdmaRfd),
          noOfRxDesc * sizeofEdmaRfd⟩ ∈ s.blocks) := by
    rintro s s' henv ⟨hs, hb⟩
    exact ⟨idle_env hs henv, fun hne => (frame_env henv).blocks ▸ hb hne⟩
  refine op_rule hring (fun _ _ => trivial) (fun w hw => ?_) ⟨idle_give hv _ _, mem_give⟩
  change wp _ _ (onAllocCache c (if A.place t.blocks _ _ = 0 ∨
    A.place v.blocks c.dcacheLineBytes (noOfRxDesc * sizeofEdmaRfd) = 0 then _ else _)) _ _
  by_cases hzero : A.place t.blocks c.dcacheLineBytes
      (alignUp (noOfTxDesc * sizeofEdmaTpd) c.dcacheLineBytes) = 0 ∨
        A.place v.blocks c.dcacheLineBytes (noOfRxDesc * sizeofEdmaRfd) = 0
  · rw [if_pos hzero]
    refine ret_rule (I := fun _ => True) (fun _ _ _ _ => trivial) (fun _ _ hr => ?_) trivial
    exact absurd hr (by decide)
  · rw [if_neg hzero]
    have hne := (not_or.mp hzero).2
    have hgot : Allocated c 0 { w with dev := { w.dev with
        rfdRing := A.place v.blocks c.dcacheLineBytes (noOfRxDesc * sizeofEdmaRfd) } } := by
      refine ⟨⟨hw.2 hne, lined_place A hne hc, ?_, ?_, ?_, ?_⟩, hw.1.idle, hw.1.cons, hw.1.wrote⟩
      all_goals intro j hj; exact absurd hj (Nat.not_lt_zero j)
    refine wp_bind (p := storeBytes _ _) (wp_mono (fun _ x hx => ?_) (wp_clear _ _ hgot))
    refine wp_bind (p := storeBytes _ _) (wp_mono (fun _ y hy => ?_) (wp_clear _ _ hx))
    exact wp_allocBufs hc noOfRxDesc 0 (Nat.zero_add _) hy

theorem wp_session (hc : c.dcacheLineBytes ∣ edmaRxBufSize) (ms : List Int) (hsafe : careful)
    (h : Idle s) : wp (rxCache c A careful) (reads c) (session c ms) (fun _ _ => True) s := by
  have hL : 0 < c.dcacheLineBytes := Nat.pos_of_dvd_of_pos hc (by decide)
  refine wp_bind (wp_mono (fun (r : Int) t ht => ?_) (wp_allocRings hc h))
  by_cases hr : r = 0
  · rw [if_pos hr]
    exact wp_serve hL ms (ht hr).1 (ht hr).2 (Or.inl hsafe)
  · rw [if_neg hr]
    exact ret_rule (I := fun _ => True) (fun _ _ _ _ => trivial) (fun _ _ => trivial) trivial

/-- **Every byte that `ipq4019_eth_recv` reads from a buffer is read as the EDMA wrote it**, if no
eviction writes other bytes over those of the EDMA. -/
theorem reads_right (c : Platform) (A : Allocator) (hc : c.dcacheLineBytes ∣ edmaRxBufSize)
    (s : RxWorld) (hs : Start s) (ms : List Int) {l : List (CacheOp × RxWorld)} {s' : RxWorld}
    {q : Prog cacheSig (List RecvOut)} (h : Run (rxCache c A True) s (session c ms) l s' q) :
    ∀ x ∈ l, RightRead c x.1 x.2 :=
  ok_run (wp_session hc ms trivial ⟨hs.idle, hs.cons, hs.wrote⟩) h fun _ _ => trivial

/-- **It is, with any evictions**, if no line of a buffer is dirty when the ring is handed over. -/
theorem reads_right_of_clean (c : Platform) (A : Allocator) (hL : 0 < c.dcacheLineBytes)
    (s : RxWorld) (hl : Laid c noOfRxDesc s) (hi : Idle s) (hclean : CleanBufs c s) (ms : List Int)
    {l : List (CacheOp × RxWorld)} {s' : RxWorld} {q : Prog cacheSig (List RecvOut)}
    (h : Run (rxCache c A False) s (serve c ms) l s' q) : ∀ x ∈ l, RightRead c x.1 x.2 :=
  ok_run (wp_serve hL ms hl hi (Or.inr hclean)) h fun _ _ => trivial

end Ipq4019.Edma.RightReads
