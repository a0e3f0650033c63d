import Ipq4019.Lib.Calls
import Ipq4019.Edma.RxRing

/-!
# The receive ring: a call of `ipq4019_eth_recv`

`wp_recv` says what a call does beside the EDMA, from a state between two calls in which `r` frames
have been consumed.  It ends in one of three ways (`RecvPost`):

* nothing was completed when the index was read;
* something was, but the descriptor at the tail is not marked valid: the call leaves everything as
  it was;
* the descriptor is consumed: its frame is copied, and the ring recycled.

The contract `rxContract` asks that the EDMA never touches a buffer not yet copied out, and assumes,
of an EDMA whose index may run ahead of its writes, that the write to the buffer has arrived by the
time the length is read.
-/

namespace Ipq4019.Edma.Recv

open Ipq4019.Lib Ipq4019.Lib.Interleave Ipq4019.Lib.Interleave.Prog Ipq4019.Lib.Memory
open Ipq4019.Lib.Ring
open Ipq4019.Edma.Driver Ipq4019.Edma.Device Ipq4019.Edma.Init Ipq4019.Edma.RxRing

variable {c : Platform} {Frame : EdmaRrd → List UInt8 → Prop} {defer : Prop}
  {r hd tl cp n₀ i : ℕ} {s s' : World} {e : RxEntry}

/-! ### The contract -/

/-- The buffer the EDMA fills next has no byte in common with a buffer not yet copied out. -/
def NoOverwrite (s : World) : Prop :=
  s.hw.rfdCons ≠ s.hw.rfdProd → ∀ e ∈ s.stored.drop s.copied, Apart e.addr (s.rfdRing s.hw.rfdCons.val)

/-- The length of the frame at the tail is read when the EDMA's write to its buffer has arrived. -/
def Landed : EdmaOp → World → Prop
  | .load16 a, s => a = s.netRxPackets.ptr s.dev.rfdTail.toNat + UInt32.ofNat offsetofRrd6 →
      s.copied ∉ s.hw.pending
  | _, _ => True

def rxContract (defer : Prop) : Contract edmaSig World where
  inv := NoOverwrite
  asm o s := defer → Landed o s
  ok _ _ := True

/-! ### The assertions of a call -/

/-- With `r` descriptors handed back: the driver's indices are at `hd` and `tl`, and `cp` frames
are copied out. -/
structure Driving (c : Platform) (Frame : EdmaRrd → List UInt8 → Prop) (defer : Prop)
    (r hd tl cp : ℕ) (s : World) : Prop where
  inv : Inv c Frame defer r s
  head : s.dev.rfdHead.toNat = hd % noOfRxDesc
  tail : s.dev.rfdTail.toNat = tl % noOfRxDesc
  copied : s.copied = cp

/-- Between two calls, with `r` frames consumed. -/
abbrev Idle (c : Platform) (Frame : EdmaRrd → List UInt8 → Prop) (defer : Prop) (r : ℕ) :
    World → Prop := Driving c Frame defer r (r + 511) r r

/-- When the index was read, at least `n₀` descriptors were completed, and more than `r`. -/
def Noted (n₀ r : ℕ) (s : World) : Prop :=
  n₀ ≤ s.seen ∧ r < s.seen ∧ s.seen ≤ s.stored.length

/-- Position `r` was completed with the entry `e`, which is in memory. -/
def Held (r : ℕ) (e : RxEntry) (s : World) : Prop := s.stored[r]? = some e ∧ r ∉ s.hw.pending

section stable

variable {env : World → World → Prop}

/-- What the EDMA leaves alone. -/
theorem frame_edma (h : EdmaStep Frame defer s s') : s'.dev = s.dev ∧ s'.copied = s.copied ∧
    s'.seen = s.seen ∧ s'.netRxPackets = s.netRxPackets ∧ s.stored <+: s'.stored ∧
    ∀ i ∈ s'.hw.pending, i ∈ s.hw.pending ∨ i = s.stored.length := by
  rcases h with h | h
  · cases h with
    | complete => exact ⟨rfl, rfl, rfl, rfl, List.prefix_append _ _, fun _ h => Or.inl h⟩
    | advance =>
      refine ⟨rfl, rfl, rfl, rfl, List.prefix_append _ _, fun i hi => ?_⟩
      rcases List.mem_append.mp hi with hi | hi
      · exact Or.inl hi
      · exact Or.inr (List.mem_singleton.mp hi)
    | land => exact ⟨rfl, rfl, rfl, rfl, List.prefix_rfl, fun _ h => Or.inl (List.mem_of_mem_erase h)⟩
  · obtain ⟨_⟩ := h
    exact ⟨rfl, rfl, rfl, rfl, List.prefix_rfl, fun _ h => Or.inl h⟩

theorem Driving.stable (hF : FrameLaw Frame defer)
    (henv : ∀ s s', env s s' → EdmaStep Frame defer s s') :
    Stable (edma c env) (Driving c Frame defer r hd tl cp) := by
  intro s s' hs h
  obtain ⟨hdev, hcp, -⟩ := frame_edma (henv s s' hs)
  refine ⟨Inv.stable hF henv s s' hs h.inv, ?_, ?_, hcp.trans h.copied⟩
  · rw [hdev]
    exact h.head
  · rw [hdev]
    exact h.tail

theorem Noted.stable (henv : ∀ s s', env s s' → EdmaStep Frame defer s s') :
    Stable (edma c env) (Noted n₀ r) := by
  intro s s' hs ⟨h₀, hr, hn⟩
  obtain ⟨-, -, hseen, -, hst, -⟩ := frame_edma (henv s s' hs)
  rw [Noted, hseen]
  exact ⟨h₀, hr, hn.trans hst.length_le⟩

theorem Held.stable (henv : ∀ s s', env s s' → EdmaStep Frame defer s s') :
    Stable (edma c env) (Held r e) := by
  intro s s' hs ⟨he, hp⟩
  obtain ⟨-, -, -, -, hst, hpend⟩ := frame_edma (henv s s' hs)
  refine ⟨Calls.getElem?_of_isPrefix hst he, fun hp' => ?_⟩
  rcases hpend r hp' with h | h
  · exact hp h
  · exact absurd (List.getElem?_eq_some_iff.mp he).1 (by omega)

theorem stored_stable (henv : ∀ s s', env s s' → EdmaStep Frame defer s s') :
    Stable (edma c env) fun s => s.stored[r]? = some e := fun s s' hs he =>
  Calls.getElem?_of_isPrefix (frame_edma (henv s s' hs)).2.2.2.2.1 he

theorem ptr_stable (henv : ∀ s s', env s s' → EdmaStep Frame defer s s') {pkt : UInt32} :
    Stable (edma c env) fun s => s.netRxPackets.ptr i = pkt := fun s s' hs he =>
  (congrArg (RxBuffers.ptr · i) (frame_edma (henv s s' hs)).2.2.2.1).trans he

end stable

/-- **The buffer filled next** is none of those not yet copied out. -/
theorem Driving.noOverwrite (h : Driving c Frame defer r hd tl cp s) (hr : r ≤ cp) :
    NoOverwrite s := by
  intro hne e he
  obtain ⟨k, hk⟩ := List.mem_iff_getElem?.mp he
  rw [List.getElem?_drop, h.copied] at hk
  have hlt := h.inv.lt_lim hne
  have hin := (List.getElem?_eq_some_iff.mp hk).1
  rw [(h.inv.entry _ _ hk).addr, h.inv.ring _ (by rw [h.inv.cons]; exact Nat.mod_lt _ (by decide)),
    h.inv.cons]
  exact apart_slot _ (mod_ne hin (by unfold lim noOfRxDesc at *; omega))

/-! ### Reading a buffer -/

/-- A half-word of a buffer that holds an entry. -/
theorem read16_block {m : Mem} {v : UInt32} (h : read m (c.virtToPhys v) e.bytes.length = e.bytes)
    {k : ℕ} {x : UInt16} (hk : k + 2 ≤ edmaRrdSize) (hx : (e.bytes.drop k).take 2 = bytes16 x) :
    read16 m (c.virtToPhys (v + UInt32.ofNat k)) = x := by
  rw [c.virtToPhys_add]
  refine read16_of_read ((read_part h ?_).trans hx)
  rw [RxEntry.length_bytes]
  omega

/-- The frame in a buffer that holds an entry, or a part of it. -/
theorem read_block_data {m : Mem} {v : UInt32}
    (h : read m (c.virtToPhys v) e.bytes.length = e.bytes) {n : ℕ} (hn : n ≤ e.data.length) :
    read m (c.virtToPhys (v + UInt32.ofNat edmaRrdSize)) n = e.data.take n := by
  rw [c.virtToPhys_add, read_part h (by rw [RxEntry.length_bytes]; omega)]
  rfl

theorem read_rrd7 {m : Mem} {v : UInt32} (h : read m (c.virtToPhys v) e.bytes.length = e.bytes) :
    read16 m (c.virtToPhys (v + UInt32.ofNat offsetofRrd7)) = e.rrd.rrd7 :=
  read16_block h (by decide) rfl

theorem read_rrd6 {m : Mem} {v : UInt32} (h : read m (c.virtToPhys v) e.bytes.length = e.bytes) :
    read16 m (c.virtToPhys (v + UInt32.ofNat offsetofRrd6)) = e.rrd.rrd6 :=
  read16_block h (by decide) rfl

/-- The buffer of the position to be consumed next. -/
theorem read_held (h : Inv c Frame defer r s) (he : Held r e s) :
    read s.mem (c.virtToPhys (s.netRxPackets.ptr (r % noOfRxDesc))) e.bytes.length = e.bytes := by
  have hlim := h.le_lim
  rw [← (h.entry r e he.1).addr]
  exact h.held r e he.1 (by unfold lim noOfRxDesc at *; omega) he.2

/-! ### What a call leaves -/

/-- The length reported for a frame of `n` bytes. -/
def truncated (n : UInt16) (maxlen : Int) : UInt16 :=
  if (n.toNat : Int) > maxlen then UInt16.ofInt maxlen else n

/-- The call delivers the frame of the entry, truncated. -/
structure Delivers (maxlen : Int) (e : RxEntry) (out : RecvOut) : Prop where
  ret : out.ret = 0
  len : out.len = truncated e.rrd.rrd6 maxlen
  buf : 0 ≤ maxlen → out.buf = e.data.take out.len.toNat

/-- **The three ways a call ends.** -/
inductive RecvPost (c : Platform) (Frame : EdmaRrd → List UInt8 → Prop) (defer : Prop) (r : ℕ)
    (maxlen : Int) (out : RecvOut) (s : World) : Prop
  | nothing (h : Idle c Frame defer r s) (ho : out = ⟨0, 0, []⟩) (hs : s.seen = r)
  | kept (h : Idle c Frame defer r s) (ho : out = ⟨0, 0, []⟩) (hs : r < s.seen)
      (hv : ¬ defer → ∃ e, s.stored[r]? = some e ∧ ¬ Valid e.rrd)
  | consumed (e : RxEntry) (h : Idle c Frame defer (r + 1) s) (he : s.stored[r]? = some e)
      (hv : Valid e.rrd) (ho : Delivers maxlen e out) (hs : r < s.seen)

/-! ### The call -/

section call

variable {env : World → World → Prop} (hF : FrameLaw Frame defer)
  (henv : ∀ s s', env s s' → EdmaStep Frame defer s s')

/-- The rule of an access of the receive side. -/
theorem rx_op {α : Type} {A : World → Prop} (hA : Stable (edma c env) A)
    (hno : ∀ s, A s → NoOverwrite s) {o : EdmaOp} {k : o.Res → Drv α} {Q : α → World → Prop}
    (hk : ∀ s, A s → (defer → Landed o s) →
      wp (edma c env) (rxContract defer) (k (step c o s).1) Q (step c o s).2) (h : A s) :
    wp (edma c env) (rxContract defer) (.op (S := edmaSig) o k) Q s :=
  wp_op hA hno (fun _ _ => trivial) hk h

include hF henv

/-- **The recycling** of the descriptor at position `r`. -/
theorem wp_recycle (h : Driving c Frame defer r (r + 511) r (r + 1) s) (hn : Noted n₀ r s)
    (he : Held r e s) : wp (edma c env) (rxContract defer) recycle (fun _ s =>
      Idle c Frame defer (r + 1) s ∧ Noted n₀ r s ∧ s.stored[r]? = some e) s := by
  have hN : Stable (edma c env) fun s => Noted n₀ r s ∧ s.stored[r]? = some e :=
    (Noted.stable henv).and (stored_stable henv)
  have hD : ∀ {r' hd tl cp : ℕ}, Stable (edma c env) fun s => Driving c Frame defer r' hd tl cp s ∧
      Noted n₀ r s ∧ s.stored[r]? = some e := (Driving.stable hF henv).and hN
  -- `p->rfd_head` is written to the producer index
  refine rx_op (A := fun s => Driving c Frame defer r (r + 511) r (r + 1) s ∧ Noted n₀ r s ∧
    Held r e s) ((Driving.stable hF henv).and ((Noted.stable henv).and (Held.stable henv)))
    (fun s hs => hs.1.noOverwrite (Nat.le_succ r)) (fun s hs _ => ?_) ⟨h, hn, he⟩
  have hhead := hs.1.head
  change wp _ _ (.op (S := edmaSig) (.writel s.dev.rfdHead.toUInt32 .rfdIdxQ) _) _ s
  generalize s.dev.rfdHead = hd at hhead
  refine rx_op (A := fun s => Driving c Frame defer r (r + 511) r (r + 1) s ∧ Noted n₀ r s ∧
    Held r e s) ((Driving.stable hF henv).and ((Noted.stable henv).and (Held.stable henv)))
    (fun s hs => hs.1.noOverwrite (Nat.le_succ r)) (fun s hs _ => ?_) hs
  obtain ⟨hs, hn, he⟩ := hs
  have hinv := hs.inv.recycle (List.getElem?_eq_some_iff.mp he.1).1 he.2
    ((UInt16.toNat_toUInt32 hd).trans hhead)
  -- then both indices step
  refine rx_op (A := fun s => Driving c Frame defer (r + 1) (r + 511) r (r + 1) s ∧ Noted n₀ r s ∧
    s.stored[r]? = some e) hD (fun s hs => hs.1.noOverwrite le_rfl) (fun s hs _ => ?_)
    ⟨⟨hinv, hs.head, hs.tail, hs.copied⟩, hn, he.1⟩
  obtain ⟨hs, hn, he⟩ := hs
  refine rx_op (A := fun s => Driving c Frame defer (r + 1) (r + 1 + 511) r (r + 1) s ∧
    Noted n₀ r s ∧ s.stored[r]? = some e) hD (fun s hs => hs.1.noOverwrite le_rfl)
    (fun s hs _ => ?_) ⟨⟨hs.inv.of_eq rfl rfl rfl rfl rfl rfl rfl,
      toNat_bump_of_mod hs.head (by decide) (by decide), hs.tail, hs.copied⟩, hn, he⟩
  obtain ⟨hs, hn, he⟩ := hs
  refine rx_op (A := fun s => Idle c Frame defer (r + 1) s ∧ Noted n₀ r s ∧ s.stored[r]? = some e)
    hD (fun s hs => hs.1.noOverwrite le_rfl) (fun s hs _ => ?_)
    ⟨⟨hs.inv.of_eq rfl rfl rfl rfl rfl rfl rfl, hs.head,
      toNat_bump_of_mod hs.tail (by decide) (by decide), hs.copied⟩, hn, he⟩
  refine rx_op (A := fun s => Idle c Frame defer (r + 1) s ∧ Noted n₀ r s ∧ s.stored[r]? = some e)
    hD (fun s hs => hs.1.noOverwrite le_rfl) (fun s hs _ => ?_) hs
  obtain ⟨hs, hn, he⟩ := hs
  exact wp_ret hD (fun s hs => hs.1.noOverwrite le_rfl) (fun _ h => h)
    ⟨⟨hs.inv.of_eq rfl rfl rfl rfl rfl rfl rfl, hs.head, hs.tail, hs.copied⟩, hn, he⟩

/-- The part of a call after the length is read. -/
def rxStore (rxPkt : UInt32) (length : UInt16) : Drv RecvOut := do
  let bytes ← memcpy (rxPkt + UInt32.ofNat edmaRrdSize) length.toNat
  recycle
  return ⟨0, length, bytes⟩

omit hF henv in
theorem truncated_le {n : UInt16} {m : Int} (hm : 0 ≤ m) : (truncated n m).toNat ≤ n.toNat := by
  unfold truncated
  by_cases h : (n.toNat : Int) > m
  · rw [if_pos h]
    have hlt := n.toNat_lt
    rw [UInt16.ofInt, Int.emod_eq_of_lt hm (by omega), UInt16.toNat_ofNat',
      Nat.mod_eq_of_lt (by omega)]
    omega
  · rw [if_neg h]

theorem wp_rxStore {m : Int} {pkt : UInt32} (h : Idle c Frame defer r s) (hn : Noted n₀ r s)
    (he : Held r e s) (hp : s.netRxPackets.ptr (r % noOfRxDesc) = pkt) (hv : Valid e.rrd) :
    wp (edma c env) (rxContract defer) (rxStore pkt (truncated e.rrd.rrd6 m))
      (fun out s => RecvPost c Frame defer r m out s ∧ n₀ ≤ s.seen) s := by
  refine rx_op (A := fun s => Idle c Frame defer r s ∧ Noted n₀ r s ∧ Held r e s ∧
    s.netRxPackets.ptr (r % noOfRxDesc) = pkt) ((Driving.stable hF henv).and
      ((Noted.stable henv).and ((Held.stable henv).and (ptr_stable henv))))
    (fun s hs => hs.1.noOverwrite le_rfl) (fun s hs _ => ?_) ⟨h, hn, he, hp⟩
  obtain ⟨hs, hn, he, rfl⟩ := hs
  have hlen := (hF.len _ _ (hs.inv.entry r e he.1).frame hv).1
  have hbytes : 0 ≤ m → read s.mem (c.virtToPhys (s.netRxPackets.ptr (r % noOfRxDesc) +
      UInt32.ofNat edmaRrdSize)) (truncated e.rrd.rrd6 m).toNat =
        e.data.take (truncated e.rrd.rrd6 m).toNat := fun hm =>
    read_block_data (read_held hs.inv he) (hlen ▸ truncated_le hm)
  change wp _ _ (recycle >>= fun _ => .ret (⟨0, _, read s.mem (c.virtToPhys _) _⟩ : RecvOut)) _ _
  generalize read s.mem (c.virtToPhys (s.netRxPackets.ptr (r % noOfRxDesc) +
    UInt32.ofNat edmaRrdSize)) (truncated e.rrd.rrd6 m).toNat = bytes at hbytes
  refine wp_bind (wp_mono (fun _ t ht => ?_) (wp_recycle hF henv
    ⟨hs.inv.of_eq rfl rfl rfl rfl rfl rfl rfl, hs.head, hs.tail, congrArg (· + 1) hs.copied⟩ hn he))
  refine wp_ret ((Driving.stable hF henv).and ((Noted.stable henv).and (stored_stable henv)))
    (fun s hs => hs.1.noOverwrite le_rfl) (fun t ht => ?_) ht
  exact ⟨.consumed e ht.1 ht.2.2 hv ⟨rfl, rfl, hbytes⟩ ht.2.1.2.1, ht.2.1.1⟩

theorem wp_rxCopy {m : Int} {pkt : UInt32} (h : Idle c Frame defer r s) (hn : Noted n₀ r s)
    (hp : s.netRxPackets.ptr (r % noOfRxDesc) = pkt)
    (hv : ¬ defer → ∃ e, s.stored[r]? = some e ∧ Valid e.rrd) :
    wp (edma c env) (rxContract defer) (rxCopy m pkt)
      (fun out s => RecvPost c Frame defer r m out s ∧ n₀ ≤ s.seen) s := by
  have hV : Stable (edma c env) fun s => ¬ defer → ∃ e, s.stored[r]? = some e ∧ Valid e.rrd := by
    intro s s' hs hv hd
    obtain ⟨e, he, hv⟩ := hv hd
    exact ⟨e, stored_stable henv s s' hs he, hv⟩
  refine rx_op (A := fun s => Idle c Frame defer r s ∧ Noted n₀ r s ∧
    s.netRxPackets.ptr (r % noOfRxDesc) = pkt ∧
      (¬ defer → ∃ e, s.stored[r]? = some e ∧ Valid e.rrd)) ((Driving.stable hF henv).and
      ((Noted.stable henv).and ((ptr_stable henv).and hV)))
    (fun s hs => hs.1.noOverwrite le_rfl) (fun s hs hland => ?_) ⟨h, hn, hp, hv⟩
  obtain ⟨hs, hn, hp, hv⟩ := hs
  -- the write has arrived: by the contract, or because there is never one under way
  have hpend : r ∉ s.hw.pending := by
    by_cases hd : defer
    · have hl := hland hd (by rw [hs.tail, hp])
      rwa [hs.copied] at hl
    · rw [hs.inv.now hd]
      exact List.not_mem_nil
  have hr : r < s.stored.length := hn.2.1.trans_le hn.2.2
  have he : Held r s.stored[r] s := ⟨List.getElem?_eq_getElem hr, hpend⟩
  have hvalid : Valid s.stored[r].rrd := by
    by_cases hd : defer
    · exact hF.valid _ _ hd (hs.inv.entry r _ he.1).frame
    · obtain ⟨e, he', hv⟩ := hv hd
      rwa [← Option.some.inj (he'.symm.trans he.1)]
  have hread := read_rrd6 (read_held hs.inv he)
  rw [hp] at hread
  change wp _ _ (rxStore pkt (truncated (read16 s.mem _) m)) _ s
  rw [hread]
  exact wp_rxStore hF henv hs hn he hp hvalid

/-- The part of a call after the buffer is known. -/
def rxLook (maxlen : Int) (rxPkt : UInt32) : Drv RecvOut := do
  invalidateRange rxPkt edmaRxBufSize
  let rrd7 ← load16 (rxPkt + UInt32.ofNat offsetofRrd7)
  if rrd7 &&& edmaRrd7DescValid = 0 then return ⟨0, 0, []⟩
  else rxCopy maxlen rxPkt

theorem wp_rxLook {m : Int} {pkt : UInt32} (h : Idle c Frame defer r s) (hn : Noted n₀ r s)
    (hp : s.netRxPackets.ptr (r % noOfRxDesc) = pkt) :
    wp (edma c env) (rxContract defer) (rxLook m pkt)
      (fun out s => RecvPost c Frame defer r m out s ∧ n₀ ≤ s.seen) s := by
  have hB : Stable (edma c env) fun s => Idle c Frame defer r s ∧ Noted n₀ r s ∧
      s.netRxPackets.ptr (r % noOfRxDesc) = pkt :=
    (Driving.stable hF henv).and ((Noted.stable henv).and (ptr_stable henv))
  refine rx_op hB (fun s hs => hs.1.noOverwrite le_rfl) (fun s hs _ => ?_) ⟨h, hn, hp⟩
  refine rx_op hB (fun s hs => hs.1.noOverwrite le_rfl) (fun s hs _ => ?_) hs
  obtain ⟨hs, hn, hp⟩ := hs
  have hr : r < s.stored.length := hn.2.1.trans_le hn.2.2
  have hread : ¬ defer → read16 s.mem (c.virtToPhys (pkt + UInt32.ofNat offsetofRrd7)) =
      s.stored[r].rrd.rrd7 := by
    intro hd
    rw [← hp]
    refine read_rrd7 (read_held hs.inv ⟨List.getElem?_eq_getElem hr, ?_⟩)
    rw [hs.inv.now hd]
    exact List.not_mem_nil
  change wp _ _ (if read16 s.mem (c.virtToPhys (pkt + UInt32.ofNat offsetofRrd7)) &&&
    edmaRrd7DescValid = 0 then .ret ⟨0, 0, []⟩ else rxCopy m pkt) _ s
  by_cases hbit : read16 s.mem (c.virtToPhys (pkt + UInt32.ofNat offsetofRrd7)) &&&
    edmaRrd7DescValid = 0
  · rw [if_pos hbit]
    have hinvalid : ¬ defer → ∃ e, s.stored[r]? = some e ∧ ¬ Valid e.rrd := fun hd =>
      ⟨_, List.getElem?_eq_getElem hr, fun hv => hv (hread hd ▸ hbit)⟩
    have hV : Stable (edma c env) fun s => ¬ defer → ∃ e, s.stored[r]? = some e ∧ ¬ Valid e.rrd := by
      intro s s' hs hv hd
      obtain ⟨e, he, hv⟩ := hv hd
      exact ⟨e, stored_stable henv s s' hs he, hv⟩
    exact wp_ret (((Driving.stable hF henv).and (Noted.stable henv)).and hV)
      (fun s hs => hs.1.1.noOverwrite le_rfl)
      (fun s hs => ⟨.kept hs.1.1 rfl hs.1.2.2.1 hs.2, hs.1.2.1⟩) ⟨⟨hs, hn⟩, hinvalid⟩
  · rw [if_neg hbit]
    exact wp_rxCopy hF henv hs hn hp fun hd =>
      ⟨_, List.getElem?_eq_getElem hr, fun h0 => hbit ((hread hd).symm ▸ h0)⟩

theorem wp_rxTake {m : Int} {tail : UInt16} (h : Idle c Frame defer r s) (hn : Noted n₀ r s)
    (ht : tail.toNat = r % noOfRxDesc) : wp (edma c env) (rxContract defer) (rxTake m tail)
      (fun out s => RecvPost c Frame defer r m out s ∧ n₀ ≤ s.seen) s := by
  refine rx_op (A := fun s => Idle c Frame defer r s ∧ Noted n₀ r s)
    ((Driving.stable hF henv).and (Noted.stable henv)) (fun s hs => hs.1.noOverwrite le_rfl)
    (fun s hs _ => ?_) ⟨h, hn⟩
  change wp _ _ (rxLook m (s.netRxPackets.ptr tail.toNat)) _ s
  exact wp_rxLook hF henv hs.1 hs.2 (by rw [ht])

/-- **A call**, from a state in which `r` frames are consumed and at least `n₀` are completed. -/
theorem wp_recv {m : Int} (h : Idle c Frame defer r s) (hn : n₀ ≤ s.stored.length) :
    wp (edma c env) (rxContract defer) (ipq4019EthRecv m)
      (fun out s => RecvPost c Frame defer r m out s ∧ n₀ ≤ s.seen) s := by
  have hN : Stable (edma c env) fun s => n₀ ≤ s.stored.length := fun s s' hs hn =>
    hn.trans (frame_edma (henv s s' hs)).2.2.2.2.1.length_le
  refine rx_op ((Driving.stable hF henv).and hN) (fun s hs => hs.1.noOverwrite le_rfl)
    (fun s hs _ => ?_) ⟨h, hn⟩
  obtain ⟨hs, hn⟩ := hs
  -- the index register, as read here
  have hfield := rfdCons_field s
  have hcons := hs.inv.cons_eq_iff
  have hle := hs.inv.le
  change wp _ _ (.op (S := edmaSig) .getDev fun p : IpqEdmaDev =>
    if ((s.readReg .rfdIdxQ >>> edmaRfdConsIdxShift) &&& edmaRfdConsIdxMask).toNat =
      p.rfdTail.toNat then .ret ⟨0, 0, []⟩ else rxTake m p.rfdTail) _ (s.noteRead .rfdIdxQ)
  have hidle : Idle c Frame defer r (s.noteRead .rfdIdxQ) :=
    ⟨hs.inv.of_eq rfl rfl rfl rfl rfl rfl rfl, hs.head, hs.tail, hs.copied⟩
  by_cases heq : s.stored.length = r
  · have hS : Stable (edma c env) fun s => Idle c Frame defer r s ∧ s.seen = r :=
      (Driving.stable hF henv).and fun s s' hs hseen =>
        ((frame_edma (henv s s' hs)).2.2.1).trans hseen
    refine rx_op hS (fun s hs => hs.1.noOverwrite le_rfl) (fun t ht _ => ?_) ⟨hidle, heq⟩
    change wp _ _ (if _ then _ else _) _ t
    rw [if_pos (by rw [hfield, hcons.mpr heq]; exact ht.1.tail.symm)]
    exact wp_ret hS (fun s hs => hs.1.noOverwrite le_rfl)
      (fun s hs => ⟨.nothing hs.1 rfl hs.2, by rw [hs.2]; omega⟩) ht
  · have hS : Stable (edma c env) fun s => Idle c Frame defer r s ∧ Noted n₀ r s :=
      (Driving.stable hF henv).and (Noted.stable henv)
    refine rx_op hS (fun s hs => hs.1.noOverwrite le_rfl) (fun t ht _ => ?_)
      ⟨hidle, hn, by change r < s.stored.length; omega, le_rfl⟩
    change wp _ _ (if _ then _ else _) _ t
    have htail : t.dev.rfdTail.toNat = r % noOfRxDesc := ht.1.tail
    rw [if_neg (fun h0 => heq (hcons.mp (hfield.symm.trans (h0.trans htail))))]
    exact wp_rxTake hF henv ht.1 ht.2 htail

/-! ### Sequences of calls -/

omit hF henv in
/-- Only the EDMA completes descriptors. -/
theorem step_stored (o : EdmaOp) (s : World) : (step c o s).2.stored = s.stored := by
  cases o with
  | readl r => cases r <;> rfl
  | writel v r => cases r <;> rfl
  | _ => rfl

omit hF in
/-- What was completed stays on record. -/
theorem wp_stored {α : Type} (p : Drv α) (he : s.stored[r]? = some e) :
    wp (edma c env) .free p (fun _ s => s.stored[r]? = some e) s :=
  wp_of_uses (stored_stable henv) (fun _ _ => trivial) (fun _ _ _ _ => trivial)
    (fun o s _ h => by rw [← h]; exact congrArg (·[r]?) (step_stored o s)) (uses_true p) he

/-- **A sequence of calls** goes from `r` frames consumed to `r'`: each call returns nothing, or the
next frame. -/
inductive Calls (st : List RxEntry) : ℕ → ℕ → List Int → List RecvOut → Prop
  | nil (r : ℕ) : Calls st r r [] []
  | empty {r r' : ℕ} {m : Int} {ms : List Int} {outs : List RecvOut} (h : Calls st r r' ms outs) :
      Calls st r r' (m :: ms) (⟨0, 0, []⟩ :: outs)
  | frame {r r' : ℕ} {m : Int} {ms : List Int} {out : RecvOut} {outs : List RecvOut} {e : RxEntry}
      (he : st[r]? = some e) (hv : Valid e.rrd) (ho : Delivers m e out)
      (h : Calls st (r + 1) r' ms outs) : Calls st r r' (m :: ms) (out :: outs)

omit hF henv in
theorem Calls.mono {st st' : List RxEntry} (hp : st <+: st') {r r' : ℕ} {ms : List Int}
    {outs : List RecvOut} (h : Calls st r r' ms outs) : Calls st' r r' ms outs := by
  induction h with
  | nil r => exact .nil r
  | empty _ ih => exact .empty ih
  | frame he hv ho _ ih => exact .frame (Calls.getElem?_of_isPrefix hp he) hv ho ih

theorem Calls.stable {r : ℕ} {ms : List Int} {outs : List RecvOut} : Stable (edma c env) fun s =>
    ∃ r', Idle c Frame defer r' s ∧ Calls s.stored r r' ms outs := by
  rintro s s' hs ⟨r', h, hc⟩
  exact ⟨r', Driving.stable hF henv s s' hs h, hc.mono (frame_edma (henv s s' hs)).2.2.2.2.1⟩

theorem wp_recvs (ms : List Int) : ∀ {r : ℕ} {s : World}, Idle c Frame defer r s →
    wp (edma c env) (rxContract defer) (recvs ms)
      (fun outs s => ∃ r', Idle c Frame defer r' s ∧ Calls s.stored r r' ms outs) s := by
  have hno : ∀ {r : ℕ} {ms : List Int} {outs : List RecvOut} (s : World),
      (∃ r', Idle c Frame defer r' s ∧ Calls s.stored r r' ms outs) → NoOverwrite s :=
    fun s ⟨_, h, _⟩ => h.noOverwrite le_rfl
  induction ms with
  | nil =>
    intro r s h
    exact wp_ret (Calls.stable hF henv) hno (fun _ h => h) ⟨r, h, .nil r⟩
  | cons m ms ih =>
    intro r s h
    refine wp_bind (wp_mono (fun out t ht => ?_) (wp_recv hF henv h (Nat.zero_le _)))
    have hempty : out = ⟨0, 0, []⟩ → Idle c Frame defer r t →
        wp (edma c env) (rxContract defer) (recvs ms >>= fun rs => .ret (out :: rs)) (fun outs s =>
          ∃ r', Idle c Frame defer r' s ∧ Calls s.stored r r' (m :: ms) outs) t := by
      rintro rfl ht
      refine wp_bind (wp_mono (fun outs u hu => ?_) (ih ht))
      obtain ⟨r', hu, hc⟩ := hu
      exact wp_ret (Calls.stable hF henv) hno (fun _ h => h) ⟨r', hu, .empty hc⟩
    rcases ht.1 with ⟨h, ho, -⟩ | ⟨h, ho, -, -⟩ | ⟨e, h, he, hv, ho, -⟩
    · exact hempty ho h
    · exact hempty ho h
    · refine wp_bind (wp_mono (fun outs u hu => ?_) (wp_and_free (ih h) (wp_stored henv _ he)))
      obtain ⟨⟨r', hu, hc⟩, he⟩ := hu
      exact wp_ret (Calls.stable hF henv) hno (fun _ h => h) ⟨r', hu, .frame he hv ho hc⟩

end call

/-! ### A call beside an EDMA that stands still -/

/-- What a call returns that finds the index moved and a valid descriptor in the buffer. -/
theorem exec_recv (c : Platform) (env : World → World → Prop) {s : World} {m : Int} {e : RxEntry}
    (hd : s.hw.rfdCons.val ≠ s.dev.rfdTail.toNat) (hv : Valid e.rrd)
    (hb : read s.mem (c.virtToPhys (s.netRxPackets.ptr s.dev.rfdTail.toNat)) e.bytes.length =
      e.bytes) (hm : (truncated e.rrd.rrd6 m).toNat ≤ e.data.length) :
    (exec (edma c env) (ipq4019EthRecv m) s).1 =
      ⟨0, truncated e.rrd.rrd6 m, e.data.take (truncated e.rrd.rrd6 m).toNat⟩ := by
  have h7 := read_rrd7 hb
  have h6 := read_rrd6 hb
  have hdata := read_block_data hb hm
  change (exec (edma c env) (if ((s.readReg .rfdIdxQ >>> edmaRfdConsIdxShift) &&&
    edmaRfdConsIdxMask).toNat = s.dev.rfdTail.toNat then .ret ⟨0, 0, []⟩
    else rxTake m s.dev.rfdTail) (s.noteRead .rfdIdxQ)).1 = _
  rw [if_neg (by rw [rfdCons_field]; exact hd)]
  change (exec (edma c env) (if read16 s.mem (c.virtToPhys (s.netRxPackets.ptr s.dev.rfdTail.toNat +
    UInt32.ofNat offsetofRrd7)) &&& edmaRrd7DescValid = 0 then .ret ⟨0, 0, []⟩
    else rxCopy m (s.netRxPackets.ptr s.dev.rfdTail.toNat)) (s.noteRead .rfdIdxQ)).1 = _
  rw [h7, if_neg hv]
  change (⟨0, truncated (read16 s.mem (c.virtToPhys (s.netRxPackets.ptr s.dev.rfdTail.toNat +
    UInt32.ofNat offsetofRrd6))) m, read s.mem (c.virtToPhys (s.netRxPackets.ptr
      s.dev.rfdTail.toNat + UInt32.ofNat edmaRrdSize)) (truncated (read16 s.mem (c.virtToPhys
        (s.netRxPackets.ptr s.dev.rfdTail.toNat + UInt32.ofNat offsetofRrd6))) m).toNat⟩ : RecvOut) = _
  rw [h6, hdata]

/-! ### Bring-up -/

/-- The world after bring-up of the receive ring. -/
def start (c : Platform) (w : World) : World :=
  (exec (edma c TxStep) (edmaInitRfdRing c) w).2

/-- Before bring-up: the EDMA's index is at 0, and nothing is on record. -/
structure Fresh (w : World) : Prop where
  cons : w.hw.rfdCons = 0
  pending : w.hw.pending = []
  stored : w.stored = []
  copied : w.copied = 0

theorem idle_start {w : World} (h : Fresh w) : Idle c Frame defer 0 (start c w) := by
  obtain ⟨u, hu⟩ := exec_initRfdRing c TxStep w
  rw [start, hu]
  refine ⟨Inv.start (fun i hi => if_pos hi) h.cons rfl h.stored h.pending, rfl, rfl, h.copied⟩

/-! ### Runs, call by call -/

/-- A call that was made, with the size of the caller's buffer. -/
abbrev CallRec := Calls.CallRec edmaSig World fun _ : Int => RecvOut

/-- **A run of calls.** -/
abbrev CallRun (M : Machine edmaSig World) : World → List CallRec → World → Prop :=
  Calls.CallRun M ipq4019EthRecv

/-! ### One descriptor completed, one call -/

/-- The world after a first bring-up. -/
def fresh : World := start .flat (.cold 0 0 fun _ => 0)

theorem fresh_cold : Fresh (.cold 0 0 fun _ => 0) := ⟨rfl, rfl, rfl, rfl⟩

theorem stored_start {w : World} (h : Fresh w) : (start c w).stored = [] := by
  obtain ⟨u, hu⟩ := exec_initRfdRing c TxStep w
  rw [start, hu]
  exact h.stored

theorem stored_fresh : fresh.stored = [] := stored_start fresh_cold

/-- There, one descriptor completed. -/
def one (rrd7 : UInt16) : World := fresh.complete (rrdOf rrd7) [0]

/-- The call made then. -/
def oneCall (M : Machine edmaSig World) (rrd7 : UInt16) : CallRec where
  call := 1536
  before := one rrd7
  hist := hist M (ipq4019EthRecv 1536) (one rrd7)
  out := (exec M (ipq4019EthRecv 1536) (one rrd7)).1
  after := (exec M (ipq4019EthRecv 1536) (one rrd7)).2

theorem step_one {rrd7 : UInt16} (hf : Frame (rrdOf rrd7) [0]) :
    RxStep Frame defer fresh (one rrd7) := by
  have h : Idle .flat (fun _ _ => True) False 0 fresh := idle_start fresh_cold
  refine .complete (fun he => ?_) hf
  have hv := congrArg Fin.val he
  rw [h.inv.cons, h.inv.prod, stored_fresh] at hv
  exact absurd hv (by decide)

theorem stored_one (rrd7 : UInt16) : (one rrd7).stored = [fresh.entry (rrdOf rrd7) [0]] := by
  unfold one World.complete
  rw [stored_fresh]
  rfl

theorem after_oneCall (M : Machine edmaSig World) (rrd7 : UInt16) :
    (oneCall M rrd7).after = (exec M (ipq4019EthRecv 1536) (one rrd7)).2 := rfl

theorem run_oneCall (M : Machine edmaSig World) (rrd7 : UInt16) :
    Run M (one rrd7) (ipq4019EthRecv 1536) (hist M (ipq4019EthRecv 1536) (one rrd7))
      (oneCall M rrd7).after (.ret (oneCall M rrd7).out) := run_exec _ _

theorem callRun_one {M : Machine edmaSig World} {rrd7 : UInt16} (h : M.env fresh (one rrd7)) :
    CallRun M fresh [oneCall M rrd7] (oneCall M rrd7).after :=
  .env h (.call (run_oneCall M rrd7) (.nil _))

end Ipq4019.Edma.Recv
