import Ipq4019.Edma.Resync
import Ipq4019.Edma.RxFifo
import Ipq4019.Edma.TxResult

/-!
# Both directions at once

Sends and receptions in any order, while the EDMA consumes transmit descriptors and completes receive
descriptors at any time, also in the middle of a call of the other direction.

* `simulate_send`: to a send, an EDMA that also receives looks like one that only transmits.
* `Mid`: the state between two calls, with the frames taken and the descriptors handed over so far.
* `duplex`: neither direction disturbs the other.
-/

namespace Ipq4019.Edma.Duplex

open Ipq4019.Lib Ipq4019.Lib.Interleave Ipq4019.Lib.Interleave.Prog Ipq4019.Lib.Memory
open Ipq4019.Lib.Calls
open Ipq4019.Edma.Driver Ipq4019.Edma.Device Ipq4019.Edma.Init Ipq4019.Edma.Send
open Ipq4019.Edma.RxRing Ipq4019.Edma.Recv Ipq4019.Edma.RxFifo
open Ipq4019.Edma.TxResult (RingAt Working Side Between Doorbell Taken)
open Ipq4019.Edma.Resync (RecvOp uses_ethRecv)

/-- The EDMA receives frames in good order, each in memory before its index moves on, and transmits. -/
abbrev edmaBoth (c : Platform) : Machine edmaSig World := edma c (EdmaStep FrameOk False)

variable {c : Platform} {packet : UInt32} {length : UInt16} {s s' t : World}
  {l : List (EdmaOp × World)} {E n r : ℕ} {b : RxBuffers}

/-! ### A send, to which the EDMA looks as if it only transmitted -/

/-- The accesses of `ipq4019_eth_send`. -/
def SendOp : EdmaOp → Prop
  | .modDev f => f = bumpHead
  | .getDev | .storeTpd _ _ | .flushRange _ _ | .dsb | .udelay _ | .txTimeout _ => True
  | .readl .tpdIdxQ | .writel _ .tpdIdxQ | .writel _ .txSwConsIdxQ => True
  | _ => False

theorem SendOp.of_fill {o : EdmaOp} (h : FillOp o) : SendOp o := by
  cases o <;> first | exact h | exact h.elim

theorem SendOp.of_done {o : EdmaOp} (h : DoneOp o) : SendOp o := by
  cases o with
  | readl r => cases r <;> first | exact h.elim | trivial
  | writel v r => cases r <;> first | exact h.elim | trivial
  | _ => first | exact h.elim | trivial

theorem uses_send : (ipq4019EthSend c packet length).Uses SendOp := by
  unfold ipq4019EthSend
  split
  · trivial
  · refine uses_bind (uses_mono (fun _ => SendOp.of_fill) uses_txFill) fun _ => ?_
    exact ⟨trivial, fun _ => ⟨trivial, fun _ => uses_mono (fun _ => SendOp.of_done) uses_txComplete⟩⟩

/-- What a send sees of the device. -/
theorem sameRing_step {o : EdmaOp} (ho : SendOp o) (h : SameRing s t) :
    (step c o t).1 = (step c o s).1 ∧ SameRing (step c o s).2 (step c o t).2 := by
  obtain ⟨hdev, hcons, hprod, howned, hfilled⟩ := h
  cases o with
  | readl r =>
    cases r with
    | tpdIdxQ =>
      refine ⟨?_, hdev, hcons, hprod, howned, hfilled⟩
      change t.readReg .tpdIdxQ = s.readReg .tpdIdxQ
      simp only [World.readReg, hcons, hprod]
    | _ => exact ho.elim
  | writel v r =>
    cases r with
    | tpdIdxQ =>
      refine ⟨rfl, hdev, hcons, rfl, ?_, rfl⟩
      change t.owned ++ t.filled = s.owned ++ s.filled
      rw [howned, hfilled]
    | txSwConsIdxQ => exact ⟨rfl, hdev, hcons, hprod, howned, hfilled⟩
    | _ => exact ho.elim
  | getDev => exact ⟨hdev, hdev, hcons, hprod, howned, hfilled⟩
  | modDev f => exact ⟨rfl, congrArg f hdev, hcons, hprod, howned, hfilled⟩
  | storeTpd i d => exact ⟨rfl, hdev, hcons, hprod, howned, congrArg (· ++ [i.toNat]) hfilled⟩
  | _ => first | exact ho.elim | exact ⟨rfl, hdev, hcons, hprod, howned, hfilled⟩

/-- Reception leaves it alone, and transmission does the same to it. -/
theorem sameRing_env (h : SameRing s t) (he : (edmaBoth c).env s s') :
    ∃ t', (edma c TxStep).Env t t' ∧ SameRing s' t' := by
  obtain ⟨hdev, hcons, hprod, howned, hfilled⟩ := h
  rcases he with he | he
  · refine ⟨t, .refl, ?_⟩
    cases he with
    | complete => exact ⟨hdev, hcons, hprod, howned, hfilled⟩
    | advance => exact ⟨hdev, hcons, hprod, howned, hfilled⟩
    | land => exact ⟨hdev, hcons, hprod, howned, hfilled⟩
  · obtain ⟨hne⟩ := he
    refine ⟨t.consume, .single (.consume ?_), hdev, ?_, hprod, congrArg List.tail howned, hfilled⟩
    · rwa [hcons, hprod]
    · simp only [World.consume, hcons]

/-- **To a send, an EDMA that also receives looks like one that only transmits.** -/
theorem simulate_send {r : Int}
    (h : Run (edmaBoth c) s (ipq4019EthSend c packet length) l s' (.ret r)) :
    ∃ l' t', Run (edma c TxStep) s (ipq4019EthSend c packet length) l' t' (.ret r) ∧
      SameRing s' t' ∧ List.Forall₂ (fun x y => x.1 = y.1 ∧ SameRing x.2 y.2) l l' :=
  Run.simulate (N := edma c TxStep) (fun _ _ _ hR he => sameRing_env hR he)
    (fun _ _ _ ho hR => sameRing_step ho hR) uses_send h ⟨rfl, rfl, rfl, rfl, rfl⟩

/-! ### The result of a send -/

theorem RingAt.of_sameRing (h : RingAt E n t) (hst : SameRing s t) : RingAt E n s := by
  obtain ⟨hle, hcons, hprod, howned⟩ := h
  exact ⟨hle, hst.cons ▸ hcons, hst.prod ▸ hprod, hst.owned ▸ howned⟩

theorem Side.of_sameRing {f : List ℕ} (h : Side E f t) (hst : SameRing s t) : Side E f s :=
  ⟨hst.dev ▸ h.head, hst.filled ▸ h.filled⟩

theorem exists_related {α β : Type} {R : α → β → Prop} {l : List α} {l' : List β}
    (h : List.Forall₂ R l l') {x : α} (hx : x ∈ l) : ∃ y ∈ l', R x y := by
  induction h with
  | nil => simp at hx
  | cons hR _ ih =>
    rcases List.mem_cons.mp hx with rfl | hx
    · exact ⟨_, List.mem_cons_self, hR⟩
    · obtain ⟨y, hy, hR⟩ := ih hx
      exact ⟨y, List.mem_cons_of_mem _ hy, hR⟩

/-- **When the result of a send is true**, also while the EDMA receives. -/
def SendResult (length : UInt16) (l : List (EdmaOp × World)) (r : Int) (s' : World) : Prop :=
  Taken length r s' ↔ edmaMinPktSize ≤ length.toNat ∧
    (∀ x ∈ l, Doorbell x → x.2.owned.length + edmaTpdsPerPacket < noOfTxDesc) ∧
    s'.hw.tpdCons = s'.hw.tpdProd

/-- The doorbell of a call, and what the call leaves. -/
theorem run_send_both {r : Int} (h : Between E n s) (h16 : edmaMinPktSize ≤ length.toNat)
    (hr : Run (edmaBoth c) s (ipq4019EthSend c packet length) l s' (.ret r)) :
    ∃ m ≤ n, (∃ x ∈ l, Doorbell x) ∧ (∀ x ∈ l, Doorbell x → x.2.owned.length = m) ∧
      ∃ k ≤ m + edmaTpdsPerPacket, (m + edmaTpdsPerPacket) / noOfTxDesc * noOfTxDesc ≤ k ∧
        RingAt (E + edmaTpdsPerPacket) k s' ∧ Side (E + edmaTpdsPerPacket) [] s' := by
  obtain ⟨l', t', hr', hst, hl⟩ := simulate_send hr
  obtain ⟨m, hm, ⟨y, hy, hbell⟩, howned, ⟨k, hlo, hle, hk⟩, hside⟩ := TxResult.run_send h h16 hr'
  refine ⟨m, hm, ?_, fun x hx hbell => ?_, k, hle, hlo, RingAt.of_sameRing hk hst,
    Side.of_sameRing hside hst⟩
  · obtain ⟨x, hx, hop, -⟩ := exists_related hl.flip hy
    obtain ⟨v, hv⟩ := hbell
    exact ⟨x, hx, v, hop.trans hv⟩
  · obtain ⟨y, hy, hop, hring⟩ := exists_related hl hx
    obtain ⟨v, hv⟩ := hbell
    rw [← hring.owned]
    exact howned y hy ⟨v, hop.symm.trans hv⟩

theorem sendResult {r : Int} (h : Between E n s)
    (hr : Run (edmaBoth c) s (ipq4019EthSend c packet length) l s' (.ret r)) :
    SendResult length l r s' := by
  obtain rfl : r = 0 := hr.ends TxResult.ends_send
  unfold SendResult Taken
  by_cases h16 : edmaMinPktSize ≤ length.toNat
  · obtain ⟨m, -, ⟨x, hx, hbell⟩, hm, k, hle, hlo, hk, -⟩ := run_send_both h h16 hr
    rw [hk.owned_iff, hk.cons_eq_iff]
    simp only [noOfTxDesc, edmaTpdsPerPacket] at *
    constructor
    · intro ht
      have h0 := (ht trivial).2
      refine ⟨h16, fun y hy hy' => ?_, by omega⟩
      have hown := hm y hy hy'
      omega
    · rintro ⟨-, hroom, h0⟩ -
      have hlt := hroom x hx hbell
      rw [hm x hx hbell] at hlt
      exact ⟨h16, by omega⟩
  · constructor
    · exact fun ht => absurd (ht rfl).1 h16
    · exact fun hc => absurd hc.1 h16

theorem between_both {r : Int} (h : Between E n s)
    (hr : Run (edmaBoth c) s (ipq4019EthSend c packet length) l s' (.ret r)) :
    ∃ E' n', Between E' n' s' := by
  obtain ⟨l', t', hr', hst, -⟩ := simulate_send hr
  obtain ⟨E', n', hring, hside⟩ := TxResult.between_send h hr'
  exact ⟨E', n', RingAt.of_sameRing hring hst, Side.of_sameRing hside hst⟩

/-! ### The packet -/

/-- The bytes have none in common with a receive buffer. -/
def Clear (b : RxBuffers) (a : UInt32) (n : ℕ) : Prop :=
  ∀ i < noOfRxDesc, ∀ k < n, ∀ x < edmaRxBufSize, a + UInt32.ofNat k ≠ b.ptr i + UInt32.ofNat x

/-- What the EDMA stores for an entry leaves them as they were. -/
theorem Clear.read_write {a : UInt32} (h : Clear b a n) {i : ℕ} {e : RxEntry}
    (he : Entry c FrameOk b i e) (m : Mem) :
    read (write m e.addr e.bytes) (c.virtToPhys a) n = read m (c.virtToPhys a) n := by
  refine read_write_of_disjoint m fun k hk x hx hkx => ?_
  have hsize := he.frame.2.2.2
  rw [RxEntry.length_bytes] at hx
  rw [he.addr, ← c.virtToPhys_add, ← c.virtToPhys_add] at hkx
  refine h _ (Nat.mod_lt _ (by decide)) k hk x ?_ (Platform.virtToPhys_inj hkx)
  simp only [edmaRxBufSize, edmaRrdSize] at *
  omega

/-- Between two calls, the receive side: `r` frames are taken from the buffers `b`. -/
def RxMid (c : Platform) (b : RxBuffers) (r : ℕ) (s : World) : Prop :=
  Idle c FrameOk False r s ∧ s.netRxPackets = b

theorem step_bufs (o : EdmaOp) (s : World) : (step c o s).2.netRxPackets = s.netRxPackets := by
  cases o with
  | readl r => cases r <;> rfl
  | writel v r => cases r <;> rfl
  | _ => rfl

theorem bufs_stable : Stable (edmaBoth c) fun s => s.netRxPackets = b :=
  fun _ _ hs hb => (frame_edma hs).2.2.2.1.trans hb

theorem RxMid.stable : Stable (edmaBoth c) (RxMid c b r) :=
  (Driving.stable (FrameOk.law False) fun _ _ => id).and bufs_stable

theorem RxMid.read_env {a : UInt32} (h : RxMid c b r s) (hc : Clear b a n)
    (he : (edmaBoth c).env s s') : read s'.mem (c.virtToPhys a) n = read s.mem (c.virtToPhys a) n := by
  obtain ⟨hidle, rfl⟩ := h
  rcases he with he | he
  · cases he with
    | complete hne hf => exact hc.read_write (hidle.inv.entry_next hf) s.mem
    | advance hd => exact hd.elim
    | land hi he =>
      rw [hidle.inv.now id] at hi
      simp at hi
  · obtain ⟨_⟩ := he
    rfl

/-- A send leaves the receive side alone. -/
theorem RxMid.sendOp {o : EdmaOp} (ho : SendOp o) (h : RxMid c b r s) :
    RxMid c b r (step c o s).2 := by
  obtain ⟨⟨hinv, hhead, htail, hcp⟩, hb⟩ := h
  have hsame : ∀ t : World, t.rfdRing = s.rfdRing → t.netRxPackets = s.netRxPackets →
      t.hw.rfdCons = s.hw.rfdCons → t.hw.rfdProd = s.hw.rfdProd → t.hw.pending = s.hw.pending →
      t.stored = s.stored → t.mem = s.mem → t.dev.rfdHead = s.dev.rfdHead →
      t.dev.rfdTail = s.dev.rfdTail → t.copied = s.copied → RxMid c b r t := by
    intro t h₁ h₂ h₃ h₄ h₅ h₆ h₇ h₈ h₉ h₁₀
    refine ⟨⟨hinv.of_eq h₁ h₂ h₃ h₄ h₅ h₆ h₇, ?_, ?_, h₁₀.trans hcp⟩, h₂.trans hb⟩
    · rw [h₈, hhead]
    · rw [h₉, htail]
  cases o with
  | readl r =>
    cases r with
    | tpdIdxQ => exact hsame _ rfl rfl rfl rfl rfl rfl rfl rfl rfl rfl
    | _ => exact ho.elim
  | writel v r =>
    cases r with
    | tpdIdxQ => exact hsame _ rfl rfl rfl rfl rfl rfl rfl rfl rfl rfl
    | txSwConsIdxQ => exact hsame _ rfl rfl rfl rfl rfl rfl rfl rfl rfl rfl
    | _ => exact ho.elim
  | modDev f =>
    obtain rfl : f = bumpHead := ho
    exact hsame _ rfl rfl rfl rfl rfl rfl rfl rfl rfl rfl
  | _ => first | exact ho.elim | exact hsame _ rfl rfl rfl rfl rfl rfl rfl rfl rfl rfl

theorem RxMid.noOverwrite (h : RxMid c b r s) : NoOverwrite s := h.1.noOverwrite le_rfl

theorem wp_send_rx (h : RxMid c b r s) : wp (edmaBoth c) (rxContract False)
    (ipq4019EthSend c packet length) (fun _ => RxMid c b r) s :=
  wp_of_uses RxMid.stable (fun _ hs => hs.noOverwrite) (fun _ _ _ _ => trivial)
    (fun _ _ ho hs => hs.sendOp ho) uses_send h

/-- What the EDMA leaves of the transmit side. -/
theorem frame_tx (h : (edmaBoth c).env s s') :
    s'.tpdRing = s.tpdRing ∧ s'.filled = s.filled ∧ s'.sent = s.sent := by
  rcases h with h | h
  · cases h with
    | complete => exact ⟨rfl, rfl, rfl⟩
    | advance => exact ⟨rfl, rfl, rfl⟩
    | land => exact ⟨rfl, rfl, rfl⟩
  · obtain ⟨_⟩ := h
    exact ⟨rfl, rfl, rfl⟩

theorem sent_stable {f : List (Option (List UInt8))} :
    Stable (edmaBoth c) fun s => s.sent = f := fun _ _ hs h => (frame_tx hs).2.2.trans h

/-- The frame that a send hands over. -/
def frameOf (c : Platform) (s : World) (packet : UInt32) (length : UInt16) : List UInt8 :=
  read s.mem (c.virtToPhys packet) (12 + length.toNat)

/-- **What a send hands over**, whatever is received meanwhile. -/
theorem wp_send_sent (hB : Between E n s) (hI : RxMid c b r s) (h16 : edmaMinPktSize ≤ length.toNat)
    (hc : Clear b packet (12 + length.toNat)) :
    wp (edmaBoth c) .free (ipq4019EthSend c packet length)
      (fun _ t => t.sent = s.sent ++ [some (frameOf c s packet length)]) s := by
  have hh : s.dev.tpdHead.toNat < noOfTxDesc := by
    rw [hB.2.head]
    exact Nat.mod_lt _ (by decide)
  have hq : ∀ o, Local o → Quiet (edmaBoth c) o := fun o ho => quiet_edma c ho
  refine wp_send (I := fun _ => True) hq (fun _ _ _ h => h) (fun _ _ _ _ => ⟨trivial, trivial⟩)
    (fun _ _ _ _ => trivial) h16 trivial ?_
  refine wp_quiet (hq .getDev trivial) (fun _ _ => ⟨trivial, trivial⟩) ?_
  -- up to the doorbell the chain stays as it is, and the packet too
  refine wp_op (A := fun t => t.tpdRing = (filledUp c packet length s).tpdRing ∧
      t.filled = slots s.dev.tpdHead.toNat edmaTpdsPerPacket ∧ t.sent = s.sent ∧ RxMid c b r t ∧
      read t.mem (c.virtToPhys packet) (12 + length.toNat) = frameOf c s packet length)
    ?_ (fun _ _ => trivial) (fun _ _ => trivial) ?_ ?_
  · rintro t t' ht ⟨hring, hfill, hsent, hmid, hread⟩
    obtain ⟨k₁, k₂, k₃⟩ := frame_tx ht
    exact ⟨k₁.trans hring, k₂.trans hfill, k₃.trans hsent, RxMid.stable t t' ht hmid,
      (hmid.read_env hc ht).trans hread⟩
  · rintro t ⟨hring, hfill, hsent, -, hread⟩ -
    refine wp_of_uses (P := DoneOp) sent_stable (fun _ _ => trivial) (fun _ _ _ _ => trivial)
      ?_ uses_txComplete ?_
    · intro o u ho hu
      cases o with
      | readl r => cases r <;> first | exact ho.elim | exact hu
      | writel v r => cases r <;> first | exact ho.elim | exact hu
      | _ => first | exact ho.elim | exact hu
    · have hslots : slots s.dev.tpdHead.toNat edmaTpdsPerPacket =
          s.dev.tpdHead.toNat % noOfTxDesc :: slots (s.dev.tpdHead.toNat + 1) 3 := rfl
      rw [Nat.mod_eq_of_lt hh] at hslots
      change (t.doorbell _).sent = _
      simp only [World.doorbell, hfill, hslots, hring, hsent]
      rw [gather_filledUp hh, hread]
  · have hmid : RxMid c b r (filledUp c packet length s) := by
      have huses : (txFill c packet length).Uses FillOp := uses_txFill
      have hrun : exec (edmaBoth c) (txFill c packet length) s = ((), filledUp c packet length s) :=
        exec_txFill
      have hend := exec_of_uses (M := edmaBoth c) (A := RxMid c b r)
        (fun o t ho ht => ht.sendOp (SendOp.of_fill ho)) huses hI
      rwa [hrun] at hend
    obtain ⟨d, ring, f, hframe⟩ := filledUp_frame c packet length s
    refine ⟨rfl, ?_, ?_, hmid, ?_⟩
    · change (filledUp c packet length s).filled = _
      rw [filled_filledUp c packet length hh, hB.2.filled, List.nil_append]
    · change (filledUp c packet length s).sent = _
      rw [hframe]
    · change read (filledUp c packet length s).mem _ _ = _
      rw [hframe]
      rfl

/-! ### A reception leaves the transmit side alone -/

/-- The transmit side: `E` descriptors are handed over, with the frames `f`. -/
def TxMid (E : ℕ) (f : List (Option (List UInt8))) (s : World) : Prop :=
  (∃ n, Between E n s) ∧ s.sent = f

variable {f : List (Option (List UInt8))} {m : Int} {out : RecvOut}

theorem TxMid.of_eq (h : TxMid E f s) (hring : SameRing s t) (hsent : t.sent = s.sent) :
    TxMid E f t := by
  obtain ⟨⟨n, hR, hS⟩, hf⟩ := h
  have hring' : SameRing t s := ⟨hring.dev.symm, hring.cons.symm, hring.prod.symm,
    hring.owned.symm, hring.filled.symm⟩
  exact ⟨⟨n, RingAt.of_sameRing hR hring', Side.of_sameRing hS hring'⟩, hsent.trans hf⟩

theorem TxMid.stable : Stable (edmaBoth c) (TxMid E f) := by
  intro s s' hs h
  have hsent := (frame_tx hs).2.2
  rcases hs with hs | hs
  · refine h.of_eq ?_ hsent
    cases hs with
    | complete => exact ⟨rfl, rfl, rfl, rfl, rfl⟩
    | advance => exact ⟨rfl, rfl, rfl, rfl, rfl⟩
    | land => exact ⟨rfl, rfl, rfl, rfl, rfl⟩
  · obtain ⟨⟨n, hR, hS⟩, hf⟩ := h
    obtain ⟨hne⟩ := hs
    exact ⟨⟨n - 1, (hR.consume hne).2, hS.head, hS.filled⟩, hf⟩

theorem TxMid.recvOp {o : EdmaOp} (ho : RecvOp o) (h : TxMid E f s) : TxMid E f (step c o s).2 := by
  cases o with
  | readl r => cases r <;> exact h.of_eq ⟨rfl, rfl, rfl, rfl, rfl⟩ rfl
  | writel v r => cases r <;> first | exact ho.elim | exact h.of_eq ⟨rfl, rfl, rfl, rfl, rfl⟩ rfl
  | modDev g =>
    obtain ⟨⟨n, ⟨hle, hcons, hprod, howned⟩, hhead, hfill⟩, hf⟩ := h
    refine ⟨⟨n, ⟨hle, hcons, hprod, howned⟩, ?_, hfill⟩, hf⟩
    change (g s.dev).tpdHead.toNat = _
    rw [ho s.dev, hhead]
  | _ => first | exact ho.elim | exact h.of_eq ⟨rfl, rfl, rfl, rfl, rfl⟩ rfl

/-- **A reception**, with both sides. -/
theorem wp_recv_both (hrx : RxMid c b r s) (htx : TxMid E f s) :
    wp (edmaBoth c) (rxContract False) (ipq4019EthRecv m) (fun out s => (RecvPost c FrameOk False r m
      out s ∧ 0 ≤ s.seen) ∧ TxMid E f s ∧ s.netRxPackets = b) s := by
  have hside : wp (edmaBoth c) .free (ipq4019EthRecv m)
      (fun _ s => TxMid E f s ∧ s.netRxPackets = b) s :=
    wp_of_uses (TxMid.stable.and bufs_stable) (fun _ _ => trivial) (fun _ _ _ _ => trivial)
      (fun o s ho hs => ⟨hs.1.recvOp ho, (step_bufs o s).trans hs.2⟩) (uses_ethRecv m) ⟨htx, hrx.2⟩
  exact wp_and_free (wp_recv (FrameOk.law False) (fun _ _ => id) hrx.1 (Nat.zero_le _)) hside

/-! ### Runs -/

/-- A call of either kind that was made. -/
abbrev NetRec := CallRec edmaSig World NetCall.Out

/-- **A run of calls of both kinds.** -/
abbrev NetRun (c : Platform) : World → List NetRec → World → Prop :=
  CallRun (edmaBoth c) (NetCall.prog c)

/-- The frame that the call returned, with the size of the caller's buffer. -/
def takenBy : NetRec → Option (Int × RecvOut)
  | ⟨.recv m, _, _, out, _⟩ => if out.len ≠ 0 then some (m, out) else none
  | _ => none

/-- The frames that were returned. -/
def taken (cs : List NetRec) : List (Int × RecvOut) := cs.filterMap takenBy

/-- The frame that the call handed over. -/
def handedBy (c : Platform) : NetRec → Option (Option (List UInt8))
  | ⟨.send packet length, s, _, _, _⟩ =>
    if edmaMinPktSize ≤ length.toNat then some (some (frameOf c s packet length)) else none
  | _ => none

/-- The frames that were handed over. -/
def handed (c : Platform) (cs : List NetRec) : List (Option (List UInt8)) := cs.filterMap (handedBy c)

/-- What the callers see to: a buffer for at least one byte, and a packet outside of the receive
buffers, with the bytes behind it that are handed over too. -/
def Careful (b : RxBuffers) : NetCall → Prop
  | .send packet length => Clear b packet (12 + length.toNat)
  | .recv m => 1 ≤ m

/-- What holds of a call by itself. -/
def CallOk : NetRec → Prop
  | ⟨.send _ length, _, l, r, s'⟩ => (∀ y ∈ l, NoOverwrite y.2) ∧ SendResult length l r s'
  | ⟨.recv _, _, l, _, _⟩ => ∀ y ∈ l, NoOverwrite y.2

/-- A reception after `k` frames were returned reports nothing exactly if no other was there. -/
def Empty (k : ℕ) : NetRec → Prop
  | ⟨.recv _, _, _, out, s'⟩ => out.len = 0 ↔ s'.seen = k
  | _ => True

/-- **Both directions at once**, in a run of calls `cs` from `s` to `s'`. -/
structure BothWays (c : Platform) (s : World) (cs : List NetRec) (s' : World) : Prop where
  received : List.Forall₂ Returned (s'.stored.take (taken cs).length) (taken cs)
  empty : ∀ pre x post, cs = pre ++ x :: post → Empty (taken pre).length x
  sent : s'.sent = s.sent ++ handed c cs
  each : ∀ x ∈ cs, CallOk x

/-- A call, from a state between two calls. -/
structure Serves (c : Platform) (b : RxBuffers) (r : ℕ) (f : List (Option (List UInt8)))
    (x : NetRec) : Prop where
  rx : RxMid c b (r + (taken [x]).length) x.after
  tx : ∃ E, TxMid E (f ++ handed c [x]) x.after
  ok : CallOk x
  empty : Empty r x
  frame : ∀ y, takenBy x = some y → ∃ e, x.after.stored[r]? = some e ∧ Returned e y

theorem serves_send {v : Int} (hrx : RxMid c b r s) (htx : TxMid E f s)
    (hc : Clear b packet (12 + length.toNat))
    (hr : Run (edmaBoth c) s (ipq4019EthSend c packet length) l s' (.ret v)) :
    Serves c b r f ⟨.send packet length, s, l, v, s'⟩ := by
  obtain ⟨⟨n, hB⟩, hf⟩ := htx
  have hrx' := wp_run_ret (wp_send_rx hrx) hr fun _ _ h => h.elim
  have hno := inv_run (wp_send_rx hrx) hr fun _ _ h => h.elim
  refine ⟨hrx', ?_, ⟨hno, sendResult hB hr⟩, trivial, fun y hy => by cases hy⟩
  obtain ⟨E', n', hB'⟩ := between_both hB hr
  refine ⟨E', ⟨n', hB'⟩, ?_⟩
  by_cases h16 : edmaMinPktSize ≤ length.toNat
  · have hsent := wp_run_free (wp_send_sent hB hrx h16 hc) hr
    simp only [handed, List.filterMap_cons, List.filterMap_nil, handedBy, if_pos h16]
    rw [← hf]
    exact hsent
  · have hsent : wp (edmaBoth c) .free (ipq4019EthSend c packet length) (fun _ t => t.sent = f) s := by
      unfold ipq4019EthSend
      rw [if_pos (not_le.mp h16)]
      exact wp_ret sent_stable (fun _ _ => trivial) (fun _ h => h) hf
    simp only [handed, List.filterMap_cons, List.filterMap_nil, handedBy, if_neg h16, List.append_nil]
    have hend := wp_run_free hsent hr
    exact hend

theorem serves_recv (hm : 1 ≤ m) (hrx : RxMid c b r s) (htx : TxMid E f s)
    (hr : Run (edmaBoth c) s (ipq4019EthRecv m) l s' (.ret out)) :
    Serves c b r f ⟨.recv m, s, l, out, s'⟩ := by
  have hwp := wp_recv_both (m := m) hrx htx
  have hno := inv_run hwp hr fun _ _ h => h.elim
  obtain ⟨⟨hpost, -⟩, htx', hb⟩ := wp_run_ret hwp hr fun _ _ h => h.elim
  have htx'' : ∃ E, TxMid E (f ++ handed c [⟨.recv m, s, l, out, s'⟩]) s' := by
    have hnone : handedBy c ⟨.recv m, s, l, out, s'⟩ = none := rfl
    refine ⟨E, ?_⟩
    rwa [handed, List.filterMap_cons_none hnone, List.filterMap_nil, List.append_nil]
  rcases hpost with ⟨hidle, rfl, hseen⟩ | ⟨hidle, -, -, hv⟩ | ⟨e, hidle, he, -, ho, hseen⟩
  · exact ⟨⟨hidle, hb⟩, htx'', hno, iff_of_true rfl hseen, fun y hy => by simp [takenBy] at hy⟩
  · obtain ⟨e, he, hv⟩ := hv id
    exact absurd (entry_ok hidle r e he).1 hv
  · obtain ⟨hne, hret⟩ := returned_of_delivers hm (entry_ok hidle r e he) ho
    have htaken : takenBy ⟨.recv m, s, l, out, s'⟩ = some (m, out) := if_pos hne
    refine ⟨⟨?_, hb⟩, htx'', hno, iff_of_false hne (by omega), fun y hy => ?_⟩
    · simpa [taken, htaken] using hidle
    · rw [htaken] at hy
      obtain rfl := Option.some.inj hy
      exact ⟨e, he, hret⟩

theorem serves_call {x : NetCall} {v : x.Out} (hx : Careful b x) (hrx : RxMid c b r s)
    (htx : TxMid E f s) (hr : Run (edmaBoth c) s (x.prog c) l s' (.ret v)) :
    Serves c b r f ⟨x, s, l, v, s'⟩ := by
  cases x with
  | send packet length => exact serves_send hrx htx hx hr
  | recv m => exact serves_recv hx hrx htx hr

theorem taken_cons (x : NetRec) (cs : List NetRec) : taken (x :: cs) = taken [x] ++ taken cs :=
  List.filterMap_append (l := [x])

theorem handed_cons (x : NetRec) (cs : List NetRec) :
    handed c (x :: cs) = handed c [x] ++ handed c cs := List.filterMap_append (l := [x])

/-- What was completed stays on record, over whole runs. -/
theorem stored_run {cs : List NetRec} (h : NetRun c s cs s') : s.stored <+: s'.stored :=
  (h.rel (R := fun s s' => s.stored <+: s'.stored) (fun _ => List.prefix_rfl)
    (fun s₁ s₂ s₃ (h₁ : s₁.stored <+: s₂.stored) (h₂ : s₂.stored <+: s₃.stored) => h₁.trans h₂)
    (fun _ _ hs => (frame_edma hs).2.2.2.2.1) fun o s => by
      have hsame := step_stored (c := c) o s
      change s.stored <+: (step c o s).2.stored
      simp only [hsame, List.prefix_rfl]).1

/-- **A run of calls**, after `r` frames were returned. -/
theorem run_both {cs : List NetRec} (h : NetRun c s cs s') (hcs : ∀ x ∈ cs, Careful b x.call)
    (hrx : RxMid c b r s) (htx : TxMid E f s) :
    List.Forall₂ Returned ((s'.stored.drop r).take (taken cs).length) (taken cs) ∧
      (∀ pre x post, cs = pre ++ x :: post → Empty (r + (taken pre).length) x) ∧
      s'.sent = f ++ handed c cs ∧ ∀ x ∈ cs, CallOk x := by
  induction h generalizing r E f with
  | nil s => exact ⟨.nil, by simp, by simpa [handed] using htx.2, by simp⟩
  | env he _ ih => exact ih hcs (RxMid.stable _ _ he hrx) (TxMid.stable _ _ he htx)
  | @call s s₁ s' x l v cs hr h ih =>
    obtain ⟨hx, hrest⟩ := List.forall_mem_cons.mp hcs
    have hserves := serves_call hx hrx htx hr
    generalize hy : (⟨x, s, l, v, s₁⟩ : NetRec) = y at hserves
    obtain rfl : y.after = s₁ := by rw [← hy]
    obtain ⟨E', htx'⟩ := hserves.tx
    obtain ⟨hret, hempty, hsent, hok⟩ := ih hrest hserves.rx htx'
    refine ⟨?_, ?_, ?_, List.forall_mem_cons.mpr ⟨hserves.ok, hok⟩⟩
    · rw [taken_cons]
      cases hby : takenBy y with
      | none =>
        have h0 : taken [y] = [] := List.filterMap_cons_none hby
        rw [h0] at hret ⊢
        exact hret
      | some z =>
        have h1 : taken [y] = [z] := List.filterMap_cons_some hby
        obtain ⟨e, he, hz⟩ := hserves.frame z hby
        obtain ⟨hlt, hget⟩ := List.getElem?_eq_some_iff.mp (getElem?_of_isPrefix (stored_run h) he)
        rw [h1] at hret ⊢
        rw [List.singleton_append, List.length_cons, List.drop_eq_getElem_cons hlt,
          List.take_succ_cons, hget]
        exact .cons hz hret
    · intro pre z post hsplit
      cases pre with
      | nil =>
        obtain ⟨rfl, -⟩ := List.cons.inj hsplit
        exact hserves.empty
      | cons w pre =>
        obtain ⟨rfl, htail⟩ := List.cons.inj hsplit
        have hz := hempty pre z post htail
        rwa [taken_cons, List.length_append, ← Nat.add_assoc]
    · rw [hsent, handed_cons y cs, List.append_assoc]

/-! ### From bring-up on -/

/-- Bring-up of both rings leaves them between two calls. -/
theorem mid_start {w : World} (hw : Fresh w) (h8 : w.hw.tpdCons.toNat < noOfTxDesc)
    (ho : w.owned = []) (hf : w.filled = []) : RxMid c w.netRxPackets 0 (Resync.start c w) ∧
      ∃ E, TxMid E (Resync.start c w).sent (Resync.start c w) := by
  obtain ⟨reg, sent, hinit⟩ := exec_initDesc c TxStep w
  have htx : TxRing.Idle (TxRing.start c w) := TxRing.idle_start h8 ho hf
  have hfresh : Fresh (TxRing.start c w) := by
    rw [TxRing.start, hinit]
    exact ⟨hw.cons, hw.pending, hw.stored, hw.copied⟩
  have hbufs : (TxRing.start c w).netRxPackets = w.netRxPackets := by
    rw [TxRing.start, hinit]
  have hidle : Idle c FrameOk False 0 (Resync.start c w) := idle_start hfresh
  obtain ⟨u, hu⟩ := exec_initRfdRing c TxStep (TxRing.start c w)
  have hboth : Resync.start c w = _ := hu
  rw [hboth] at hidle ⊢
  refine ⟨⟨hidle, hbufs⟩, _, ⟨0, TxResult.Between.of_idle ?_⟩, rfl⟩
  exact ⟨htx.head, htx.prod, htx.cons, htx.owned, htx.filled⟩

/-- **Both directions at once**: in every run of sends and receptions from bring-up on, whenever the
EDMA goes on in either direction. -/
theorem duplex (c : Platform) (w : World) (hw : Fresh w) (h8 : w.hw.tpdCons.toNat < noOfTxDesc)
    (ho : w.owned = []) (hf : w.filled = []) (cs : List NetRec) (s' : World)
    (h : NetRun c (Resync.start c w) cs s') (hcs : ∀ x ∈ cs, Careful w.netRxPackets x.call) :
    BothWays c (Resync.start c w) cs s' := by
  obtain ⟨hrx, E, htx⟩ := mid_start (c := c) hw h8 ho hf
  obtain ⟨hret, hempty, hsent, hok⟩ := run_both h hcs hrx htx
  refine ⟨hret, fun pre x post hsplit => ?_, hsent, hok⟩
  have hx := hempty pre x post hsplit
  rwa [Nat.zero_add] at hx

/-- A packet of 64 bytes below the receive buffers. -/
theorem clear_cold : Clear (World.cold 0 0 fun _ => 0).netRxPackets 0x81002000 (12 + 64) := by
  intro i hi k hk x hx h
  have hnat := congrArg UInt32.toNat h
  simp only [World.cold, RxBuffers.block, UInt32.toNat_add, UInt32.toNat_ofNat', noOfRxDesc,
    edmaRxBufSize] at *
  change (0x81002000 + k % 2 ^ 32) % 2 ^ 32 =
    ((0x82000000 + i * 2048 % 2 ^ 32) % 2 ^ 32 + x % 2 ^ 32) % 2 ^ 32 at hnat
  omega

/-- Rings just brought up. -/
def up : World := Resync.start .flat (.cold 0 0 fun _ => 0)

/-- A frame is received, then a packet sent and the frame fetched. -/
def sendRecv : List NetRec :=
  let x := still (edmaBoth .flat) (NetCall.prog .flat) (.send 0x81002000 64)
    (up.complete (rrdOf 0x8000) [0])
  [x, still (edmaBoth .flat) (NetCall.prog .flat) (.recv 1536) x.after]

theorem duplex_one : ∃ s', NetRun .flat up sendRecv s' ∧ BothWays .flat up sendRecv s' := by
  have hne : up.hw.rfdCons ≠ up.hw.rfdProd := by decide +kernel
  have hframe : FrameOk (rrdOf 0x8000) [0] := ⟨by decide, rfl, by decide, by decide⟩
  have hrun : NetRun .flat up sendRecv _ := .env (Or.inl (.complete hne hframe))
    ((CallRun.still (NetCall.send 0x81002000 64) _).trans (CallRun.still (NetCall.recv 1536) _))
  refine ⟨_, hrun, duplex .flat (.cold 0 0 fun _ => 0) fresh_cold (by decide) rfl rfl sendRecv _ hrun
    (List.forall_mem_cons.mpr ⟨clear_cold, List.forall_mem_cons.mpr ⟨?_, by simp⟩⟩)⟩
  show (1 : Int) ≤ 1536
  decide

end Ipq4019.Edma.Duplex
