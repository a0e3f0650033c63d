import Ipq4019.Edma.Recv
import Ipq4019.Edma.TxRing

/-!
# Bring-up beside an EDMA that holds indices from before

`edma_init_desc` takes over the transmit index that the EDMA holds, as it is; `edma_init_rfd_ring`
starts at 0 and does not look at the receive index.  The wrap test of a send is an equality and its
flush is one range, so both rest on a head that is a multiple of 4 below 8.

* `Synced`: the state between two calls, kept by sends and receptions (`wp_ethSend`, `wp_ethRecv`).
* `resync_iff`: the driver and the EDMA agree in all later runs exactly if the transmit index is 0
  or 4 and the receive index is 0.
-/

namespace Ipq4019.Edma.Resync

open Ipq4019.Lib.Interleave Ipq4019.Lib.Interleave.Prog Ipq4019.Lib.Memory Ipq4019.Lib.Ring
open Ipq4019.Edma.Driver Ipq4019.Edma.Device Ipq4019.Edma.Init Ipq4019.Edma.Send
open Ipq4019.Edma.RxRing Ipq4019.Edma.Recv

/-- The EDMA of this module: whatever it receives, and its index may be ahead of the memory. -/
abbrev edmaAny (c : Platform) : Machine edmaSig World := edma c (EdmaStep (fun _ _ => True) True)

/-- Bring-up of both rings. -/
def start (c : Platform) (w : World) : World := Recv.start c (TxRing.start c w)

/-! ### What must hold of the runs -/

/-- **The chain of a send**: where the doorbell is rung, the descriptors stored since the last one
are four consecutive slots of the ring, and the last range flushed is theirs. -/
def ChainOk : EdmaOp → World → Prop
  | .writel _ .tpdIdxQ, s => ∃ h, h + edmaTpdsPerPacket ≤ noOfTxDesc ∧
      s.filled = List.range' h edmaTpdsPerPacket ∧
      s.lastFlush = (s.dev.tpdRing + UInt32.ofNat (sizeofEdmaTpd * h), 64)
  | _, _ => True

/-- The driver and the EDMA agree in every run from bring-up on. -/
structure Resynced (c : Platform) (w : World) : Prop where
  head : ∀ xs l s p, Run (edmaAny c) (start c w) (netCalls c xs) l s p →
    s.dev.tpdHead.toNat < noOfTxDesc
  chain : ∀ xs l s p, Run (edmaAny c) (start c w) (netCalls c xs) l s p → ∀ x ∈ l, ChainOk x.1 x.2
  silent : ∀ xs l s outs, Run (edmaAny c) (start c w) (netCalls c xs) l s (.ret outs) →
    s.stored = [] → ∀ out ∈ outs, out.len = 0

def resyncContract : Contract edmaSig World where
  inv s := s.dev.tpdHead.toNat < noOfTxDesc
  asm _ _ := True
  ok := ChainOk

/-! ### The states between the calls -/

/-- Transmission: the head is where a group of four descriptors begins. -/
structure TxSynced (s : World) : Prop where
  head : s.dev.tpdHead.toNat = 0 ∨ s.dev.tpdHead.toNat = edmaTpdsPerPacket
  filled : s.filled = []

/-- Reception: nothing is due before a descriptor was completed. -/
def RxSynced (s : World) : Prop := s.stored = [] → s.hw.rfdCons.val = s.dev.rfdTail.toNat

/-- Both directions. -/
def Synced (s : World) : Prop := TxSynced s ∧ RxSynced s

variable {c : Platform} {packet : UInt32} {length : UInt16} {s : World}

theorem TxSynced.lt (h : TxSynced s) : s.dev.tpdHead.toNat < noOfTxDesc := by
  rcases h.head with h | h <;> rw [h] <;> decide

/-- What the EDMA leaves alone, and what it adds. -/
theorem env_frame {s s' : World} (h : (edmaAny c).env s s') :
    (s'.dev = s.dev ∧ s'.filled = s.filled ∧ s'.lastFlush = s.lastFlush) ∧
      (s'.stored = [] → s.stored = [] ∧ s'.hw.rfdCons = s.hw.rfdCons) := by
  rcases h with h | h
  · cases h with
    | complete _ _ => exact ⟨⟨rfl, rfl, rfl⟩, fun h0 => by simp [World.complete] at h0⟩
    | advance _ _ _ => exact ⟨⟨rfl, rfl, rfl⟩, fun h0 => by simp [World.advance] at h0⟩
    | land _ _ => exact ⟨⟨rfl, rfl, rfl⟩, fun h0 => ⟨h0, rfl⟩⟩
  · obtain ⟨_⟩ := h
    exact ⟨⟨rfl, rfl, rfl⟩, fun h0 => ⟨h0, rfl⟩⟩

theorem TxSynced.stable : Stable (edmaAny c) TxSynced := by
  intro s s' hs ⟨h₁, h₂⟩
  obtain ⟨⟨hd, hf, -⟩, -⟩ := env_frame hs
  exact ⟨hd ▸ h₁, hf.trans h₂⟩

theorem RxSynced.stable : Stable (edmaAny c) RxSynced := by
  intro s s' hs h h0
  obtain ⟨⟨hd, -, -⟩, hst⟩ := env_frame hs
  obtain ⟨h1, hc⟩ := hst h0
  rw [hc, hd]
  exact h h1

theorem Synced.stable : Stable (edmaAny c) Synced := TxSynced.stable.and RxSynced.stable

theorem head_stable : Stable (edmaAny c) fun s => s.dev.tpdHead.toNat < noOfTxDesc := by
  intro s s' hs h
  rwa [(env_frame hs).1.1]

/-! ### A send -/

/-- Before the doorbell of a send that began at the head `h`. -/
structure Armed (h : ℕ) (s : World) : Prop where
  head : s.dev.tpdHead.toNat = (h + edmaTpdsPerPacket) % noOfTxDesc
  filled : s.filled = List.range' h edmaTpdsPerPacket
  flush : s.lastFlush = (s.dev.tpdRing + UInt32.ofNat (sizeofEdmaTpd * h), 64)
  rx : RxSynced s

theorem Armed.stable (h : ℕ) : Stable (edmaAny c) (Armed h) := by
  intro s s' hs ⟨h₁, h₂, h₃, h₄⟩
  obtain ⟨⟨hd, hf, hl⟩, -⟩ := env_frame hs
  exact ⟨hd ▸ h₁, hf.trans h₂, hd ▸ hl.trans h₃, RxSynced.stable s s' hs h₄⟩

theorem slots_eq {h : ℕ} (hh : h + edmaTpdsPerPacket ≤ noOfTxDesc) :
    slots h edmaTpdsPerPacket = List.range' h edmaTpdsPerPacket := by
  unfold slots
  refine (List.map_congr_left fun i hi => ?_).trans (List.map_id _)
  have := List.mem_range'_1.mp hi
  exact Nat.mod_eq_of_lt (by omega)

theorem TxSynced.le (h : TxSynced s) : s.dev.tpdHead.toNat + edmaTpdsPerPacket ≤ noOfTxDesc := by
  rcases h.head with h | h <;> rw [h] <;> decide

theorem Synced.armed (h : Synced s) :
    Armed s.dev.tpdHead.toNat (filledUp c packet length s) := by
  obtain ⟨htx, hrx⟩ := h
  refine ⟨head_filledUp c packet length htx.lt, ?_, ?_, ?_⟩
  · rw [filled_filledUp c packet length htx.lt, htx.filled, slots_eq htx.le, List.nil_append]
  all_goals
    obtain ⟨d, r, f, h⟩ := filledUp_frame c packet length s
    rw [h]
  · rfl
  · exact hrx

theorem Synced.doneOp {o : EdmaOp} (ho : DoneOp o) (h : Synced s) : Synced (step c o s).2 := by
  cases o with
  | readl r => cases r <;> first | exact ho.elim | exact ⟨⟨h.1.head, h.1.filled⟩, h.2⟩
  | writel v r => cases r <;> first | exact ho.elim | exact ⟨⟨h.1.head, h.1.filled⟩, h.2⟩
  | _ => first | exact ho.elim | exact ⟨⟨h.1.head, h.1.filled⟩, h.2⟩

theorem chainOk_doneOp {o : EdmaOp} (ho : DoneOp o) : ChainOk o s := by
  cases o with
  | writel v r => cases r <;> first | exact ho.elim | trivial
  | _ => trivial

/-- The part of a send from the doorbell on. -/
theorem wp_armed {h : ℕ} (hh : h = 0 ∨ h = edmaTpdsPerPacket) (hs : Armed h s) :
    wp (edmaAny c) resyncContract (do
      let p ← getDev
      writel p.tpdHead.toUInt32 .tpdIdxQ
      txComplete length) (fun _ => Synced) s := by
  have hle : h + edmaTpdsPerPacket ≤ noOfTxDesc := by rcases hh with rfl | rfl <;> decide
  have hinv : ∀ s, Armed h s → resyncContract.inv s := by
    intro s hs
    change s.dev.tpdHead.toNat < noOfTxDesc
    rw [hs.head]
    exact Nat.mod_lt _ (by decide)
  refine wp_op (Armed.stable h) hinv ?_ (fun s hs _ => ?_) hs
  · exact fun _ _ => trivial
  refine wp_op (Armed.stable h) hinv ?_ (fun s hs _ => ?_) hs
  · exact fun s hs => ⟨h, hle, hs.filled, hs.flush⟩
  refine wp_of_uses Synced.stable (fun s hs => hs.1.lt) (fun o s ho _ => chainOk_doneOp ho)
    (fun o s ho hs => hs.doneOp ho) uses_txComplete ⟨⟨?_, rfl⟩, hs.rx⟩
  change s.dev.tpdHead.toNat = 0 ∨ s.dev.tpdHead.toNat = edmaTpdsPerPacket
  rw [hs.head]
  rcases hh with rfl | rfl
  · exact Or.inr rfl
  · exact Or.inl rfl

/-- **A send** keeps the driver and the EDMA in step. -/
theorem wp_ethSend (hs : Synced s) : wp (edmaAny c) resyncContract
    (ipq4019EthSend c packet length) (fun _ => Synced) s := by
  by_cases h16 : length.toNat < edmaMinPktSize
  · unfold ipq4019EthSend
    rw [if_pos h16]
    exact wp_ret Synced.stable (fun s hs => hs.1.lt) (fun _ h => h) hs
  · refine wp_send (I := fun s => s.dev.tpdHead.toNat < noOfTxDesc ∧ RxSynced s)
      (fun o ho => quiet_edma c ho) (head_stable.and RxSynced.stable) ?_ ?_ (not_lt.mp h16)
      ⟨hs.1.lt, hs.2⟩ (wp_armed hs.1.head hs.armed)
    · rintro o s ho ⟨hlt, -⟩
      refine ⟨hlt, ?_⟩
      cases o <;> first | exact ho.elim | trivial
    · rintro o s ho ⟨hlt, hrx⟩
      cases o with
      | modDev f =>
        obtain rfl : f = bumpHead := ho
        refine ⟨?_, hrx⟩
        change (bump noOfTxDesc s.dev.tpdHead).toNat < noOfTxDesc
        rw [toNat_bump hlt (by decide)]
        exact Nat.mod_lt _ (by decide)
      | _ => first | exact ho.elim | exact ⟨hlt, hrx⟩

/-! ### A reception -/

/-- The accesses of `ipq4019_eth_recv`. -/
def RecvOp : EdmaOp → Prop
  | .modDev f => ∀ p, (f p).tpdHead = p.tpdHead
  | .storeTpd _ _ | .writel _ .tpdIdxQ => False
  | _ => True

theorem uses_rxTake (m : Int) (tail : UInt16) : (rxTake m tail).Uses RecvOp := by
  refine ⟨trivial, fun pkt => ⟨trivial, fun _ => ⟨trivial, fun (rrd7 : UInt16) => ?_⟩⟩⟩
  change (if rrd7 &&& edmaRrd7DescValid = 0 then .ret ⟨0, 0, []⟩ else rxCopy m pkt :
    Drv RecvOut).Uses RecvOp
  split
  · trivial
  · exact ⟨trivial, fun _ => ⟨trivial, fun _ => ⟨trivial, fun _ => ⟨trivial, fun _ =>
      ⟨fun _ => rfl, fun _ => ⟨fun _ => rfl, fun _ => ⟨trivial, fun _ => ⟨trivial, fun _ =>
        trivial⟩⟩⟩⟩⟩⟩⟩⟩

theorem uses_ethRecv (m : Int) : (ipq4019EthRecv m).Uses RecvOp := by
  refine ⟨trivial, fun (v : UInt32) => ⟨trivial, fun p => ?_⟩⟩
  change (if ((v >>> edmaRfdConsIdxShift) &&& edmaRfdConsIdxMask : UInt32).toNat = p.rfdTail.toNat
    then .ret ⟨0, 0, []⟩ else rxTake m p.rfdTail : Drv RecvOut).Uses RecvOp
  split
  · trivial
  · exact uses_rxTake m p.rfdTail

theorem TxSynced.recvOp {o : EdmaOp} (ho : RecvOp o) (h : TxSynced s) :
    TxSynced (step c o s).2 := by
  cases o with
  | readl r => cases r <;> exact ⟨h.head, h.filled⟩
  | writel v r => cases r <;> first | exact ho.elim | exact ⟨h.head, h.filled⟩
  | modDev f =>
    refine ⟨?_, h.filled⟩
    change (f s.dev).tpdHead.toNat = 0 ∨ (f s.dev).tpdHead.toNat = edmaTpdsPerPacket
    rw [ho s.dev]
    exact h.head
  | _ => first | exact ho.elim | exact ⟨h.head, h.filled⟩

theorem chainOk_recvOp {o : EdmaOp} (ho : RecvOp o) : ChainOk o s := by
  cases o with
  | writel v r => cases r <;> first | exact ho.elim | trivial
  | _ => trivial

/-- A call returns nothing as long as nothing is completed. -/
theorem wp_silent {m : Int} (hs : RxSynced s) : wp (edmaAny c) .free (ipq4019EthRecv m)
    (fun out s => RxSynced s ∧ (s.stored = [] → out.len = 0)) s := by
  refine wp_op RxSynced.stable (fun _ _ => trivial) (fun _ _ => trivial) (fun s hs _ => ?_) hs
  -- the index read is the tail, unless something is completed
  have hB : Stable (edmaAny c) fun t => RxSynced t ∧
      (t.stored = [] → s.hw.rfdCons.val = t.dev.rfdTail.toNat) := by
    refine RxSynced.stable.and fun t t' ht h h0 => ?_
    obtain ⟨⟨hd, -, -⟩, hst⟩ := env_frame ht
    rw [hd]
    exact h (hst h0).1
  refine wp_op hB (fun _ _ => trivial) (fun _ _ => trivial) (fun t ht _ => ?_) ⟨hs, hs⟩
  change wp (edmaAny c) .free (if ((s.readReg .rfdIdxQ >>> edmaRfdConsIdxShift) &&&
    edmaRfdConsIdxMask).toNat = t.dev.rfdTail.toNat then .ret ⟨0, 0, []⟩
    else rxTake m t.dev.rfdTail) _ t
  rw [rfdCons_field]
  split
  · exact wp_ret RxSynced.stable (fun _ _ => trivial) (fun _ h => ⟨h, fun _ => rfl⟩) ht.1
  · rename_i hne
    have hnil : Stable (edmaAny c) fun t => t.stored ≠ [] :=
      fun t t' ht h h0 => h ((env_frame ht).2 h0).1
    refine wp_mono (fun out u hu => ⟨fun h0 => absurd h0 hu, fun h0 => absurd h0 hu⟩)
      (wp_of_uses hnil (fun _ _ => trivial) (fun _ _ _ _ => trivial) (fun o u _ hu => ?_)
        (uses_true _) fun h0 => hne (ht.2 h0))
    rwa [show ((edmaAny c).step o u).2.stored = u.stored from step_stored o u]

/-- **A reception** keeps the driver and the EDMA in step. -/
theorem wp_ethRecv {m : Int} (hs : Synced s) : wp (edmaAny c) resyncContract (ipq4019EthRecv m)
    (fun out s => Synced s ∧ (s.stored = [] → out.len = 0)) s := by
  have htx : wp (edmaAny c) resyncContract (ipq4019EthRecv m) (fun _ => TxSynced) s :=
    wp_of_uses TxSynced.stable (fun s hs => hs.lt) (fun o s ho _ => chainOk_recvOp ho)
      (fun o s ho hs => hs.recvOp ho) (uses_ethRecv m) hs.1
  exact wp_mono (fun out s h => ⟨⟨h.1, h.2.1⟩, h.2.2⟩) (wp_and_free htx (wp_silent hs.2))

/-! ### Whole runs -/

/-- What is known of the runs without a completed descriptor. -/
theorem stable_until {P : Prop} : Stable (edmaAny c) fun s => s.stored = [] → P :=
  fun _ _ hs h h0 => h ((env_frame hs).2 h0).1

theorem wp_until {α : Type} {P : Prop} (p : Drv α) (hs : s.stored = [] → P) :
    wp (edmaAny c) .free p (fun _ s => s.stored = [] → P) s := by
  refine wp_of_uses stable_until (fun _ _ => trivial) (fun _ _ _ _ => trivial) ?_ (uses_true p) hs
  intro o t _ h
  rwa [show ((edmaAny c).step o t).2.stored = t.stored from step_stored o t]

/-- **Any sequence of calls** keeps the driver and the EDMA in step. -/
theorem wp_netCalls (xs : List NetCall) : ∀ {s : World}, Synced s →
    wp (edmaAny c) resyncContract (netCalls c xs)
      (fun outs s => Synced s ∧ (s.stored = [] → ∀ out ∈ outs, out.len = 0)) s := by
  have hlt : ∀ s, Synced s → s.dev.tpdHead.toNat < noOfTxDesc := fun s hs => hs.1.lt
  induction xs with
  | nil => exact fun hs => wp_ret Synced.stable hlt (fun _ h => ⟨h, fun _ => by simp⟩) hs
  | cons x xs ih =>
    intro s hs
    cases x with
    | send packet length => exact wp_bind (wp_mono (fun _ _ h => ih h) (wp_ethSend hs))
    | recv m =>
      refine wp_bind (wp_mono (fun out t ht => ?_) (wp_ethRecv hs))
      obtain ⟨ht, hout⟩ := ht
      refine wp_bind (wp_mono (fun outs u hu => ?_) (wp_and_free (ih ht) (wp_until _ hout)))
      obtain ⟨⟨hu, houts⟩, hout⟩ := hu
      refine wp_ret (Synced.stable.and stable_until) (fun s h => hlt s h.1) (fun _ h => h) ⟨hu, ?_⟩
      exact fun h0 => List.forall_mem_cons.mpr ⟨hout h0, houts h0⟩

theorem Synced.resynced {w : World} (h : Synced (start c w)) : Resynced c w where
  head xs _ _ _ hr := wp_inv (wp_run (wp_netCalls xs h) hr fun _ _ => trivial)
  chain xs _ _ _ hr := ok_run (wp_netCalls xs h) hr fun _ _ => trivial
  silent xs _ _ _ hr := (wp_run_ret (wp_netCalls xs h) hr fun _ _ => trivial).2

/-! ### Bring-up -/

/-- What bring-up leaves. -/
structure Started (w s : World) : Prop where
  head : s.dev.tpdHead = w.hw.tpdCons
  tail : s.dev.rfdTail = 0
  cons : s.hw.rfdCons = w.hw.rfdCons
  filled : s.filled = []
  stored : s.stored = w.stored
  mem : s.mem = w.mem
  ptr : s.netRxPackets = w.netRxPackets

theorem started (c : Platform) (w : World) : Started w (start c w) := by
  obtain ⟨reg, sent, hw⟩ := exec_initDesc c TxStep w
  have hw' : TxRing.start c w = _ := hw
  obtain ⟨u, hu⟩ := exec_initRfdRing c TxStep (TxRing.start c w)
  rw [start, Recv.start, hu, hw']
  exact ⟨rfl, rfl, rfl, rfl, rfl, rfl, rfl⟩

theorem Started.synced {w s : World} (h : Started w s)
    (htx : w.hw.tpdCons = 0 ∨ w.hw.tpdCons = 4) (hrx : w.hw.rfdCons = 0) : Synced s := by
  refine ⟨⟨?_, h.filled⟩, fun _ => ?_⟩
  · rw [h.head]
    rcases htx with htx | htx
    · exact Or.inl (by rw [htx]; rfl)
    · exact Or.inr (by rw [htx]; rfl)
  · rw [h.cons, h.tail, hrx]
    rfl

/-! ### Indices out of step -/

/-- The first slot of a chain that is as it must be. -/
theorem le_of_chainOk {w : World} {v : UInt32} (hh : w.dev.tpdHead.toNat < noOfTxDesc)
    (hf : w.filled = [])
    (h : ChainOk (.writel v .tpdIdxQ) (filledUp c packet length w)) :
    w.dev.tpdHead.toNat + edmaTpdsPerPacket ≤ noOfTxDesc := by
  obtain ⟨k, hk, hfill, -⟩ := h
  rw [filled_filledUp c packet length hh, hf] at hfill
  have hhead : w.dev.tpdHead.toNat % noOfTxDesc = k := (List.cons.inj hfill).1
  rw [Nat.mod_eq_of_lt hh] at hhead
  omega

/-- Two sends show whether the head is where a group begins. -/
theorem Resynced.aligned {w : World} (h : Resynced c w) :
    w.hw.tpdCons = 0 ∨ w.hw.tpdCons = 4 := by
  have hs := started c w
  have hlt : (start c w).dev.tpdHead.toNat < noOfTxDesc := h.head [] _ _ _ .refl
  have h16 : edmaMinPktSize ≤ (64 : UInt16).toNat := by decide
  have hr := run_exec (M := edmaAny c) (netCalls c [.send 0x81002000 64, .send 0x81002000 64])
    (start c w)
  have hok := h.chain _ _ _ _ hr
  have h₁ := le_of_chainOk hlt hs.filled
    (hok _ (mem_hist_left (doorbell_mem_hist c 0x81002000 _ _ h16)))
  have hring := sameRing_exec_send c 0x81002000 (start c w) (EdmaStep (fun _ _ => True) True) h16
  have hhead : (exec (edmaAny c) (ipq4019EthSend c 0x81002000 64) (start c w)).2.dev.tpdHead.toNat =
      ((start c w).dev.tpdHead.toNat + edmaTpdsPerPacket) % noOfTxDesc := by
    rw [hring.dev, head_handed hlt]
  have h₂ := le_of_chainOk (by rw [hhead]; exact Nat.mod_lt _ (by decide))
    (hring.filled.trans filled_handed)
    (hok _ (mem_hist_right (mem_hist_left (doorbell_mem_hist c 0x81002000 _ _ h16))))
  rw [hhead] at h₂
  rw [hs.head] at hlt h₁ h₂
  unfold noOfTxDesc edmaTpdsPerPacket at *
  have h04 : w.hw.tpdCons.toNat = 0 ∨ w.hw.tpdCons.toNat = 4 := by omega
  exact h04.imp (fun h0 => UInt16.toNat_inj.mp h0) fun h4 => UInt16.toNat_inj.mp h4

/-- A valid frame of one byte. -/
def leftover : RxEntry := ⟨0, 0, rrdOf 0x8000, [0]⟩

/-- A call that finds the index away from the tail returns what was left in the first buffer. -/
theorem leftover_returned {w : World} (hrx : w.hw.rfdCons ≠ 0)
    (hb : read w.mem (c.virtToPhys (w.netRxPackets.ptr 0)) leftover.bytes.length =
      leftover.bytes) :
    (exec (edmaAny c) (ipq4019EthRecv 1536) (start c w)).1 = ⟨0, 1, [0]⟩ := by
  have hs := started c w
  have htail : (start c w).dev.rfdTail.toNat = 0 := by rw [hs.tail]; rfl
  refine (exec_recv c _ (e := leftover) ?_ (by decide) ?_ (by decide)).trans rfl
  · rw [hs.cons, htail]
    exact fun h0 => hrx (Fin.ext h0)
  · rw [hs.mem, hs.ptr, htail]
    exact hb

/-- A memory whose first buffer holds a frame from before shows whether the index is at the tail. -/
theorem rfdCons_eq_zero {w : World} (h : Resynced c w) (hst : w.stored = [])
    (hb : read w.mem (c.virtToPhys (w.netRxPackets.ptr 0)) leftover.bytes.length =
      leftover.bytes) : w.hw.rfdCons = 0 := by
  by_contra hrx
  have hout := leftover_returned hrx hb
  have hr := run_exec (M := edmaAny c) (netCalls c [.recv 1536]) (start c w)
  have hend : (exec (edmaAny c) (netCalls c [.recv 1536]) (start c w)).2.stored = [] :=
    exec_of_uses (A := fun s => s.stored = []) (P := fun _ => True)
      (fun o t _ ht => (step_stored o t).trans ht) (uses_true _) ((started c w).stored.trans hst)
  have h0 := h.silent _ _ _ _ hr hend (exec (edmaAny c) (ipq4019EthRecv 1536) (start c w)).1
    (by
      unfold netCalls
      rw [exec_bind]
      exact List.mem_cons_self)
  rw [hout] at h0
  exact absurd h0 (by decide)

/-- **Resynchronisation**: in all later runs the driver and the EDMA agree, whatever the memory
holds, exactly if the transmit index is 0 or 4 and the receive index is 0. -/
theorem resync_iff (c : Platform) (tpdCons : UInt16) (rfdCons : Fin 4096) :
    (∀ w : World, w.hw.tpdCons = tpdCons → w.hw.rfdCons = rfdCons → w.stored = [] →
      Resynced c w) ↔ (tpdCons = 0 ∨ tpdCons = 4) ∧ rfdCons = 0 := by
  constructor
  · intro h
    have hw := h (.cold tpdCons rfdCons (write (fun _ => 0) (c.virtToPhys (0x82000000 +
      UInt32.ofNat (0 * edmaRxBufSize))) leftover.bytes)) rfl rfl rfl
    exact ⟨hw.aligned, rfdCons_eq_zero hw rfl (read_write_self _ _ (by decide))⟩
  · rintro ⟨htx, hrx⟩ w rfl rfl -
    exact ((started c w).synced htx hrx).resynced

/-- Resynchronisation fails: indices 1 and 0. -/
theorem resync_fails : ¬ ∀ (c : Platform) (tpdCons : UInt16) (rfdCons : Fin 4096) (w : World),
    w.hw.tpdCons = tpdCons → w.hw.rfdCons = rfdCons → w.stored = [] → Resynced c w := by
  intro h
  have hal := (h .flat 1 0 (.cold 1 0 fun _ => 0) rfl rfl rfl).aligned
  exact absurd hal (by decide)

end Ipq4019.Edma.Resync
