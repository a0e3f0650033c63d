import Ipq4019.Edma.Device

/-!
# The EDMA rings: what a send hands to the EDMA

`txFill` touches only the driver's side, so beside any EDMA it does what `filledUp` says
(`exec_txFill`, `wp_send`): four descriptors, in the slots from `tpd_head` on modulo 8.

The frame these four describe is *not* the packet: the last descriptor, which begins 12 bytes into
the packet, carries the length of the whole packet instead of what the first three have left
(`gather_filledUp`), so every send hands over 12 bytes that lie behind the packet
(`eth_send_frame`).
-/

namespace Ipq4019.Edma.Send

open Ipq4019.Lib.Interleave Ipq4019.Lib.Interleave.Prog Ipq4019.Lib.Memory Ipq4019.Lib.Ring
open Ipq4019.Edma.Driver Ipq4019.Edma.Device

variable {c : Platform} {packet : UInt32} {length : UInt16} {w : World}

/-! ### The descriptors of a packet -/

/-- The descriptor of round `i`. -/
def tpdOf (c : Platform) (packet : UInt32) (length : UInt16) (i : ℕ) : EdmaTpd where
  len := if i < edmaTpdsPerPacket - 1 then UInt16.ofNat edmaTpdMinBytes else length
  svlanTag := 0
  word1 := if i < edmaTpdsPerPacket - 1 then 0 else (1 : UInt32) <<< edmaTpdEopShift
  addr := c.virtToPhys (packet + UInt32.ofNat (i * edmaTpdMinBytes))
  word3 := edmaPortEnableAll <<< edmaTpdPortBitmapShift

/-- `p->tpd_head++`, with its wrap. -/
def bumpHead (p : IpqEdmaDev) : IpqEdmaDev := { p with tpdHead := bump noOfTxDesc p.tpdHead }

/-- The world after the first `k` rounds of the loop. -/
def fill (c : Platform) (packet : UInt32) (length : UInt16) (w : World) : ℕ → World
  | 0 => w
  | k + 1 =>
    let s := fill c packet length w k
    { s with
      dev := bumpHead s.dev
      tpdRing := Function.update s.tpdRing s.dev.tpdHead.toNat (tpdOf c packet length k)
      filled := s.filled ++ [s.dev.tpdHead.toNat] }

/-- The world after the flush of the packet. -/
def flushed (c : Platform) (packet : UInt32) (length : UInt16) (w : World) : World :=
  w.flush packet (alignUp length.toNat c.dcacheLineBytes)

/-- The world before the doorbell. -/
def filledUp (c : Platform) (packet : UInt32) (length : UInt16) (w : World) : World :=
  (fill c packet length (flushed c packet length w) edmaTpdsPerPacket).flush
    (w.dev.tpdRing + UInt32.ofNat (sizeofEdmaTpd * w.dev.tpdHead.toNat))
    (edmaTpdsPerPacket * sizeofEdmaTpd)

/-- The slots of `k` descriptors from position `h` on. -/
def slots (h k : ℕ) : List ℕ := (List.range' h k).map (· % noOfTxDesc)

theorem head_fill (hh : w.dev.tpdHead.toNat < noOfTxDesc) (k : ℕ) :
    (fill c packet length w k).dev.tpdHead.toNat = (w.dev.tpdHead.toNat + k) % noOfTxDesc := by
  induction k with
  | zero => exact (Nat.mod_eq_of_lt hh).symm
  | succ k ih => exact toNat_bump_of_mod ih (by decide) (by decide)

theorem filled_fill (hh : w.dev.tpdHead.toNat < noOfTxDesc) (k : ℕ) :
    (fill c packet length w k).filled = w.filled ++ slots w.dev.tpdHead.toNat k := by
  induction k with
  | zero => simp [fill, slots]
  | succ k ih =>
    simp only [fill, ih, head_fill hh, slots, List.range'_concat, List.map_append, Nat.one_mul,
      List.append_assoc, List.map_cons, List.map_nil]

/-- Each slot holds the descriptor of its round. -/
theorem tpdRing_fill (hh : w.dev.tpdHead.toNat < noOfTxDesc) {k : ℕ} (hk : k ≤ noOfTxDesc) {i : ℕ}
    (hi : i < k) : (fill c packet length w k).tpdRing ((w.dev.tpdHead.toNat + i) % noOfTxDesc) =
      tpdOf c packet length i := by
  induction k with
  | zero => exact absurd hi (Nat.not_lt_zero i)
  | succ k ih =>
    simp only [fill, head_fill hh]
    rcases Nat.lt_succ_iff_lt_or_eq.mp hi with hlt | rfl
    · rw [Function.update_of_ne (mod_ne (by omega) (by omega))]
      exact ih (by omega) hlt
    · rw [Function.update_self]

/-- What the filling leaves alone. -/
theorem fill_frame (c : Platform) (packet : UInt32) (length : UInt16) (w : World) (k : ℕ) :
    ∃ d r f, fill c packet length w k =
      { w with dev := { w.dev with tpdHead := d }, tpdRing := r, filled := f } := by
  induction k with
  | zero => exact ⟨_, _, _, rfl⟩
  | succ k ih =>
    obtain ⟨d, r, f, h⟩ := ih
    rw [fill, h]
    exact ⟨_, _, _, rfl⟩

@[simp] theorem flushed_dev : (flushed c packet length w).dev = w.dev := rfl

@[simp] theorem flushed_filled : (flushed c packet length w).filled = w.filled := rfl

theorem filled_filledUp (c : Platform) (packet : UInt32) (length : UInt16)
    (hh : w.dev.tpdHead.toNat < noOfTxDesc) :
    (filledUp c packet length w).filled =
      w.filled ++ slots w.dev.tpdHead.toNat edmaTpdsPerPacket := by
  rw [filledUp, World.flush_filled, filled_fill (by rwa [flushed_dev]), flushed_dev, flushed_filled]

theorem head_filledUp (c : Platform) (packet : UInt32) (length : UInt16)
    (hh : w.dev.tpdHead.toNat < noOfTxDesc) :
    (filledUp c packet length w).dev.tpdHead.toNat =
      (w.dev.tpdHead.toNat + edmaTpdsPerPacket) % noOfTxDesc := by
  rw [filledUp, World.flush_dev, head_fill (by rwa [flushed_dev]), flushed_dev]

theorem tpdRing_filledUp (hh : w.dev.tpdHead.toNat < noOfTxDesc) {i : ℕ}
    (hi : i < edmaTpdsPerPacket) : (filledUp c packet length w).tpdRing
      ((w.dev.tpdHead.toNat + i) % noOfTxDesc) = tpdOf c packet length i := by
  rw [filledUp, World.flush_tpdRing]
  exact tpdRing_fill (w := flushed c packet length w) hh (by decide) hi

theorem filledUp_frame (c : Platform) (packet : UInt32) (length : UInt16) (w : World) :
    ∃ d r f, filledUp c packet length w =
      { w with
        dev := { w.dev with tpdHead := d }
        tpdRing := r
        filled := f
        lastFlush := (w.dev.tpdRing + UInt32.ofNat (sizeofEdmaTpd * w.dev.tpdHead.toNat),
          edmaTpdsPerPacket * sizeofEdmaTpd) } := by
  obtain ⟨d, r, f, h⟩ := fill_frame c packet length (flushed c packet length w) edmaTpdsPerPacket
  unfold filledUp
  rw [h]
  exact ⟨d, r, f, rfl⟩

/-! ### The program before the doorbell -/

/-- The accesses of `txFill`. -/
def FillOp : EdmaOp → Prop
  | .modDev f => f = bumpHead
  | .getDev | .storeTpd _ _ | .flushRange _ _ | .dsb => True
  | _ => False

theorem FillOp.toLocal {o : EdmaOp} (h : FillOp o) : Local o := by
  cases o <;> trivial

theorem uses_txFill : (txFill c packet length).Uses FillOp := by
  have hround : ∀ s i, (fillTpd c packet length s i).Uses FillOp := fun s i =>
    ⟨trivial, fun p => ⟨rfl, fun _ => ⟨trivial, fun _ => trivial⟩⟩⟩
  have hfold : ∀ l s, (List.foldlM (fillTpd c packet length) s l).Uses FillOp := by
    intro l
    induction l with
    | nil => exact fun _ => trivial
    | cons i l ih => exact fun s => uses_bind (hround s i) ih
  exact uses_bind ⟨trivial, fun _ => trivial⟩ fun _ => uses_bind (hfold _ _) fun _ =>
    ⟨trivial, fun _ => ⟨trivial, fun _ => trivial⟩⟩

theorem exec_fillTpd {env : World → World → Prop} (s : UInt32 × Int) (k : ℕ) :
    exec (edma c env) (fillTpd c packet length s k) (fill c packet length w k) =
      ((if k = 0 then w.dev.tpdRing + UInt32.ofNat (sizeofEdmaTpd * w.dev.tpdHead.toNat) else s.1,
        s.2 - edmaTpdMinBytes), fill c packet length w (k + 1)) := by
  by_cases hk : k = 0
  · subst hk
    rfl
  · rw [if_neg hk]
    unfold fillTpd
    simp only [if_neg hk]
    rfl

/-- **What the program does before the doorbell.** -/
theorem exec_txFill {env : World → World → Prop} :
    exec (edma c env) (txFill c packet length) w = ((), filledUp c packet length w) := by
  unfold txFill filledUp
  have h0 : (exec (edma c env) (flushRange packet (alignUp length.toNat c.dcacheLineBytes)) w).2 =
    fill c packet length (flushed c packet length w) 0 := rfl
  rw [exec_bind, h0]
  simp only [show List.range edmaTpdsPerPacket = [0, 1, 2, 3] from rfl, List.foldlM_cons,
    List.foldlM_nil, pure_eq, exec_bind, exec_ret, exec_fillTpd]
  rfl

/-- **The rule of a send**, up to the doorbell: beside an EDMA that leaves the driver's side alone,
with an assertion `I` that neither the EDMA nor the accesses falsify. -/
theorem wp_send {env : World → World → Prop} {C : Contract edmaSig World} {I : World → Prop}
    (hq : ∀ o, Local o → Quiet (edma c env) o) (hI : Stable (edma c env) I)
    (hC : ∀ o s, FillOp o → I s → C.inv s ∧ C.ok o s)
    (hstep : ∀ o s, FillOp o → I s → I (step c o s).2) {Q : Int → World → Prop}
    (h16 : edmaMinPktSize ≤ length.toNat) (hw : I w)
    (h : wp (edma c env) C (do
      let p ← getDev
      writel p.tpdHead.toUInt32 .tpdIdxQ
      txComplete length) Q (filledUp c packet length w)) :
    wp (edma c env) C (ipq4019EthSend c packet length) Q w := by
  unfold ipq4019EthSend
  rw [if_neg (by omega)]
  exact wp_exec hI hC hstep (fun o ho => hq o ho.toLocal) uses_txFill hw (exec_txFill ▸ h)

/-! ### The program after the doorbell -/

/-- The accesses of `txComplete`. -/
def DoneOp : EdmaOp → Prop
  | .readl .tpdIdxQ | .udelay _ | .txTimeout _ | .getDev | .writel _ .txSwConsIdxQ => True
  | _ => False

/-- One poll. -/
theorem txWait_succ (n i : ℕ) : txWait (n + 1) i =
    .op (S := edmaSig) (.readl .tpdIdxQ) fun r : UInt32 =>
      if (r >>> edmaTpdConsIdxShift) &&& edmaTpdConsIdxMask = r &&& edmaTpdProdIdxMask then .ret i
      else .op (S := edmaSig) (.udelay 1) fun _ => txWait n (i + 1) := rfl

theorem uses_txWait (n : ℕ) : ∀ i, (txWait n i).Uses DoneOp := by
  induction n with
  | zero => exact fun _ => trivial
  | succ n ih =>
    intro i
    rw [txWait_succ]
    refine ⟨trivial, fun r => ?_⟩
    beta_reduce
    split
    · exact trivial
    · exact ⟨trivial, fun _ => ih _⟩

theorem uses_txComplete : (txComplete length).Uses DoneOp := by
  refine uses_bind (uses_txWait _ _) fun i => ?_
  by_cases hi : i = edmaTxCompleteTimeout
  · rw [if_pos hi]
    exact ⟨trivial, fun _ => ⟨trivial, fun _ => ⟨trivial, fun _ => trivial⟩⟩⟩
  · rw [if_neg hi]
    exact ⟨trivial, fun _ => ⟨trivial, fun _ => trivial⟩⟩

/-! ### A send beside an EDMA that stands still -/

/-- The world after the doorbell. -/
def handed (c : Platform) (packet : UInt32) (length : UInt16) (w : World) : World :=
  (filledUp c packet length w).doorbell (filledUp c packet length w).dev.tpdHead.toUInt32

theorem head_handed (hh : w.dev.tpdHead.toNat < noOfTxDesc) :
    (handed c packet length w).dev.tpdHead.toNat =
      (w.dev.tpdHead.toNat + edmaTpdsPerPacket) % noOfTxDesc := by
  rw [← head_filledUp c packet length hh, handed]
  generalize filledUp c packet length w = s
  rfl

theorem prod_handed :
    (handed c packet length w).hw.tpdProd = (handed c packet length w).dev.tpdHead := by
  unfold handed
  generalize filledUp c packet length w = s
  exact UInt16.toUInt16_toUInt32 s.dev.tpdHead

theorem cons_handed : (handed c packet length w).hw.tpdCons = w.hw.tpdCons := by
  obtain ⟨d, r, f, h⟩ := filledUp_frame c packet length w
  rw [handed, h]
  rfl

theorem owned_handed (hh : w.dev.tpdHead.toNat < noOfTxDesc) : (handed c packet length w).owned =
    w.owned ++ (w.filled ++ slots w.dev.tpdHead.toNat edmaTpdsPerPacket) := by
  rw [← filled_filledUp c packet length hh]
  obtain ⟨d, r, f, h⟩ := filledUp_frame c packet length w
  rw [handed, h]
  rfl

theorem filled_handed : (handed c packet length w).filled = [] := by
  rw [handed]
  generalize filledUp c packet length w = s
  rfl

/-- The ring is the same in both states. -/
structure SameRing (s t : World) : Prop where
  dev : t.dev = s.dev
  cons : t.hw.tpdCons = s.hw.tpdCons
  prod : t.hw.tpdProd = s.hw.tpdProd
  owned : t.owned = s.owned
  filled : t.filled = s.filled

theorem SameRing.doneOp {s t : World} {o : EdmaOp} (ho : DoneOp o) (h : SameRing s t) :
    SameRing s (step c o t).2 := by
  obtain ⟨h₁, h₂, h₃, h₄, h₅⟩ := h
  cases o with
  | readl r => cases r <;> first | exact ho.elim | exact ⟨h₁, h₂, h₃, h₄, h₅⟩
  | writel v r => cases r <;> first | exact ho.elim | exact ⟨h₁, h₂, h₃, h₄, h₅⟩
  | _ => first | exact ho.elim | exact ⟨h₁, h₂, h₃, h₄, h₅⟩

section still

variable {env : World → World → Prop}

/-- The doorbell, before any program `q`. -/
theorem exec_doorbell (q : Drv Int) (s : World) : exec (edma c env) (do
    let p ← getDev
    writel p.tpdHead.toUInt32 .tpdIdxQ
    q) s = exec (edma c env) q (s.doorbell s.dev.tpdHead.toUInt32) := rfl

theorem hist_doorbell (q : Drv Int) (s : World) : hist (edma c env) (do
    let p ← getDev
    writel p.tpdHead.toUInt32 .tpdIdxQ
    q) s = (.getDev, s) :: (.writel s.dev.tpdHead.toUInt32 .tpdIdxQ, s) ::
      hist (edma c env) q (s.doorbell s.dev.tpdHead.toUInt32) := rfl

theorem exec_send (h16 : edmaMinPktSize ≤ length.toNat) :
    exec (edma c env) (ipq4019EthSend c packet length) w =
      exec (edma c env) (txComplete length) (handed c packet length w) := by
  unfold ipq4019EthSend
  rw [if_neg (by omega), exec_bind, exec_txFill]
  exact exec_doorbell _ _

theorem hist_send (h16 : edmaMinPktSize ≤ length.toNat) :
    hist (edma c env) (ipq4019EthSend c packet length) w =
      hist (edma c env) (txFill c packet length) w ++ (.getDev, filledUp c packet length w) ::
      (.writel (filledUp c packet length w).dev.tpdHead.toUInt32 .tpdIdxQ,
        filledUp c packet length w) ::
      hist (edma c env) (txComplete length) (handed c packet length w) := by
  unfold ipq4019EthSend
  rw [if_neg (by omega), hist_bind, exec_txFill]
  exact congrArg _ (hist_doorbell _ _)

theorem mem_hist_complete (h16 : edmaMinPktSize ≤ length.toNat) {x : EdmaOp × World}
    (h : x ∈ hist (edma c env) (txComplete length) (handed c packet length w)) :
    x ∈ hist (edma c env) (ipq4019EthSend c packet length) w := by
  rw [hist_send h16]
  exact List.mem_append_right _ (List.mem_cons_of_mem _ (List.mem_cons_of_mem _ h))

/-- The first poll. -/
theorem poll_mem_complete :
    (EdmaOp.readl .tpdIdxQ, w) ∈ hist (edma c env) (txComplete length) w := by
  refine mem_hist_left ?_
  rw [show edmaTxCompleteTimeout = 999999 + 1 from rfl, txWait_succ]
  exact List.mem_cons_self

theorem poll_mem_hist (h16 : edmaMinPktSize ≤ length.toNat) :
    (EdmaOp.readl .tpdIdxQ, handed c packet length w) ∈
      hist (edma c env) (ipq4019EthSend c packet length) w :=
  mem_hist_complete h16 poll_mem_complete

variable (c packet w env)

theorem sameRing_exec_send (h16 : edmaMinPktSize ≤ length.toNat) :
    SameRing (handed c packet length w)
      (exec (edma c env) (ipq4019EthSend c packet length) w).2 := by
  rw [exec_send h16]
  exact exec_of_uses (fun o _ ho h => h.doneOp ho) uses_txComplete ⟨rfl, rfl, rfl, rfl, rfl⟩

/-- The first descriptor is stored while the EDMA owns what it owned before. -/
theorem store_mem_hist (h16 : edmaMinPktSize ≤ length.toNat) : ∃ t s,
    (EdmaOp.storeTpd w.dev.tpdHead t, s) ∈ hist (edma c env) (ipq4019EthSend c packet length) w ∧
      s.owned = w.owned := by
  have h : ∃ t s, (EdmaOp.storeTpd w.dev.tpdHead t, s) ∈ hist (edma c env)
      (txFill c packet length) w ∧ s.owned = w.owned :=
    ⟨_, _, List.mem_cons_of_mem _ (List.mem_cons_of_mem _ (List.mem_cons_of_mem _
      List.mem_cons_self)), rfl⟩
  obtain ⟨t, s, hm, ho⟩ := h
  rw [hist_send h16]
  exact ⟨t, s, List.mem_append_left _ hm, ho⟩

/-- The doorbell. -/
theorem doorbell_mem_hist (h16 : edmaMinPktSize ≤ length.toNat) :
    (EdmaOp.writel (filledUp c packet length w).dev.tpdHead.toUInt32 .tpdIdxQ,
      filledUp c packet length w) ∈ hist (edma c env) (ipq4019EthSend c packet length) w := by
  rw [hist_send h16]
  exact List.mem_append_right _ (List.mem_cons_of_mem _ List.mem_cons_self)

/-- The write of the software consumer index. -/
theorem done_mem_hist (h16 : edmaMinPktSize ≤ length.toNat) : ∃ s,
    (EdmaOp.writel (handed c packet length w).dev.tpdHead.toUInt32 .txSwConsIdxQ, s) ∈
      hist (edma c env) (ipq4019EthSend c packet length) w ∧
        SameRing (handed c packet length w) s := by
  have hring : SameRing (handed c packet length w) (exec (edma c env)
      (txWait edmaTxCompleteTimeout 0) (handed c packet length w)).2 :=
    exec_of_uses (fun o _ ho h => h.doneOp ho) (uses_txWait _ _) ⟨rfl, rfl, rfl, rfl, rfl⟩
  suffices ∃ s, (EdmaOp.writel (handed c packet length w).dev.tpdHead.toUInt32 .txSwConsIdxQ, s) ∈
      hist (edma c env) (txComplete length) (handed c packet length w) ∧
        SameRing (handed c packet length w) s by
    obtain ⟨s, hm, hs⟩ := this
    exact ⟨s, mem_hist_complete h16 hm, hs⟩
  rw [← hring.dev]
  unfold txComplete
  rw [hist_bind]
  generalize exec (edma c env) (txWait edmaTxCompleteTimeout 0) (handed c packet length w) = x
    at hring
  by_cases hN : x.1 = edmaTxCompleteTimeout
  · rw [if_pos hN]
    refine ⟨{ x.2 with timedOut := true }, List.mem_append_right _ ?_,
      ⟨hring.dev, hring.cons, hring.prod, hring.owned, hring.filled⟩⟩
    exact List.mem_cons_of_mem _ (List.mem_cons_of_mem _ List.mem_cons_self)
  · rw [if_neg hN]
    exact ⟨x.2, List.mem_append_right _ (List.mem_cons_of_mem _ List.mem_cons_self), hring⟩

end still

/-! ### The frame -/

/-- A descriptor that is not the last. -/
theorem gather_more {mem : Mem} {ring : ℕ → EdmaTpd} {n i : ℕ} {t : EdmaTpd} (ht : ring i = t)
    (h : t.word1 &&& (1 : UInt32) <<< edmaTpdEopShift = 0) :
    gather mem ring (n + 1) i =
      (gather mem ring n ((i + 1) % noOfTxDesc)).map (read mem t.addr t.len.toNat ++ ·) := by
  rw [gather, ht, if_neg (not_not.mpr h)]

/-- The last descriptor. -/
theorem gather_last {mem : Mem} {ring : ℕ → EdmaTpd} {n i : ℕ} {t : EdmaTpd} (ht : ring i = t)
    (h : t.word1 &&& (1 : UInt32) <<< edmaTpdEopShift ≠ 0) :
    gather mem ring (n + 1) i = some (read mem t.addr t.len.toNat) := by
  rw [gather, ht, if_pos h]

/-- **The frame handed over**: 12 bytes more than the packet has. -/
theorem gather_filledUp (hh : w.dev.tpdHead.toNat < noOfTxDesc) (mem : Mem) :
    gather mem (filledUp c packet length w).tpdRing noOfTxDesc w.dev.tpdHead.toNat =
      some (read mem (c.virtToPhys packet) (12 + length.toNat)) := by
  have hring : ∀ i < 4, (filledUp c packet length w).tpdRing
      ((w.dev.tpdHead.toNat + i) % noOfTxDesc) = tpdOf c packet length i := fun i hi =>
    tpdRing_filledUp hh hi
  have hnext : ∀ i, ((w.dev.tpdHead.toNat + i) % noOfTxDesc + 1) % noOfTxDesc =
      (w.dev.tpdHead.toNat + (i + 1)) % noOfTxDesc := fun i => by
    rw [Nat.mod_add_mod, Nat.add_assoc]
  have haddr : ∀ i, (tpdOf c packet length i).addr =
      c.virtToPhys packet + UInt32.ofNat (i * edmaTpdMinBytes) := fun i => c.virtToPhys_add _ _
  have hfst : w.dev.tpdHead.toNat = (w.dev.tpdHead.toNat + 0) % noOfTxDesc :=
    (Nat.mod_eq_of_lt hh).symm
  have hword : ∀ i, (tpdOf c packet length i).word1 =
      if i < edmaTpdsPerPacket - 1 then 0 else (1 : UInt32) <<< edmaTpdEopShift := fun _ => rfl
  have h7 : gather mem (filledUp c packet length w).tpdRing (7 + 1) _ = _ :=
    gather_more (hring 0 (by decide)) (by rw [hword]; decide)
  have h6 : gather mem (filledUp c packet length w).tpdRing (6 + 1) _ = _ :=
    gather_more (hring 1 (by decide)) (by rw [hword]; decide)
  have h5 : gather mem (filledUp c packet length w).tpdRing (5 + 1) _ = _ :=
    gather_more (hring 2 (by decide)) (by rw [hword]; decide)
  have h4 : gather mem (filledUp c packet length w).tpdRing (4 + 1) _ = _ :=
    gather_last (hring 3 (by decide)) (by rw [hword]; decide)
  rw [hnext] at h7 h6 h5
  rw [hfst, show noOfTxDesc = 7 + 1 from rfl]
  refine h7.trans ?_
  rw [h6, h5, h4]
  simp only [Option.map_some, haddr]
  -- the blocks begin at 0, 4, 8 and 12
  rw [show 12 + length.toNat = 4 + (4 + (4 + length.toNat)) by omega, read_add, read_add, read_add]
  simp only [UInt32.add_assoc, ← UInt32.ofNat_add]
  simp [tpdOf, edmaTpdsPerPacket, edmaTpdMinBytes]

/-- What the EDMA's consumption leaves alone. -/
theorem TxStep.frame {s s' : World} (h : TxStep s s') : s'.dev = s.dev ∧ s'.tpdRing = s.tpdRing ∧
    s'.mem = s.mem ∧ s'.filled = s.filled ∧ s'.sent = s.sent := by
  obtain ⟨_⟩ := h
  exact ⟨rfl, rfl, rfl, rfl, rfl⟩

/-- The gather law of one call: the chain that it hands over describes the packet. -/
def GatherLaw (c : Platform) (w : World) (packet : UInt32) (length : UInt16) : Prop :=
  ∀ l s r, Run (edma c TxStep) w (ipq4019EthSend c packet length) l s (.ret r) →
    s.sent = w.sent ++ [some (read w.mem (c.virtToPhys packet) length.toNat)]

/-- A call hands over the bytes of the packet and the 12 behind it. -/
theorem wp_send_frame (hh : w.dev.tpdHead.toNat < noOfTxDesc)
    (h16 : edmaMinPktSize ≤ length.toNat) (hf : w.filled = []) :
    wp (edma c TxStep) .free (ipq4019EthSend c packet length) (fun _ s => s.sent =
      w.sent ++ [some (read w.mem (c.virtToPhys packet) (12 + length.toNat))]) w := by
  have hq : ∀ o, Local o → Quiet (edma c TxStep) o := fun o ho => quiet_tx c ho
  refine wp_send (I := fun _ => True) hq (fun _ _ _ h => h) (fun _ _ _ _ => ⟨trivial, trivial⟩)
    (fun _ _ _ _ => trivial) h16 trivial ?_
  refine wp_quiet (hq .getDev trivial) (fun _ _ => ⟨trivial, trivial⟩) ?_
  -- before the doorbell the EDMA leaves the chain as it is
  refine wp_op (A := fun s => s.tpdRing = (filledUp c packet length w).tpdRing ∧ s.mem = w.mem ∧
      s.filled = slots w.dev.tpdHead.toNat 4 ∧ s.sent = w.sent) ?_ (fun _ _ => trivial)
    (fun _ _ => trivial) ?_ ?_
  · intro s s' hs ⟨h₁, h₂, h₃, h₄⟩
    obtain ⟨-, k₁, k₂, k₃, k₄⟩ := TxStep.frame hs
    exact ⟨k₁.trans h₁, k₂.trans h₂, k₃.trans h₃, k₄.trans h₄⟩
  · intro s ⟨h₁, h₂, h₃, h₄⟩ _
    have hhead : slots w.dev.tpdHead.toNat 4 =
        w.dev.tpdHead.toNat % noOfTxDesc :: slots (w.dev.tpdHead.toNat + 1) 3 := rfl
    rw [Nat.mod_eq_of_lt hh] at hhead
    refine wp_of_uses (P := DoneOp) (fun s s' hs h => (TxStep.frame hs).2.2.2.2.trans h)
      (fun _ _ => trivial) (fun _ _ _ _ => trivial) ?_ uses_txComplete ?_
    · intro o t ho ht
      cases o with
      | readl r => cases r <;> first | exact ho.elim | exact ht
      | writel v r => cases r <;> first | exact ho.elim | exact ht
      | _ => first | exact ho.elim | exact ht
    · change (s.doorbell _).sent = _
      simp only [World.doorbell, h₁, h₂, h₃, h₄, hhead]
      rw [gather_filledUp hh]
  · change (filledUp c packet length w).tpdRing = _ ∧ (filledUp c packet length w).mem = _ ∧
      (filledUp c packet length w).filled = _ ∧ (filledUp c packet length w).sent = _
    refine ⟨rfl, ?_, (filled_filledUp _ _ _ hh).trans (by rw [hf]; rfl), ?_⟩ <;>
    · obtain ⟨d, r, f, h⟩ := filledUp_frame c packet length w
      rw [h]

theorem not_gatherLaw (hh : w.dev.tpdHead.toNat < noOfTxDesc)
    (h16 : edmaMinPktSize ≤ length.toNat) (hf : w.filled = []) :
    ¬ GatherLaw c w packet length := by
  intro hlaw
  have hl := run_exec (M := edma c TxStep) (ipq4019EthSend c packet length) w
  have h := (wp_run_free (wp_send_frame hh h16 hf) hl).symm.trans (hlaw _ _ _ hl)
  have hlen := congrArg (Option.map List.length) (List.cons.inj (List.append_cancel_left h)).1
  simp at hlen

/-- **No send hands over its packet**: from any state of the ring, for any packet and any length,
the frame has the 12 bytes behind the packet too. -/
theorem eth_send_frame (c : Platform) (w : World) (packet : UInt32) (length : UInt16)
    (hh : w.dev.tpdHead.toNat < noOfTxDesc) (h16 : edmaMinPktSize ≤ length.toNat)
    (hf : w.filled = []) :
    (∀ l s r, Run (edma c TxStep) w (ipq4019EthSend c packet length) l s (.ret r) →
      s.sent = w.sent ++ [some (read w.mem (c.virtToPhys packet) (12 + length.toNat))]) ∧
    ¬ GatherLaw c w packet length := by
  refine ⟨fun l s r hr => ?_, not_gatherLaw hh h16 hf⟩
  have h := wp_run_free (wp_send_frame hh h16 hf) hr
  exact h

/-- A packet of 64 bytes, the first after bring-up. -/
theorem eth_send_frame_first :
    (∀ l s r, Run (edma .flat TxStep) (.cold 0 0 fun _ => 0)
      (ipq4019EthSend .flat 0x81002000 64) l s (.ret r) →
      s.sent = [] ++ [some (read (fun _ => 0) (Platform.flat.virtToPhys 0x81002000) (12 + 64))]) ∧
    ¬ GatherLaw .flat (.cold 0 0 fun _ => 0) 0x81002000 64 :=
  eth_send_frame .flat (.cold 0 0 fun _ => 0) 0x81002000 64 (by decide) (by decide) rfl

/-- The gather law fails for a packet of 64 bytes, the first after bring-up. -/
theorem gather_law_fails : ¬ ∀ (c : Platform) (w : World) (packet : UInt32) (length : UInt16),
    w.dev.tpdHead.toNat < noOfTxDesc → edmaMinPktSize ≤ length.toNat → w.filled = [] →
    GatherLaw c w packet length := fun h =>
  not_gatherLaw (by decide) (by decide) rfl
    (h .flat (.cold 0 0 fun _ => 0) 0x81002000 64 (by decide) (by decide) rfl)

end Ipq4019.Edma.Send
