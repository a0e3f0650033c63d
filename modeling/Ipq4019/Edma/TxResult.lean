import Ipq4019.Edma.TxRing

/-!
# The transmit ring: what a send reports

`ipq4019_eth_send` returns 0 whatever happens.  We follow a call from any state of the ring: `n`
descriptors may be outstanding before it, after calls that timed out.

* `RingAt E n`: the last `n` of `E` positions handed over are not consumed; the EDMA goes on until
  the two indices agree, which is a multiple of eight before the end.
* `run_send`: the doorbell of a call, and what the call leaves.
* `run_txWait`: the wait ends in time exactly if a poll finds the indices equal.
* `send_truthful_iff`: when the result is true.
-/

namespace Ipq4019.Edma.TxResult

open Ipq4019.Lib.Interleave Ipq4019.Lib.Interleave.Prog Ipq4019.Lib.Ring
open Ipq4019.Edma.Driver Ipq4019.Edma.Device Ipq4019.Edma.Init Ipq4019.Edma.Send
open Ipq4019.Edma.TxRing

variable {c : Platform} {packet : UInt32} {length : UInt16} {E n : ℕ} {s s' : World}

/-! ### The ring with descriptors outstanding -/

/-- Of the `E` descriptors handed to the EDMA so far, the last `n` are not consumed. -/
structure RingAt (E n : ℕ) (s : World) : Prop where
  le : n ≤ E
  cons : s.hw.tpdCons.toNat = (E - n) % noOfTxDesc
  prod : s.hw.tpdProd.toNat = E % noOfTxDesc
  owned : s.owned = slots (E - n) n

/-- The EDMA has been at work since `n` were not consumed. -/
def Working (E n : ℕ) (s : World) : Prop :=
  ∃ m, n / noOfTxDesc * noOfTxDesc ≤ m ∧ m ≤ n ∧ RingAt E m s

/-- What the driver has on its side: the head, and descriptors stored for the next doorbell. -/
structure Side (H : ℕ) (f : List ℕ) (s : World) : Prop where
  head : s.dev.tpdHead.toNat = H % noOfTxDesc
  filled : s.filled = f

/-- **Between two calls.** -/
def Between (E n : ℕ) (s : World) : Prop := RingAt E n s ∧ Side E [] s

theorem RingAt.cons_eq_iff (h : RingAt E n s) : s.hw.tpdCons = s.hw.tpdProd ↔ n % noOfTxDesc = 0 := by
  have hle := h.le
  rw [← UInt16.toNat_inj, h.cons, h.prod]
  simp only [noOfTxDesc]
  omega

theorem RingAt.owned_iff (h : RingAt E n s) : s.owned = [] ↔ n = 0 := by
  rw [h.owned, ← List.length_eq_zero_iff, length_slots]

/-- The EDMA consumes the oldest. -/
theorem RingAt.consume (h : RingAt E n s) (hne : s.hw.tpdCons ≠ s.hw.tpdProd) :
    n % noOfTxDesc ≠ 0 ∧ RingAt E (n - 1) s.consume := by
  have h0 : n % noOfTxDesc ≠ 0 := fun h0 => hne (h.cons_eq_iff.mpr h0)
  obtain ⟨hle, hcons, hprod, howned⟩ := h
  obtain ⟨k, rfl⟩ : ∃ k, n = k + 1 := Nat.exists_eq_succ_of_ne_zero fun h => h0 (by rw [h]; rfl)
  have hpos : E - k = E - (k + 1) + 1 := by omega
  refine ⟨h0, by omega, ?_, hprod, ?_⟩
  · have hlt : (s.hw.tpdCons.toNat + 1) % noOfTxDesc < 8 := Nat.mod_lt _ (by decide)
    simp only [World.consume, UInt16.toNat_ofNat']
    rw [Nat.mod_eq_of_lt (by omega), hcons, Nat.mod_add_mod, Nat.add_sub_cancel, hpos]
  · simp only [World.consume, howned, slots_succ, List.tail_cons]
    rw [Nat.add_sub_cancel, hpos]

theorem Working.stable : Stable (edma c TxStep) (Working E n) := by
  rintro s _ ⟨hne⟩ ⟨m, hlo, hle, h⟩
  obtain ⟨h0, h⟩ := h.consume hne
  refine ⟨m - 1, ?_, by omega, h⟩
  simp only [noOfTxDesc] at *
  omega

theorem Side.stable {H : ℕ} {f : List ℕ} : Stable (edma c TxStep) (Side H f) := by
  rintro s _ ⟨hne⟩ ⟨hh, hf⟩
  exact ⟨hh, hf⟩

theorem slots_add (h a b : ℕ) : slots h (a + b) = slots h a ++ slots (h + a) b := by
  unfold slots
  rw [← List.range'_append, List.map_append, Nat.one_mul]

/-- **The doorbell** hands four more over. -/
theorem RingAt.doorbell (h : RingAt E n s)
    (hs : Side (E + edmaTpdsPerPacket) (slots E edmaTpdsPerPacket) s) :
    Between (E + edmaTpdsPerPacket) (n + edmaTpdsPerPacket) (s.doorbell s.dev.tpdHead.toUInt32) := by
  have hle := h.le
  have hpos : E + edmaTpdsPerPacket - (n + edmaTpdsPerPacket) = E - n := by omega
  refine ⟨⟨by omega, ?_, ?_, ?_⟩, hs.head, rfl⟩
  · rw [hpos]
    exact h.cons
  · change s.dev.tpdHead.toUInt32.toUInt16.toNat = _
    rw [UInt16.toUInt16_toUInt32, hs.head]
  · change s.owned ++ s.filled = _
    rw [h.owned, hs.filled, hpos, slots_add, Nat.sub_add_cancel hle]

/-! ### A call -/

theorem slots_mod (h k : ℕ) : slots (h % noOfTxDesc) k = slots h k := by
  unfold slots
  rw [List.range'_eq_map_range, List.range'_eq_map_range, List.map_map, List.map_map]
  refine List.map_congr_left fun i _ => ?_
  exact Nat.mod_add_mod h noOfTxDesc i

/-- Four descriptors are stored, while the EDMA goes on. -/
theorem run_txFill {l : List (EdmaOp × World)} (h : Between E n s)
    (hr : Run (edma c TxStep) s (txFill c packet length) l s' (.ret ())) :
    Working E n s' ∧ Side (E + edmaTpdsPerPacket) (slots E edmaTpdsPerPacket) s' := by
  obtain ⟨hring, hside⟩ := h
  have hh : s.dev.tpdHead.toNat < noOfTxDesc := by
    rw [hside.head]
    exact Nat.mod_lt _ (by decide)
  have hfilled : Working E n (filledUp c packet length s) ∧ Side (E + edmaTpdsPerPacket)
      (slots E edmaTpdsPerPacket) (filledUp c packet length s) := by
    refine ⟨⟨n, Nat.div_mul_le_self n _, le_rfl, ?_⟩, ?_, ?_⟩
    · obtain ⟨d, r, f, hframe⟩ := filledUp_frame c packet length s
      rw [hframe]
      exact ⟨hring.le, hring.cons, hring.prod, hring.owned⟩
    · rw [head_filledUp c packet length hh, hside.head, Nat.mod_add_mod]
    · rw [filled_filledUp c packet length hh, hside.filled, hside.head, slots_mod, List.nil_append]
  have hwp : wp (edma c TxStep) .free (txFill c packet length >>= fun _ => .ret ()) (fun _ s =>
      Working E n s ∧ Side (E + edmaTpdsPerPacket) (slots E edmaTpdsPerPacket) s) s := by
    refine wp_exec (I := fun _ => True) (fun _ _ _ _ => trivial) (fun _ _ _ _ => ⟨trivial, trivial⟩)
      (fun _ _ _ _ => trivial) (fun o ho => quiet_tx c (FillOp.toLocal ho)) uses_txFill trivial ?_
    rw [exec_txFill]
    exact wp_ret (Working.stable.and Side.stable) (fun _ _ => trivial) (fun _ h => h) hfilled
  have hpost := wp_run_free hwp (hr.bind fun _ => .ret ())
  exact hpost

/-- The wait, and the end of the call. -/
theorem run_txComplete {l : List (EdmaOp × World)} {r : Int} (h : Between E n s)
    (hr : Run (edma c TxStep) s (txComplete length) l s' (.ret r)) :
    Working E n s' ∧ Side E [] s' := by
  have hring : wp (edma c TxStep) .free (txComplete length)
      (fun _ s => Working E n s ∧ Side E [] s) s := by
    refine wp_of_uses (Working.stable.and Side.stable) (fun _ _ => trivial) (fun _ _ _ _ => trivial)
      (fun o t ho ht => ?_) uses_txComplete ⟨⟨n, Nat.div_mul_le_self n _, le_rfl, h.1⟩, h.2⟩
    obtain ⟨⟨m, hlo, hle, hm⟩, hside⟩ := ht
    obtain ⟨hdev, hcons, hprod, howned, hfilled⟩ :=
      SameRing.doneOp (c := c) ho (⟨rfl, rfl, rfl, rfl, rfl⟩ : SameRing t t)
    refine ⟨⟨m, hlo, hle, hm.le, ?_, ?_, howned.trans hm.owned⟩, ?_, hfilled.trans hside.filled⟩
    · exact (congrArg UInt16.toNat hcons).trans hm.cons
    · exact (congrArg UInt16.toNat hprod).trans hm.prod
    · exact (congrArg (fun d : IpqEdmaDev => d.tpdHead.toNat) hdev).trans hside.head
  have hpost := wp_run_free hring hr
  exact hpost

/-- The producer index is written. -/
def Doorbell (x : EdmaOp × World) : Prop := ∃ v, x.1 = .writel v .tpdIdxQ

/-- **The parts of a call**: four descriptors are stored, the head is read, the doorbell, and the
wait. -/
theorem send_inv {env : World → World → Prop} {l : List (EdmaOp × World)} {r : Int}
    (h16 : edmaMinPktSize ≤ length.toNat)
    (hr : Run (edma c env) s (ipq4019EthSend c packet length) l s' (.ret r)) :
    ∃ l₁ s₁ s₂ s₃ l₄, l = l₁ ++ (.getDev, s₂) :: (.writel s₂.dev.tpdHead.toUInt32 .tpdIdxQ, s₃) :: l₄ ∧
      Run (edma c env) s (txFill c packet length) l₁ s₁ (.ret ()) ∧ (edma c env).Env s₁ s₂ ∧
      (edma c env).Env s₂ s₃ ∧
      Run (edma c env) (s₃.doorbell s₂.dev.tpdHead.toUInt32) (txComplete length) l₄ s' (.ret r) := by
  unfold ipq4019EthSend at hr
  rw [if_neg (by omega)] at hr
  obtain ⟨l₁, l₂, s₁, ⟨⟩, hfill, hrest, rfl⟩ := hr.bind_inv
  change Run (edma c env) s₁ (.op (S := edmaSig) .getDev fun p : IpqEdmaDev =>
    .op (S := edmaSig) (.writel p.tpdHead.toUInt32 .tpdIdxQ) fun _ => txComplete length) l₂ s'
    (.ret r) at hrest
  -- the head is read
  rcases hrest.op_inv with ⟨hq, -⟩ | ⟨s₂, l₃, he₂, rfl, hbell⟩
  · cases hq
  -- the doorbell
  rcases hbell.op_inv with ⟨hq, -⟩ | ⟨s₃, l₄, he₃, rfl, hdone⟩
  · cases hq
  exact ⟨l₁, s₁, s₂, s₃, l₄, rfl, hfill, he₂, he₃, hdone⟩

/-- **A call**: it has one doorbell, where `m` descriptors are outstanding; then it is up to the
EDMA how many of them and of the four new ones are left. -/
theorem run_send {l : List (EdmaOp × World)} {r : Int} (h : Between E n s)
    (h16 : edmaMinPktSize ≤ length.toNat)
    (hr : Run (edma c TxStep) s (ipq4019EthSend c packet length) l s' (.ret r)) :
    ∃ m ≤ n, (∃ x ∈ l, Doorbell x) ∧ (∀ x ∈ l, Doorbell x → x.2.owned.length = m) ∧
      Working (E + edmaTpdsPerPacket) (m + edmaTpdsPerPacket) s' ∧ Side (E + edmaTpdsPerPacket) [] s' := by
  obtain ⟨l₁, s₁, s₂, s₃, l₄, rfl, hfill, he₂, he₃, hdone⟩ := send_inv h16 hr
  obtain ⟨hwork, hside⟩ := run_txFill h hfill
  have hwork₂ := Working.stable.env he₂ hwork
  have hside₂ := Side.stable.env he₂ hside
  have hdev : s₃.dev = s₂.dev := (Quiet.env (quiet_tx c (o := .getDev) trivial) he₃).1
  obtain ⟨m, -, hm, hring⟩ := Working.stable.env he₃ hwork₂
  have hside₃ := Side.stable.env he₃ hside₂
  have hbetween := hring.doorbell hside₃
  rw [hdev] at hbetween
  obtain ⟨hwork', hside'⟩ := run_txComplete hbetween hdone
  refine ⟨m, hm, ⟨_, List.mem_append_right _ (List.mem_cons_of_mem _ List.mem_cons_self), _,
    rfl⟩, ?_, hwork', hside'⟩
  have hbefore : ∀ x ∈ l₁, ¬Doorbell x := by
    rintro x hx ⟨v, hv⟩
    have hop := (hfill.uses uses_txFill).2 x hx
    rw [hv] at hop
    exact hop
  have hafter : ∀ x ∈ l₄, ¬Doorbell x := by
    rintro x hx ⟨v, hv⟩
    have hop := (hdone.uses uses_txComplete).2 x hx
    rw [hv] at hop
    exact hop
  intro x hx hbell
  rcases List.mem_append.mp hx with hx | hx
  · exact absurd hbell (hbefore x hx)
  · rcases List.mem_cons.mp hx with rfl | hx
    · obtain ⟨v, hv⟩ := hbell
      cases hv
    · rcases List.mem_cons.mp hx with rfl | hx
      · rw [hring.owned, length_slots]
      · exact absurd hbell (hafter x hx)

/-! ### The wait -/

/-- The EDMA's index has reached the driver's. -/
def Reached (s : World) : Prop := s.hw.tpdCons = s.hw.tpdProd

/-- A poll of the wait finds it so. -/
def Seen (l : List (EdmaOp × World)) : Prop := ∃ x ∈ l, x.1 = .readl .tpdIdxQ ∧ Reached x.2

/-- The wait has timed out. -/
def TimedOut (l : List (EdmaOp × World)) : Prop := ∃ x ∈ l, ∃ len, x.1 = .txTimeout len

/-- Then the EDMA rests. -/
theorem Reached.stable : Stable (edma c TxStep) Reached := by
  rintro s _ ⟨hne⟩ h
  exact absurd h hne

theorem seen_cons {x : EdmaOp × World} {l : List (EdmaOp × World)} :
    Seen (x :: l) ↔ x.1 = .readl .tpdIdxQ ∧ Reached x.2 ∨ Seen l := by
  unfold Seen
  rw [List.exists_mem_cons_iff]

/-- Accesses that are not polls do not count. -/
theorem seen_append_right {k l : List (EdmaOp × World)} (h : ∀ x ∈ k, x.1 ≠ .readl .tpdIdxQ) :
    Seen (k ++ l) ↔ Seen l := by
  constructor
  · rintro ⟨x, hx, ho, hreach⟩
    rcases List.mem_append.mp hx with hx | hx
    · exact absurd ho (h x hx)
    · exact ⟨x, hx, ho, hreach⟩
  · rintro ⟨x, hx, hseen⟩
    exact ⟨x, List.mem_append_right _ hx, hseen⟩

theorem timedOut_append_right {k l : List (EdmaOp × World)}
    (h : ∀ x ∈ k, ∀ len, x.1 ≠ .txTimeout len) : TimedOut (k ++ l) ↔ TimedOut l := by
  constructor
  · rintro ⟨x, hx, len, ho⟩
    rcases List.mem_append.mp hx with hx | hx
    · exact absurd ho (h x hx len)
    · exact ⟨x, hx, len, ho⟩
  · rintro ⟨x, hx, hout⟩
    exact ⟨x, List.mem_append_right _ hx, hout⟩

/-- **The wait ends in time exactly if a poll finds the indices equal**, and then they stay so. -/
theorem run_txWait : ∀ (n i : ℕ) {s s' : World} {l : List (EdmaOp × World)} {j : ℕ},
    Run (edma c TxStep) s (txWait n i) l s' (.ret j) → ¬TimedOut l ∧
      (j = i + n ∧ ¬Seen l ∨ j < i + n ∧ Seen l ∧ Reached s')
  | 0, i, _, _, _, j, hr => by
    obtain ⟨hq, rfl, -⟩ := hr.ret_inv
    obtain rfl : j = i := by injection hq
    exact ⟨by simp [TimedOut], Or.inl ⟨rfl, by simp [Seen]⟩⟩
  | n + 1, i, s, s', l, j, hr => by
    rw [txWait_succ] at hr
    rcases hr.op_inv with ⟨hq, -⟩ | ⟨s₁, l₁, -, rfl, hr₁⟩
    · cases hq
    change Run (edma c TxStep) s₁
      (if (s₁.readReg .tpdIdxQ >>> edmaTpdConsIdxShift) &&& edmaTpdConsIdxMask =
        s₁.readReg .tpdIdxQ &&& edmaTpdProdIdxMask then .ret i
      else .op (S := edmaSig) (.udelay 1) fun _ => txWait n (i + 1)) l₁ s' (.ret j) at hr₁
    have hpoll : TimedOut ((.readl .tpdIdxQ, s₁) :: l₁) ↔ TimedOut l₁ :=
      timedOut_append_right (k := [(.readl .tpdIdxQ, s₁)]) (by simp)
    rw [hpoll, seen_cons]
    by_cases he : Reached s₁
    · rw [if_pos (by rw [tpdCons_field, tpdProd_field, he])] at hr₁
      obtain ⟨hq, rfl, henv⟩ := hr₁.ret_inv
      obtain rfl : j = i := by injection hq
      exact ⟨by simp [TimedOut], Or.inr ⟨by omega, Or.inl ⟨rfl, he⟩, Reached.stable.env henv he⟩⟩
    · rw [if_neg (by rw [tpdCons_field, tpdProd_field, toUInt32_inj]; exact he)] at hr₁
      rcases hr₁.op_inv with ⟨hq, -⟩ | ⟨s₂, l₂, -, rfl, hr₂⟩
      · cases hq
      have hskip : Seen ((.udelay 1, s₂) :: l₂) ↔ Seen l₂ :=
        seen_append_right (k := [(.udelay 1, s₂)]) (by simp)
      have hskip' : TimedOut ((.udelay 1, s₂) :: l₂) ↔ TimedOut l₂ :=
        timedOut_append_right (k := [(.udelay 1, s₂)]) (by simp)
      rw [hskip, hskip', show i + (n + 1) = i + 1 + n by omega]
      obtain ⟨hto, ⟨hj, hno⟩ | ⟨hj, hseen, hend⟩⟩ := run_txWait n (i + 1) hr₂
      · exact ⟨hto, Or.inl ⟨hj, fun h => h.elim (fun h => he h.2) hno⟩⟩
      · exact ⟨hto, Or.inr ⟨hj, Or.inr hseen, hend⟩⟩

/-- The accesses after the wait. -/
def EndOp : EdmaOp → Prop
  | .getDev | .writel _ .txSwConsIdxQ => True
  | _ => False

theorem run_txEnd {l : List (EdmaOp × World)} {r : Int}
    (hr : Run (edma c TxStep) s (do
      let p ← getDev
      writel p.tpdHead.toUInt32 .txSwConsIdxQ
      return (0 : Int)) l s' (.ret r)) : ¬Seen l ∧ ¬TimedOut l ∧ (Reached s → Reached s') := by
  have huses : Prog.Uses EndOp (do
      let p ← getDev
      writel p.tpdHead.toUInt32 .txSwConsIdxQ
      return (0 : Int)) := ⟨trivial, fun _ => ⟨trivial, fun _ => trivial⟩⟩
  have hops := (hr.uses huses).2
  refine ⟨?_, ?_, fun h => ?_⟩
  · rintro ⟨x, hx, ho, -⟩
    have hop := hops x hx
    rw [ho] at hop
    exact hop
  · rintro ⟨x, hx, len, ho⟩
    have hop := hops x hx
    rw [ho] at hop
    exact hop
  · have hwp : wp (edma c TxStep) .free _ (fun _ => Reached) s :=
      wp_of_uses Reached.stable (fun _ _ => trivial) (fun _ _ _ _ => trivial) (fun o t ho ht => by
        cases o with
        | writel v r => cases r <;> first | exact ho.elim | exact ht
        | _ => first | exact ho.elim | exact ht) huses h
    have hpost := wp_run_free hwp hr
    exact hpost

/-- **The end of a call**: it times out exactly if no poll finds the indices equal. -/
theorem run_txDone {l : List (EdmaOp × World)} {r : Int}
    (hr : Run (edma c TxStep) s (txComplete length) l s' (.ret r)) :
    ¬Seen l ∧ TimedOut l ∨ Seen l ∧ ¬TimedOut l ∧ Reached s' := by
  obtain ⟨l₁, l₂, s₁, i, hwait, hend, rfl⟩ := hr.bind_inv
  obtain ⟨hno, hpolls⟩ := run_txWait _ _ hwait
  rw [timedOut_append_right fun x hx len ho => hno ⟨x, hx, len, ho⟩]
  by_cases hi : i = edmaTxCompleteTimeout
  · rw [if_pos hi] at hend
    rcases hend.op_inv with ⟨hq, -⟩ | ⟨s₂, l₃, -, rfl, hrest⟩
    · cases hq
    obtain ⟨hsee, -, -⟩ := run_txEnd hrest
    rcases hpolls with ⟨-, h⟩ | ⟨hlt, -⟩
    · refine Or.inl ⟨?_, _, List.mem_cons_self, _, rfl⟩
      rintro ⟨x, hx, hseen⟩
      rcases List.mem_append.mp hx with hx | hx
      · exact h ⟨x, hx, hseen⟩
      · rcases List.mem_cons.mp hx with rfl | hx
        · cases hseen.1
        · exact hsee ⟨x, hx, hseen⟩
    · omega
  · rw [if_neg hi] at hend
    obtain ⟨-, hto, hkeep⟩ := run_txEnd hend
    rcases hpolls with ⟨h, -⟩ | ⟨-, ⟨x, hx, hseen⟩, hreach⟩
    · omega
    · exact Or.inr ⟨⟨x, List.mem_append_left _ hx, hseen⟩, hto, hkeep hreach⟩

/-- **The wait of a call.** -/
theorem run_sendWait {l : List (EdmaOp × World)} {r : Int} (h16 : edmaMinPktSize ≤ length.toNat)
    (hr : Run (edma c TxStep) s (ipq4019EthSend c packet length) l s' (.ret r)) :
    ¬Seen l ∧ TimedOut l ∨ Seen l ∧ ¬TimedOut l ∧ Reached s' := by
  obtain ⟨l₁, s₁, s₂, s₃, l₄, rfl, hfill, -, -, hdone⟩ := send_inv h16 hr
  have hops := (hfill.uses uses_txFill).2
  have hpoll : ∀ x ∈ l₁ ++ [(.getDev, s₂)] ++ [(.writel s₂.dev.tpdHead.toUInt32 .tpdIdxQ, s₃)],
      x.1 ≠ .readl .tpdIdxQ ∧ ∀ len, x.1 ≠ .txTimeout len := by
    intro x hx
    simp only [List.mem_append, List.mem_singleton] at hx
    rcases hx with (hx | rfl) | rfl
    · have hop := hops x hx
      refine ⟨fun ho => ?_, fun len ho => ?_⟩
      all_goals
        rw [ho] at hop
        exact hop
    · exact ⟨by simp, by simp⟩
    · exact ⟨by simp, by simp⟩
  rw [List.append_cons, List.append_cons, seen_append_right fun x hx => (hpoll x hx).1,
    timedOut_append_right fun x hx => (hpoll x hx).2]
  exact run_txDone hdone

/-! ### The result -/

/-- What the result 0 says: the packet was not refused, and the EDMA has consumed its descriptors,
the last ones handed over. -/
def Taken (length : UInt16) (r : Int) (s : World) : Prop :=
  r = 0 → edmaMinPktSize ≤ length.toNat ∧ s.owned = []

/-- **A true result**: 0 only if the packet was taken, and not 0 if it was refused or its completion
not seen in time. -/
structure Truthful (length : UInt16) (l : List (EdmaOp × World)) (r : Int) (s : World) : Prop where
  taken : Taken length r s
  refused : length.toNat < edmaMinPktSize → r ≠ 0
  unseen : TimedOut l → r ≠ 0

/-- Every path of a call ends with 0. -/
theorem ends_send : (ipq4019EthSend c packet length).Ends (· = 0) := by
  have hcomplete : (txComplete length).Ends (· = 0) := by
    refine ends_bind (fun i => ?_) _
    by_cases hi : i = edmaTxCompleteTimeout
    · rw [if_pos hi]
      exact fun _ _ _ => rfl
    · rw [if_neg hi]
      exact fun _ _ => rfl
  unfold ipq4019EthSend
  by_cases h : length.toNat < edmaMinPktSize
  · rw [if_pos h]
    rfl
  · rw [if_neg h]
    refine ends_bind (fun _ => ?_) _
    exact fun _ _ => hcomplete

theorem send_returns {l : List (EdmaOp × World)} {r : Int}
    (hr : Run (edma c TxStep) s (ipq4019EthSend c packet length) l s' (.ret r)) : r = 0 :=
  hr.ends ends_send

/-- **When the result is true**: for a packet that is not refused, if at the doorbell fewer than four
descriptors are outstanding, so that the four new ones do not fill the ring, and a poll of the wait
finds that the EDMA's index has reached the driver's. -/
theorem send_truthful_iff (c : Platform) (packet : UInt32) (length : UInt16) (E n : ℕ) (s s' : World)
    (l : List (EdmaOp × World)) (r : Int) (h : Between E n s)
    (hr : Run (edma c TxStep) s (ipq4019EthSend c packet length) l s' (.ret r)) :
    Truthful length l r s' ↔ edmaMinPktSize ≤ length.toNat ∧
      (∀ x ∈ l, Doorbell x → x.2.owned.length + edmaTpdsPerPacket < noOfTxDesc) ∧ Seen l := by
  obtain rfl := send_returns hr
  by_cases h16 : edmaMinPktSize ≤ length.toNat
  · obtain ⟨m, -, ⟨x, hx, hbell⟩, hm, ⟨k, hlo, hle, hk⟩, -⟩ := run_send h h16 hr
    constructor
    · rintro ⟨htaken, -, hunseen⟩
      have h0 := hk.owned_iff.mp (htaken rfl).2
      refine ⟨h16, fun y hy hbell => ?_, ?_⟩
      · rw [hm y hy hbell]
        simp only [noOfTxDesc, edmaTpdsPerPacket] at *
        omega
      · rcases run_sendWait h16 hr with ⟨-, hto⟩ | ⟨hseen, -⟩
        · exact absurd rfl (hunseen hto)
        · exact hseen
    · rintro ⟨-, hroom, hseen⟩
      rcases run_sendWait h16 hr with ⟨hno, -⟩ | ⟨-, hto, hreach⟩
      · exact absurd hseen hno
      · have hlt := hroom x hx hbell
        rw [hm x hx hbell] at hlt
        have hmod := hk.cons_eq_iff.mp hreach
        have h0 : k = 0 := by
          simp only [noOfTxDesc, edmaTpdsPerPacket] at *
          omega
        exact ⟨fun _ => ⟨h16, hk.owned_iff.mpr h0⟩, fun hlt => absurd h16 (not_le.mpr hlt),
          fun h => absurd h hto⟩
  · constructor
    · exact fun ht => absurd (ht.taken rfl).1 h16
    · exact fun hc => absurd hc.1 h16

/-- After bring-up the ring is idle, and idle rings are of this kind. -/
theorem Between.of_idle (h : Idle s) : Between s.dev.tpdHead.toNat 0 s := by
  have hlt := Nat.mod_eq_of_lt h.head
  refine ⟨⟨Nat.zero_le _, ?_, ?_, h.owned⟩, hlt.symm, h.filled⟩
  · rw [h.cons]
    exact hlt.symm
  · rw [h.prod]
    exact hlt.symm

/-- **And so is what calls leave**, also those that timed out. -/
theorem between_send {l : List (EdmaOp × World)} {r : Int} (h : Between E n s)
    (hr : Run (edma c TxStep) s (ipq4019EthSend c packet length) l s' (.ret r)) :
    ∃ E' n', Between E' n' s' := by
  by_cases h16 : edmaMinPktSize ≤ length.toNat
  · obtain ⟨m, -, -, -, ⟨k, -, -, hk⟩, hside⟩ := run_send h h16 hr
    exact ⟨_, k, hk, hside⟩
  · have hwp : wp (edma c TxStep) .free (ipq4019EthSend c packet length)
        (fun _ s => Working E n s ∧ Side E [] s) s := by
      unfold ipq4019EthSend
      rw [if_pos (not_le.mp h16)]
      exact wp_ret (Working.stable.and Side.stable) (fun _ _ => trivial) (fun _ h => h)
        ⟨⟨n, Nat.div_mul_le_self n _, le_rfl, h.1⟩, h.2⟩
    have hpost := wp_run_free hwp hr
    obtain ⟨⟨k, -, -, hk⟩, hside⟩ := hpost
    exact ⟨E, k, hk, hside⟩

/-- An EDMA that goes on consumes all that was handed over. -/
theorem RingAt.drained : ∀ {n : ℕ} {s : World}, n < noOfTxDesc → RingAt E n s →
    ∃ s', (edma c TxStep).Env s s' ∧ RingAt E 0 s'
  | 0, s, _, h => ⟨s, .refl, h⟩
  | n + 1, s, hn, h => by
    have hne : s.hw.tpdCons ≠ s.hw.tpdProd := by
      intro he
      have hmod := h.cons_eq_iff.mp he
      rw [Nat.mod_eq_of_lt hn] at hmod
      omega
    obtain ⟨-, h'⟩ := h.consume hne
    obtain ⟨s', henv, hs'⟩ := drained (by omega) h'
    exact ⟨s', .head ⟨hne⟩ henv, hs'⟩

/-- **A call whose wait ends in time**: the EDMA takes the packet before the first poll. -/
theorem exists_seen (c : Platform) (packet : UInt32) (h : Between E n s)
    (h16 : edmaMinPktSize ≤ length.toNat) (hn : n + edmaTpdsPerPacket < noOfTxDesc) :
    ∃ l s', Run (edma c TxStep) s (ipq4019EthSend c packet length) l s' (.ret 0) ∧ Seen l := by
  have hfill := run_exec (M := edma c TxStep) (txFill c packet length) s
  generalize (exec (edma c TxStep) (txFill c packet length) s).2 = s₁ at hfill
  obtain ⟨⟨m, -, hm, hring⟩, hside⟩ := run_txFill h hfill
  -- between the doorbell and the first poll the EDMA consumes everything
  obtain ⟨s₂, henv, hrest⟩ := (hring.doorbell hside).1.drained (c := c) (by omega)
  have hpoll : (.readl .tpdIdxQ, s₂) ∈ hist (edma c TxStep) (txComplete length) s₂ :=
    poll_mem_complete
  have hwait := (Run.refl.envs henv).trans (run_exec (M := edma c TxStep) (txComplete length) s₂)
  generalize hist (edma c TxStep) (txComplete length) s₂ = l₂ at hpoll hwait
  generalize (exec (edma c TxStep) (txComplete length) s₂).1 = r at hwait
  have hsplit : ipq4019EthSend c packet length = txFill c packet length >>= fun _ => getDev >>=
      fun p => writel p.tpdHead.toUInt32 .tpdIdxQ >>= fun _ => txComplete length := by
    unfold ipq4019EthSend
    exact if_neg (not_lt.mpr h16)
  have hr := (hfill.bind fun _ => getDev >>= fun p =>
    writel p.tpdHead.toUInt32 .tpdIdxQ >>= fun _ => txComplete length).trans (.cons (.cons hwait))
  rw [← hsplit] at hr
  obtain rfl := send_returns hr
  refine ⟨_, _, hr, (.readl .tpdIdxQ, s₂), ?_, rfl, hrest.cons_eq_iff.mpr rfl⟩
  exact List.mem_append_right _ (List.mem_cons_of_mem _ (List.mem_cons_of_mem _ hpoll))

/-- After bring-up with the index 0. -/
def idleRing : World := start .flat (.cold 0 0 fun _ => 0)

theorem idle_idleRing : Idle idleRing := idle_start (by decide) rfl rfl

/-- A packet of 64 bytes, which the EDMA takes during the call. -/
theorem send_truthful_taken : ∃ l s',
    Run (edma .flat TxStep) idleRing (ipq4019EthSend .flat 0x81002000 64) l s' (.ret 0) ∧
      Truthful 64 l 0 s' := by
  have h := Between.of_idle idle_idleRing
  have h16 : edmaMinPktSize ≤ (64 : UInt16).toNat := by decide
  obtain ⟨l, s', hr, hseen⟩ := exists_seen .flat 0x81002000 h h16 (by decide)
  obtain ⟨m, hm, -, howned, -⟩ := run_send h h16 hr
  refine ⟨l, s', hr, (send_truthful_iff .flat 0x81002000 64 _ 0 idleRing _ _ _ h hr).mpr
    ⟨h16, fun x hx hbell => ?_, hseen⟩⟩
  rw [howned x hx hbell, Nat.le_zero.mp hm]
  decide

/-- **The result is not always true**: the EDMA never takes a packet, and the call returns 0. -/
theorem send_truthful_fails : ¬ ∀ (c : Platform) (packet : UInt32) (length : UInt16) (s s' : World)
    (l : List (EdmaOp × World)) (r : Int), Idle s →
    Run (edma c TxStep) s (ipq4019EthSend c packet length) l s' (.ret r) →
      Truthful length l r s' := by
  intro h
  have hrun := run_exec (M := edma .flat TxStep) (ipq4019EthSend .flat 0x81002000 64) idleRing
  have htrue := h .flat 0x81002000 64 idleRing _ _ _ idle_idleRing hrun
  have howned := (htrue.taken (send_returns hrun)).2
  rw [(sameRing_exec_send .flat 0x81002000 idleRing TxStep (by decide)).owned,
    owned_handed idle_idleRing.head, idle_idleRing.owned, idle_idleRing.filled] at howned
  have hlen := congrArg List.length howned
  rw [List.nil_append, List.nil_append, length_slots] at hlen
  exact absurd hlen (by decide)

end Ipq4019.Edma.TxResult
