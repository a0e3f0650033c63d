import Ipq4019.Edma.Recv

/-!
# The receive ring: the accesses of a call

A call of `ipq4019_eth_recv`, access by access, beside any hardware that leaves the driver's own
indices alone: whatever it does to the registers and to memory, at any time.  Other calls of the
driver that do not concern reception may count as hardware here.

* `RecvRun`: the three forms of a call, with all its accesses; `run_recv`: there is no other.
* `forall_calls`: in a run of calls from bring-up on, the tail stays in the ring.
-/

namespace Ipq4019.Edma.RxCall

open Ipq4019.Lib Ipq4019.Lib.Interleave Ipq4019.Lib.Interleave.Prog Ipq4019.Lib.Memory
open Ipq4019.Lib.Ring
open Ipq4019.Edma.Driver Ipq4019.Edma.Device Ipq4019.Edma.Init Ipq4019.Edma.RxRing
open Ipq4019.Edma.Recv

variable {c : Platform} {env : World → World → Prop} {m : Int} {s s' t : World}

/-! ### The driver's side -/

/-- The indices and the buffers are the same in both states. -/
structure Side (s t : World) : Prop where
  head : t.dev.rfdHead = s.dev.rfdHead
  tail : t.dev.rfdTail = s.dev.rfdTail
  bufs : t.netRxPackets = s.netRxPackets

theorem Side.rfl {s : World} : Side s s := ⟨Eq.refl _, Eq.refl _, Eq.refl _⟩

theorem Side.trans {u : World} (h : Side s t) (h' : Side t u) : Side s u :=
  ⟨h'.head.trans h.head, h'.tail.trans h.tail, h'.bufs.trans h.bufs⟩

/-- The hardware leaves the driver's side alone. -/
def Beside (env : World → World → Prop) : Prop := ∀ s s', env s s' → Side s s'

theorem Beside.steps (henv : Beside env) (h : (edma c env).Env s s') : Side s s' := by
  induction h with
  | refl => exact .rfl
  | tail _ he ih => exact ih.trans (henv _ _ he)

/-- The buffer at the tail. -/
def tailBuf (s : World) : UInt32 := s.netRxPackets.ptr s.dev.rfdTail.toNat

theorem Side.tailBuf (h : Side s t) : tailBuf t = tailBuf s := by
  unfold RxCall.tailBuf
  rw [h.bufs, h.tail]

/-! ### The forms of a call -/

/-- The accesses up to the test of the valid bit. -/
def looks (s s₁ s₂ s₃ s₄ s₅ : World) : List (EdmaOp × World) :=
  [(.readl .rfdIdxQ, s₁), (.getDev, s₂), (.netRxPacket s.dev.rfdTail.toNat, s₃),
    (.invalidateRange (tailBuf s) edmaRxBufSize, s₄),
    (.load16 (tailBuf s + UInt32.ofNat offsetofRrd7), s₅)]

/-- The word `rrd6` in the buffer at the tail. -/
def rrd6At (c : Platform) (s : World) : UInt16 :=
  read16 s.mem (c.virtToPhys (tailBuf s + UInt32.ofNat offsetofRrd6))

/-- The word `rrd7` in the buffer at the tail. -/
def rrd7At (c : Platform) (s : World) : UInt16 :=
  read16 s.mem (c.virtToPhys (tailBuf s + UInt32.ofNat offsetofRrd7))

/-- The accesses of the recycling. -/
def Recycles : EdmaOp → Prop
  | .getDev | .writel _ .rfdIdxQ | .modDev _ | .writel _ .rxSwConsIdxQ => True
  | _ => False

/-- **A call from `s` to `s'`**, with its accesses and what it returns. -/
inductive RecvRun (c : Platform) (m : Int) (s : World) :
    List (EdmaOp × World) → RecvOut → World → Prop
  | nothing {s₁ s₂ s' : World} (h₁ : Side s s₁) (h₂ : Side s s₂)
      (hc : s₁.hw.rfdCons.val = s.dev.rfdTail.toNat) (h' : Side s s') :
      RecvRun c m s [(.readl .rfdIdxQ, s₁), (.getDev, s₂)] ⟨0, 0, []⟩ s'
  | invalid {s₁ s₂ s₃ s₄ s₅ s' : World} (h₁ : Side s s₁) (h₂ : Side s s₂) (h₃ : Side s s₃)
      (h₄ : Side s s₄) (h₅ : Side s s₅) (hc : s₁.hw.rfdCons.val ≠ s.dev.rfdTail.toNat)
      (hv : rrd7At c s₅ &&& edmaRrd7DescValid = 0) (h' : Side s s') :
      RecvRun c m s (looks s s₁ s₂ s₃ s₄ s₅) ⟨0, 0, []⟩ s'
  | frame {s₁ s₂ s₃ s₄ s₅ s₆ s₇ s' : World} {n : UInt16} {l : List (EdmaOp × World)}
      (h₁ : Side s s₁) (h₂ : Side s s₂) (h₃ : Side s s₃) (h₄ : Side s s₄) (h₅ : Side s s₅)
      (h₆ : Side s s₆) (h₇ : Side s s₇) (hc : s₁.hw.rfdCons.val ≠ s.dev.rfdTail.toNat)
      (hv : rrd7At c s₅ &&& edmaRrd7DescValid ≠ 0) (hn : n = truncated (rrd6At c s₆) m)
      (hl : ∀ x ∈ l, Recycles x.1) (head : s'.dev.rfdHead = bump noOfRxDesc s.dev.rfdHead)
      (tail : s'.dev.rfdTail = bump noOfRxDesc s.dev.rfdTail)
      (bufs : s'.netRxPackets = s.netRxPackets) :
      RecvRun c m s (looks s s₁ s₂ s₃ s₄ s₅ ++
          (.load16 (tailBuf s + UInt32.ofNat offsetofRrd6), s₆) ::
          (.memcpy (tailBuf s + UInt32.ofNat edmaRrdSize) n.toNat, s₇) :: l)
        ⟨0, n, read s₇.mem (c.virtToPhys (tailBuf s + UInt32.ofNat edmaRrdSize)) n.toNat⟩ s'

/-- Only `modDev` concerns the driver's side. -/
theorem side_step {o : EdmaOp} (ho : ∀ f, o ≠ .modDev f) (s : World) : Side s (step c o s).2 := by
  cases o with
  | readl r => cases r <;> exact ⟨rfl, rfl, rfl⟩
  | writel v r => cases r <;> exact ⟨rfl, rfl, rfl⟩
  | modDev f => exact absurd rfl (ho f)
  | _ => exact ⟨rfl, rfl, rfl⟩

section inversion

variable (henv : Beside env) {l : List (EdmaOp × World)}
include henv

/-- An access of a call that is made in full. -/
theorem op_run {α : Type} {o : EdmaOp} {k : o.Res → Drv α} {a : α}
    (h : Run (edma c env) s (.op (S := edmaSig) o k) l s' (.ret a)) :
    ∃ s₁ l', Side s s₁ ∧ l = (o, s₁) :: l' ∧
      Run (edma c env) (step c o s₁).2 (k (step c o s₁).1) l' s' (.ret a) := by
  rcases h.op_inv with ⟨hq, -⟩ | ⟨s₁, l', he, hl, hr⟩
  · cases hq
  · exact ⟨s₁, l', henv.steps he, hl, hr⟩

/-- The end. -/
theorem ret_run {α : Type} {a b : α} (h : Run (edma c env) s (.ret a) l s' (.ret b)) :
    Side s s' ∧ l = [] ∧ b = a := by
  obtain ⟨hb, hl, hs⟩ := h.ret_inv
  cases hb
  exact ⟨henv.steps hs, hl, rfl⟩

theorem run_recycle {u : Unit} (hr : Run (edma c env) s recycle l s' (.ret u)) :
    (∀ x ∈ l, Recycles x.1) ∧ s'.dev.rfdHead = bump noOfRxDesc s.dev.rfdHead ∧
      s'.dev.rfdTail = bump noOfRxDesc s.dev.rfdTail ∧ s'.netRxPackets = s.netRxPackets := by
  obtain ⟨s₁, l₁, h₁, rfl, hr₁⟩ := op_run henv hr
  obtain ⟨s₂, l₂, h₂, rfl, hr₂⟩ := op_run henv hr₁
  obtain ⟨s₃, l₃, h₃, rfl, hr₃⟩ := op_run henv hr₂
  obtain ⟨s₄, l₄, h₄, rfl, hr₄⟩ := op_run henv hr₃
  obtain ⟨s₅, l₅, h₅, rfl, hr₅⟩ := op_run henv hr₄
  obtain ⟨s₆, l₆, h₆, rfl, hr₆⟩ := op_run henv hr₅
  obtain ⟨h₇, rfl, -⟩ := ret_run henv hr₆
  have hs₃ : Side s s₃ := h₁.trans (h₂.trans ((side_step (by simp) s₂).trans h₃))
  have hs₇ : Side (step c (.modDev _) s₄).2 s' :=
    h₅.trans (h₆.trans ((side_step (by simp) s₆).trans h₇))
  refine ⟨?_, ?_, ?_, ?_⟩
  · simp [Recycles]
  · calc s'.dev.rfdHead = s₄.dev.rfdHead := hs₇.head
      _ = bump noOfRxDesc s₃.dev.rfdHead := h₄.head
      _ = bump noOfRxDesc s.dev.rfdHead := by rw [hs₃.head]
  · calc s'.dev.rfdTail = bump noOfRxDesc s₄.dev.rfdTail := hs₇.tail
      _ = bump noOfRxDesc s₃.dev.rfdTail := by rw [h₄.tail]; rfl
      _ = bump noOfRxDesc s.dev.rfdTail := by rw [hs₃.tail]
  · exact hs₇.bufs.trans (h₄.bufs.trans hs₃.bufs)

/-- **The forms of a call.** -/
theorem run_recv {out : RecvOut} (hr : Run (edma c env) s (ipq4019EthRecv m) l s' (.ret out)) :
    RecvRun c m s l out s' := by
  obtain ⟨s₁, l₁, h₁, rfl, hr₁⟩ := op_run henv hr
  obtain ⟨s₂, l₂, h₂, rfl, hr₂⟩ := op_run henv hr₁
  have hs₂ : Side s s₂ := h₁.trans ((side_step (by simp) s₁).trans h₂)
  change Run (edma c env) s₂ (if ((s₁.readReg .rfdIdxQ >>> edmaRfdConsIdxShift) &&&
    edmaRfdConsIdxMask).toNat = s₂.dev.rfdTail.toNat then .ret ⟨0, 0, []⟩
    else rxTake m s₂.dev.rfdTail) l₂ s' (.ret out) at hr₂
  rw [rfdCons_field, hs₂.tail] at hr₂
  by_cases hc : s₁.hw.rfdCons.val = s.dev.rfdTail.toNat
  · rw [if_pos hc] at hr₂
    obtain ⟨h₃, rfl, rfl⟩ := ret_run henv hr₂
    exact .nothing h₁ hs₂ hc (hs₂.trans h₃)
  rw [if_neg hc] at hr₂
  obtain ⟨s₃, l₃, h₃, rfl, hr₃⟩ := op_run henv hr₂
  have hs₃ : Side s s₃ := hs₂.trans h₃
  have hbuf : s₃.netRxPackets.ptr s.dev.rfdTail.toNat = tailBuf s := by
    rw [hs₃.bufs]
    rfl
  change Run (edma c env) s₃ (rxLook m (s₃.netRxPackets.ptr s.dev.rfdTail.toNat)) l₃ s' (.ret out)
    at hr₃
  rw [hbuf] at hr₃
  obtain ⟨s₄, l₄, h₄, rfl, hr₄⟩ := op_run henv hr₃
  obtain ⟨s₅, l₅, h₅, rfl, hr₅⟩ := op_run henv hr₄
  have hs₄ : Side s s₄ := hs₃.trans h₄
  have hs₅ : Side s s₅ := hs₄.trans h₅
  have h7 : read16 s₅.mem (c.virtToPhys (tailBuf s + UInt32.ofNat offsetofRrd7)) = rrd7At c s₅ := by
    rw [rrd7At, hs₅.tailBuf]
  change Run (edma c env) s₅ (if read16 s₅.mem (c.virtToPhys (tailBuf s +
    UInt32.ofNat offsetofRrd7)) &&& edmaRrd7DescValid = 0 then .ret ⟨0, 0, []⟩
    else rxCopy m (tailBuf s)) l₅ s' (.ret out) at hr₅
  rw [h7] at hr₅
  by_cases hv : rrd7At c s₅ &&& edmaRrd7DescValid = 0
  · rw [if_pos hv] at hr₅
    obtain ⟨h₆, rfl, rfl⟩ := ret_run henv hr₅
    exact .invalid h₁ hs₂ hs₃ hs₄ hs₅ hc hv (hs₅.trans h₆)
  rw [if_neg hv] at hr₅
  obtain ⟨s₆, l₆, h₆, rfl, hr₆⟩ := op_run henv hr₅
  have hs₆ : Side s s₆ := hs₅.trans h₆
  have h6 : read16 s₆.mem (c.virtToPhys (tailBuf s + UInt32.ofNat offsetofRrd6)) = rrd6At c s₆ := by
    rw [rrd6At, hs₆.tailBuf]
  change Run (edma c env) s₆ (rxStore (tailBuf s) (truncated (read16 s₆.mem (c.virtToPhys
    (tailBuf s + UInt32.ofNat offsetofRrd6))) m)) l₆ s' (.ret out) at hr₆
  rw [h6] at hr₆
  obtain ⟨s₇, l₇, h₇, rfl, hr₇⟩ := op_run henv hr₆
  have hs₇ : Side s s₇ := hs₆.trans h₇
  obtain ⟨l₈, l₉, s₈, u, hrec, hend, rfl⟩ := Run.bind_inv (p := recycle) hr₇
  obtain ⟨hl, head, tail, bufs⟩ := run_recycle henv hrec
  obtain ⟨h₉, rfl, rfl⟩ := ret_run henv hend
  rw [List.append_nil]
  refine .frame h₁ hs₂ hs₃ hs₄ hs₅ hs₆ hs₇ hc hv rfl hl ?_ ?_ ?_
  · rw [h₉.head, head]
    exact congrArg _ hs₇.head
  · rw [h₉.tail, tail]
    exact congrArg _ hs₇.tail
  · rw [h₉.bufs, bufs]
    exact hs₇.bufs

/-! ### A call beside hardware that stands still -/

omit henv in
theorem uses_recycle : recycle.Uses Recycles :=
  ⟨trivial, fun _ => ⟨trivial, fun _ => ⟨trivial, fun _ => ⟨trivial, fun _ => ⟨trivial, fun _ =>
    ⟨trivial, fun _ => trivial⟩⟩⟩⟩⟩⟩

omit henv in
/-- The history of a call that finds the index moved and a valid descriptor. -/
theorem hist_recv (env : World → World → Prop) (m : Int) (hd : s.hw.rfdCons.val ≠ s.dev.rfdTail.toNat)
    (hv : rrd7At c s &&& edmaRrd7DescValid ≠ 0) : ∃ l, (∀ x ∈ l, Recycles x.1) ∧
      hist (edma c env) (ipq4019EthRecv m) s =
        looks s s (s.noteRead .rfdIdxQ) (s.noteRead .rfdIdxQ) (s.noteRead .rfdIdxQ)
          (s.noteRead .rfdIdxQ) ++
        (.load16 (tailBuf s + UInt32.ofNat offsetofRrd6), s.noteRead .rfdIdxQ) ::
        (.memcpy (tailBuf s + UInt32.ofNat edmaRrdSize) (truncated (rrd6At c s) m).toNat,
          s.noteRead .rfdIdxQ) :: l := by
  have hend : ∀ out : RecvOut, (recycle >>= fun _ => Prog.ret out).Uses Recycles :=
    fun out => uses_bind uses_recycle fun _ => trivial
  have hl : ∀ (out : RecvOut) (t : World), ∀ x ∈ hist (edma c env)
      (recycle >>= fun _ => Prog.ret out) t, Recycles x.1 :=
    fun out t => ((run_exec (M := edma c env) _ t).uses (hend out)).2
  refine ⟨_, hl ⟨0, truncated (rrd6At c s) m, read s.mem (c.virtToPhys (tailBuf s +
    UInt32.ofNat edmaRrdSize)) (truncated (rrd6At c s) m).toNat⟩
    { s.noteRead .rfdIdxQ with copied := s.copied + 1 }, ?_⟩
  · change (EdmaOp.readl .rfdIdxQ, s) :: (EdmaOp.getDev, s.noteRead .rfdIdxQ) ::
      hist (edma c env) (if ((s.readReg .rfdIdxQ >>> edmaRfdConsIdxShift) &&&
        edmaRfdConsIdxMask).toNat = s.dev.rfdTail.toNat then .ret ⟨0, 0, []⟩
        else rxTake m s.dev.rfdTail) (s.noteRead .rfdIdxQ) = _
    rw [if_neg (by rw [rfdCons_field]; exact hd)]
    change _ :: _ :: (EdmaOp.netRxPacket s.dev.rfdTail.toNat, s.noteRead .rfdIdxQ) ::
      (EdmaOp.invalidateRange (tailBuf s) edmaRxBufSize, s.noteRead .rfdIdxQ) ::
      (EdmaOp.load16 (tailBuf s + UInt32.ofNat offsetofRrd7), s.noteRead .rfdIdxQ) ::
      hist (edma c env) (if rrd7At c s &&& edmaRrd7DescValid = 0 then .ret ⟨0, 0, []⟩
        else rxCopy m (tailBuf s)) (s.noteRead .rfdIdxQ) = _
    rw [if_neg hv]
    rfl

/-! ### Runs of calls -/

omit henv in
/-- A call leaves the tail in the ring. -/
theorem RecvRun.tail_lt {out : RecvOut} (h : RecvRun c m s l out s')
    (ht : s.dev.rfdTail.toNat < noOfRxDesc) : s'.dev.rfdTail.toNat < noOfRxDesc := by
  cases h with
  | nothing _ _ _ h' => rwa [h'.tail]
  | invalid _ _ _ _ _ _ _ h' => rwa [h'.tail]
  | frame _ _ _ _ _ _ _ _ _ _ _ _ tail _ =>
    rw [tail, toNat_bump ht (by decide)]
    exact Nat.mod_lt _ (by decide)

/-- **What holds of every call** that finds the tail in the ring, holds of the calls of a run from
bring-up on. -/
theorem forall_calls {P : CallRec → Prop} {w : World} {cs : List CallRec}
    (hP : ∀ s m l out s', s.dev.rfdTail.toNat < noOfRxDesc → RecvRun c m s l out s' →
      P ⟨m, s, l, out, s'⟩) (h : CallRun (edma c env) (start c w) cs s') : ∀ x ∈ cs, P x := by
  have hstart : (start c w).dev.rfdTail.toNat < noOfRxDesc := by
    obtain ⟨u, hu⟩ := exec_initRfdRing c TxStep w
    rw [start, hu]
    change (0 : UInt16).toNat < noOfRxDesc
    decide
  have hstable : Stable (edma c env) fun s => s.dev.rfdTail.toNat < noOfRxDesc := by
    intro s t he ht
    rwa [(henv s t he).tail]
  refine (Calls.CallRun.forall (A := fun _ : Unit => fun s => s.dev.rfdTail.toNat < noOfRxDesc)
    (H := fun _ => True) (fun _ => hstable) ?_ h (fun _ _ => trivial) (i := ()) hstart).1
  intro _ s m l out s' ht hr _
  have hrun := run_recv henv hr
  exact ⟨hP s m l out s' ht hrun, (), hrun.tail_lt ht⟩

end inversion

end Ipq4019.Edma.RxCall
