import Ipq4019.Mdio.Bank

/-!
# MDIO: transactions without the controller

One level up the controller disappears.  A transaction is performed and reported, or performed late
while the call reports failure, or lost.

* `wire_run`: a run of the driver beside the controller is one such choice for each transaction; what
  is still in flight at its end counts as performed.
* `wire_run_prompt`: if no wait times out, every transaction is performed and reported.
* `onWire_inTime`: beside a controller that completes each transaction within 100 ms no wait times out.
* `prompt_onWire`: every program has a run beside such a controller.
-/

namespace Ipq4019.Mdio.Line

open Ipq4019.Lib.Interleave Ipq4019.Lib.Interleave.Prog
open Ipq4019.Mdio.Driver Ipq4019.Mdio.Controller Ipq4019.Mdio.Call Ipq4019.Mdio.Bank

/-- What becomes of a transaction. -/
inductive Fate
  | ok | late | lost
  deriving DecidableEq

/-- What a call returns and leaves. -/
def outcome (f : Fate) (o : BusOp) (b : Phys) : o.Res × Phys :=
  match f with
  | .ok => (succeeded (perform (txnOf o) b).1 o, (perform (txnOf o) b).2)
  | .late => (failed o, (perform (txnOf o) b).2)
  | .lost => (failed o, b)

/-- The transactions as they should be. -/
def prompt : Machine busSig Phys where
  step := outcome .ok
  env _ _ := False

/-- The transactions with the given fates. -/
def line : Machine busSig (Phys × List Fate) where
  step o x :=
    let r := outcome (x.2.headD .ok) o x.1
    (r.1, r.2, x.2.tail)
  env _ _ := False

theorem exists_fates {α : Type} : ∀ {q : Bus α} {b b' : Phys} {a : α},
    q.Does (fun o b r b' => ∃ f, (r, b') = outcome f o b) b a b' →
      ∃ fs, exec line q (b, fs) = (a, b', [])
  | .ret _, _, _, _, ⟨rfl, rfl⟩ => ⟨[], rfl⟩
  | .op o k, b, _, _, ⟨r, b₁, ⟨f, hf⟩, h⟩ => by
    obtain ⟨fs, hfs⟩ := exists_fates h
    refine ⟨f :: fs, ?_⟩
    change exec line (k (outcome f o b).1) ((outcome f o b).2, fs) = _
    rw [← hf]
    exact hfs

/-! ### The bus behind the controller -/

variable {o : BusOp} {b : Phys} {s : Ctl Phys} {C : Contract mdioSig (Ctl Phys)}

/-- The bus when the transaction in flight is through. -/
def settled (s : Ctl Phys) : Phys :=
  match s.inflight with
  | some f => (perform f.txn s.bus).2
  | none => s.bus

theorem settled_stable (b : Phys) : Stable (mdio onPhys) fun s => settled s = b := by
  rintro s _ ⟨hf, ha⟩ hs
  rw [settled, hf] at hs
  rw [← hs]
  exact congrArg Prod.snd ha

/-- While the transaction of the call is under way that found the bus `b`. -/
structure Flying (o : BusOp) (b : Phys) (s : Ctl Phys) : Prop where
  busy : ∀ f, s.inflight = some f → f.txn = txnOf o ∧ s.bus = b
  idle : s.inflight = none → s.bus = (perform (txnOf o) b).2 ∧
    succeeded (s.reg .dataRead) o = succeeded (perform (txnOf o) b).1 o

theorem Flying.settled (h : Flying o b s) : settled s = (perform (txnOf o) b).2 := by
  unfold Line.settled
  cases hf : s.inflight with
  | none => exact (h.idle hf).1
  | some f =>
    obtain ⟨ht, hb⟩ := h.busy f hf
    change (perform f.txn s.bus).2 = _
    rw [ht, hb]

theorem Flying.stable : Stable (mdio onPhys) (Flying o b) := by
  rintro s _ ⟨hf, ha⟩ h
  rename_i f v b'
  obtain ⟨ht, rfl⟩ := h.busy f hf
  rw [ht] at ha
  obtain ⟨rfl, rfl⟩ := Prod.mk.inj ha
  refine ⟨fun _ h0 => by simp [Ctl.perform] at h0, fun _ => ⟨rfl, ?_⟩⟩
  cases o with
  | read phy reg val =>
    simp only [Ctl.perform, ht]
    rfl
  | write phy reg val => rfl

/-- **One call**: its transaction has one of the three fates, and is in time if no wait may time
out. -/
theorem wp_fate (hC : Lenient C) (h : settled s = b) : wp (mdio onPhys) C (wireOp o)
    (fun r s' => ∃ f, (r, settled s') = outcome f o b ∧
      (f = .ok ∧ s'.inflight = none ∨ ∃ t, C.asm .busyTimeout t)) s := by
  refine wp_wireOp hC (settled_stable b) (Flying.stable (o := o) (b := b)) o ?_ ?_ ?_ ?_ h
  · rintro t rfl hto
    exact ⟨.lost, rfl, Or.inr hto⟩
  · intro t ht h0
    rw [settled, h0] at ht
    refine ⟨fun f hf => ?_, fun hn => by simp at hn⟩
    rw [begun_inflight] at hf
    obtain rfl := Option.some.inj hf
    exact ⟨rfl, (begun_bus o t).trans ht⟩
  · intro t ht hto
    exact ⟨.late, Prod.ext rfl ht.settled, Or.inr hto⟩
  · intro t ht h0
    exact ⟨.ok, Prod.ext (ht.idle h0).2 ht.settled, Or.inl ⟨rfl, h0⟩⟩

/-- **A run on the wire** is a choice of fates. -/
theorem wire_run {α : Type} {q : Bus α} {l : List (MdioOp × Ctl Phys)} {s' : Ctl Phys} {a : α}
    (hr : Run (mdio onPhys) s (onWire q) l s' (.ret a)) :
    ∃ fs, exec line q (settled s, fs) = (a, settled s', []) := by
  have hfree : Lenient (Contract.free : Contract mdioSig (Ctl Phys)) :=
    ⟨fun _ => trivial, fun _ _ _ => trivial, fun _ _ _ => trivial⟩
  have hwp : wp (mdio onPhys) .free (onWire q) (fun a s' => ∃ b',
      q.Does (fun o b r b' => ∃ f, (r, b') = outcome f o b) (settled s) a b' ∧ settled s' = b') s := by
    refine wp_subst settled_stable (fun _ _ _ => trivial) (fun o x t ht => ?_) q _ s rfl
    refine wp_mono ?_ (wp_fate hfree ht)
    rintro r u ⟨f, hf, -⟩
    exact ⟨_, ⟨f, hf⟩, rfl⟩
  obtain ⟨b', hdoes, rfl⟩ := wp_run_free hwp hr
  exact exists_fates hdoes

/-- No wait times out. -/
def promptContract : Contract mdioSig (Ctl Phys) where
  inv _ := True
  asm o _ := o ≠ .busyTimeout
  ok _ _ := True

/-- **A run in which no wait times out**: every transaction is as it should be. -/
theorem wire_run_prompt {α : Type} {q : Bus α} {l : List (MdioOp × Ctl Phys)} {s' : Ctl Phys}
    {a : α} (hr : Run (mdio onPhys) s (onWire q) l s' (.ret a)) (h0 : s.inflight = none)
    (hl : ∀ x ∈ l, x.1 ≠ .busyTimeout) :
    (a, s'.bus) = exec prompt q s.bus ∧ s'.inflight = none := by
  have hlen : Lenient promptContract :=
    ⟨fun _ => trivial, fun _ _ _ => trivial, fun _ _ _ => trivial⟩
  have hwp : wp (mdio onPhys) promptContract (onWire q) (fun a s' => ∃ b',
      q.Does (fun o b r b' => (r, b') = outcome .ok o b) s.bus a b' ∧
        (s'.bus = b' ∧ s'.inflight = none)) s := by
    refine wp_subst (fun b => and_idle_stable) (fun _ _ _ => trivial) (fun o b t ht => ?_) q _ s
      ⟨rfl, h0⟩
    obtain ⟨rfl, h0⟩ := ht
    refine wp_mono ?_ (wp_fate (b := t.bus) hlen (by rw [settled, h0]))
    rintro r u ⟨f, hf, ⟨rfl, hu⟩ | ⟨_, hto⟩⟩
    · rw [settled, hu] at hf
      exact ⟨_, hf, rfl, hu⟩
    · exact absurd rfl hto
  obtain ⟨b', hdoes, rfl, hidle⟩ := wp_run_ret hwp hr hl
  exact ⟨exec_of_does (M := prompt) hdoes, hidle⟩

/-! ### A controller that is in time -/

/-- How often the driver looks at the controller while the transaction is under way. -/
def polls (f : Flight) (l : List (MdioOp × Ctl Phys)) : ℕ :=
  l.countP fun x => decide (x.1 = .readl .cmd ∧ x.2.inflight = some f)

/-- What the controller is given for a transaction: 100 ms, at one look in 10 µs. -/
def slowest : ℕ := 10000

/-- **The controller completes every transaction**: none is found under way that often. -/
def InTime (l : List (MdioOp × Ctl Phys)) : Prop := ∀ f, polls f l < slowest

theorem polls_append (f : Flight) (l l' : List (MdioOp × Ctl Phys)) :
    polls f (l ++ l') = polls f l + polls f l' := List.countP_append

theorem polls_le_cons (f : Flight) (x : MdioOp × Ctl Phys) (l : List (MdioOp × Ctl Phys)) :
    polls f l ≤ polls f (x :: l) := (List.sublist_cons_self x l).countP_le

theorem InTime.left {l l' : List (MdioOp × Ctl Phys)} (h : InTime (l ++ l')) : InTime l := by
  intro f
  have := h f
  rw [polls_append] at this
  omega

theorem InTime.right {l l' : List (MdioOp × Ctl Phys)} (h : InTime (l ++ l')) : InTime l' := by
  intro f
  have := h f
  rw [polls_append] at this
  omega

theorem InTime.tail {x : MdioOp × Ctl Phys} {l : List (MdioOp × Ctl Phys)} (h : InTime (x :: l)) :
    InTime l := fun f => lt_of_le_of_lt (polls_le_cons f x l) (h f)

/-- The driver waits for the slowest controller. -/
theorem slowest_le : slowest ≤ mdioBusyTimeoutUs / mdioPollUs := by decide

variable {α : Type}

/-- The controller is idle, or the transaction is under way. -/
def AtMost (f : Flight) (s : Ctl Phys) : Prop := s.inflight = none ∨ s.inflight = some f

theorem atMost_stable (f : Flight) : Stable (mdio onPhys) (AtMost f) := by
  rintro s _ ⟨-, -⟩ -
  exact Or.inl rfl

/-- **A wait that times out** has found the transaction under way at every look. -/
theorem le_polls (f : Flight) : ∀ (n : ℕ) {s s' : Ctl Phys} {l : List (MdioOp × Ctl Phys)} {a : Int},
    Run (mdio onPhys) s (pollBusy n) l s' (.ret a) → AtMost f s →
      (∃ x ∈ l, x.1 = .busyTimeout) → n ≤ polls f l
  | 0, _, _, _, _, _, _, _ => Nat.zero_le _
  | n + 1, s, s', l, a, hr, hs, ⟨x, hx, hto⟩ => by
    rcases hr.op_inv with ⟨hq, -⟩ | ⟨s₁, l₁, he, rfl, hr₁⟩
    · cases hq
    have h₁ := (atMost_stable f).env he hs
    have hx₁ : x ∈ l₁ := by
      rcases List.mem_cons.mp hx with rfl | hx
      · cases hto
      · exact hx
    change Run (mdio onPhys) s₁ (if s₁.readReg .cmd &&& mdioCmdAccessBusy = 0 then .ret 0
      else .op (S := mdioSig) (.udelay mdioPollUs) fun _ => pollBusy n) l₁ s' (.ret a) at hr₁
    by_cases hb : s₁.readReg .cmd &&& mdioCmdAccessBusy = 0
    · rw [if_pos hb] at hr₁
      obtain ⟨-, rfl, -⟩ := hr₁.ret_inv
      cases hx₁
    · rw [if_neg hb] at hr₁
      have hf : s₁.inflight = some f := h₁.resolve_left fun h => hb ((busy_iff s₁).mpr h)
      rcases hr₁.op_inv with ⟨hq, -⟩ | ⟨s₂, l₂, he₂, rfl, hr₂⟩
      · cases hq
      have hx₂ : x ∈ l₂ := by
        rcases List.mem_cons.mp hx₁ with rfl | hx
        · cases hto
        · exact hx
      have hn := le_polls f n hr₂ ((atMost_stable f).env he₂ (Or.inr hf)) ⟨x, hx₂, hto⟩
      have hle := polls_le_cons f (.udelay mdioPollUs, s₂) l₂
      have hcons : polls f ((.readl .cmd, s₁) :: (.udelay mdioPollUs, s₂) :: l₂) =
          polls f ((.udelay mdioPollUs, s₂) :: l₂) + 1 := List.countP_cons_of_pos (by simp [hf])
      change n + 1 ≤ polls f ((.readl .cmd, s₁) :: (.udelay mdioPollUs, s₂) :: l₂)
      omega

/-- **The wait beside a controller that is in time** does not time out, and ends idle. -/
theorem waitBusy_inTime {f : Flight} {l : List (MdioOp × Ctl Phys)} {s' : Ctl Phys} {r : Int}
    (hr : Run (mdio onPhys) s mdioWaitBusy l s' (.ret r)) (hs : AtMost f s) (hl : InTime l) :
    (∀ x ∈ l, x.1 ≠ .busyTimeout) ∧ r = 0 ∧ s'.inflight = none := by
  have hno : ∀ x ∈ l, x.1 ≠ .busyTimeout := by
    intro x hx hto
    have hn := le_polls f _ hr hs ⟨x, hx, hto⟩
    have := hl f
    have := slowest_le
    omega
  have hlen : Lenient promptContract :=
    ⟨fun _ => trivial, fun _ _ _ => trivial, fun _ _ _ => trivial⟩
  have hend := wp_run_ret (wp_waitBusy hlen (atMost_stable f) hs) hr hno
  rcases hend.2 with h | ⟨-, _, hto⟩
  · exact ⟨hno, h⟩
  · exact absurd rfl hto

/-- An access to an idle controller. -/
theorem run_idle {o : MdioOp} {k : o.Res → Wire α} {l : List (MdioOp × Ctl Phys)} {s' : Ctl Phys}
    {a : α} (hr : Run (mdio onPhys) s (.op (S := mdioSig) o k) l s' (.ret a))
    (h0 : s.inflight = none) : ∃ l', l = (o, s) :: l' ∧
      Run (mdio onPhys) (step o s).2 (k (step o s).1) l' s' (.ret a) := by
  rcases hr.op_inv with ⟨hq, -⟩ | ⟨s₁, l', he, rfl, hr'⟩
  · cases hq
  · obtain rfl : s₁ = s := (idle_stable h0).env he rfl
    exact ⟨l', rfl, hr'⟩

/-- What follows a wait beside a controller that is in time. -/
theorem run_after_wait {f : Flight} {k : Int → Wire α} {l : List (MdioOp × Ctl Phys)}
    {s' : Ctl Phys} {a : α} (hr : Run (mdio onPhys) s (mdioWaitBusy >>= k) l s' (.ret a))
    (hs : AtMost f s) (hl : InTime l) : ∃ l₁ l₂ s₁, l = l₁ ++ l₂ ∧
      (∀ x ∈ l₁, x.1 ≠ .busyTimeout) ∧ s₁.inflight = none ∧ InTime l₂ ∧
        Run (mdio onPhys) s₁ (k 0) l₂ s' (.ret a) := by
  obtain ⟨l₁, l₂, s₁, r, h₁, h₂, rfl⟩ := hr.bind_inv
  obtain ⟨hno, rfl, h0⟩ := waitBusy_inTime h₁ hs hl.left
  exact ⟨l₁, l₂, s₁, rfl, hno, h0, hl.right, h₂⟩

/-- A register write to an idle controller, of a register that starts nothing. -/
theorem run_setReg {v : UInt32} {r : MdioReg} {k : Unit → Wire α} {l : List (MdioOp × Ctl Phys)}
    {s' : Ctl Phys} {a : α} (hv : r ≠ .cmd)
    (hr : Run (mdio onPhys) s (.op (S := mdioSig) (.writel v r) k) l s' (.ret a))
    (h0 : s.inflight = none) : ∃ l', l = (.writel v r, s) :: l' ∧
      Run (mdio onPhys) (s.setReg r v) (k ()) l' s' (.ret a) := by
  obtain ⟨l', rfl, hr'⟩ := run_idle hr h0
  change Run (mdio onPhys) (s.writeReg v r) _ _ _ _ at hr'
  rw [Ctl.writeReg_plain hv] at hr'
  exact ⟨l', rfl, hr'⟩

/-- A START to an idle controller. -/
theorem run_start {v : UInt32} {k : Unit → Wire α} {l : List (MdioOp × Ctl Phys)} {s' : Ctl Phys}
    {a : α} (hv : v &&& mdioCmdAccessStart ≠ 0)
    (hr : Run (mdio onPhys) s (.op (S := mdioSig) (.writel v .cmd) k) l s' (.ret a))
    (h0 : s.inflight = none) : ∃ f l' s₁, l = (.writel v .cmd, s) :: l' ∧ AtMost f s₁ ∧
      Run (mdio onPhys) s₁ (k ()) l' s' (.ret a) := by
  obtain ⟨l', rfl, hr'⟩ := run_idle hr h0
  change Run (mdio onPhys) (s.writeReg v .cmd) _ _ _ _ at hr'
  rw [Ctl.writeReg_start hv h0] at hr'
  exact ⟨_, l', _, rfl, Or.inr rfl, hr'⟩

/-- **One call** beside a controller that is in time. -/
theorem wireOp_inTime {r : o.Res} {l : List (MdioOp × Ctl Phys)} {s' : Ctl Phys}
    (hr : Run (mdio onPhys) s (wireOp o) l s' (.ret r)) (h0 : s.inflight = none) (hl : InTime l) :
    (∀ x ∈ l, x.1 ≠ .busyTimeout) ∧ s'.inflight = none := by
  cases o with
  | read phy reg val =>
    obtain ⟨l₁, _, s₁, rfl, hno₁, h₁, hl₂, hr₂⟩ :=
      run_after_wait (f := ⟨0, txnOf (.read phy reg val)⟩) hr (Or.inl h0) hl
    obtain ⟨_, rfl, hr₃⟩ := run_setReg (by decide) hr₂ h₁
    obtain ⟨f, _, s₃, rfl, h₃, hr₄⟩ := run_start (by decide) hr₃ h₁
    obtain ⟨l₄, _, s₄, rfl, hno₄, h₄, -, hr₅⟩ := run_after_wait hr₄ h₃ hl₂.tail.tail
    obtain ⟨_, rfl, hr₆⟩ := run_idle hr₅ h₄
    obtain ⟨-, rfl, hend⟩ := hr₆.ret_inv
    obtain rfl : s' = s₄ := (idle_stable h₄).env hend rfl
    refine ⟨?_, h₄⟩
    simpa [or_imp, forall_and] using And.intro hno₁ hno₄
  | write phy reg val =>
    obtain ⟨l₁, _, s₁, rfl, hno₁, h₁, hl₂, hr₂⟩ :=
      run_after_wait (f := ⟨0, txnOf (.write phy reg val)⟩) hr (Or.inl h0) hl
    obtain ⟨_, rfl, hr₃⟩ := run_setReg (by decide) hr₂ h₁
    obtain ⟨_, rfl, hr₄⟩ := run_setReg (by decide) hr₃ h₁
    obtain ⟨f, l₅, s₄, rfl, h₄, hr₅⟩ := run_start (by decide) hr₄ h₁
    obtain ⟨hno₅, -, hend⟩ := waitBusy_inTime hr₅ h₄ hl₂.tail.tail.tail
    refine ⟨?_, hend⟩
    simpa [or_imp, forall_and] using And.intro hno₁ hno₅

/-- **A program** beside a controller that is in time: no wait times out. -/
theorem onWire_inTime : ∀ {q : Bus α} {s s' : Ctl Phys} {l : List (MdioOp × Ctl Phys)} {a : α},
    Run (mdio onPhys) s (onWire q) l s' (.ret a) → s.inflight = none → InTime l →
      ∀ x ∈ l, x.1 ≠ .busyTimeout
  | .ret _, _, _, _, _, hr, _, _ => by
    obtain ⟨-, rfl, -⟩ := hr.ret_inv
    simp
  | .op o k, _, _, _, _, hr, h0, hl => by
    obtain ⟨l₁, l₂, s₁, r, h₁, h₂, rfl⟩ := Run.bind_inv (p := wireOp o) hr
    obtain ⟨hno, h1⟩ := wireOp_inTime h₁ h0 hl.left
    have hrest := onWire_inTime (q := k r) h₂ h1 hl.right
    intro x hx
    rcases List.mem_append.mp hx with hx | hx
    · exact hno x hx
    · exact hrest x hx

/-! ### A controller that is quick -/

/-- A run to an idle state in which every access finds the controller idle. -/
def PromptRun {α : Type} (s : Ctl Phys) (q : Wire α) (a : α) (s' : Ctl Phys) : Prop :=
  ∃ l, Run (mdio onPhys) s q l s' (.ret a) ∧ (∀ x ∈ l, x.2.inflight = none) ∧ s'.inflight = none

/-- There is such a run. -/
def Prompt {α : Type} (s : Ctl Phys) (q : Wire α) : Prop := ∃ a s', PromptRun s q a s'

theorem inTime_of_idle {l : List (MdioOp × Ctl Phys)} (h : ∀ x ∈ l, x.2.inflight = none) :
    InTime l := by
  intro f
  have h0 : polls f l = 0 := List.countP_eq_zero.mpr fun x hx => by simp [h x hx]
  rw [h0]
  decide

theorem Prompt.ret {a : α} (h0 : s.inflight = none) : Prompt s (.ret a) :=
  ⟨a, s, [], .refl, by simp, h0⟩

theorem PromptRun.bind {γ : Type} {s₁ : Ctl Phys} {q : Wire α} {k : α → Wire γ} {a : α}
    (h : PromptRun s q a s₁) (hk : Prompt s₁ (k a)) : Prompt s (q >>= k) := by
  obtain ⟨l, hr, hl, -⟩ := h
  obtain ⟨c, s', l', hr', hl', h0⟩ := hk
  refine ⟨c, s', l ++ l', (hr.bind k).trans hr', ?_, h0⟩
  intro x hx
  rcases List.mem_append.mp hx with hx | hx
  · exact hl x hx
  · exact hl' x hx

theorem Prompt.op {o : MdioOp} {k : o.Res → Wire α} (h0 : s.inflight = none)
    (h : Prompt (step o s).2 (k (step o s).1)) : Prompt s (.op (S := mdioSig) o k) := by
  obtain ⟨a, s', l, hr, hl, h1⟩ := h
  exact ⟨a, s', (o, s) :: l, hr.cons, List.forall_mem_cons.mpr ⟨h0, hl⟩, h1⟩

theorem Prompt.env {s₁ : Ctl Phys} {q : Wire α} (he : (mdio onPhys).env s s₁) (h : Prompt s₁ q) :
    Prompt s q := by
  obtain ⟨a, s', l, hr, hl, h0⟩ := h
  have hs : Run (mdio onPhys) s q [] s₁ q := .env .refl he
  exact ⟨a, s', l, hs.trans hr, hl, h0⟩

theorem promptRun_waitBusy (h0 : s.inflight = none) : PromptRun s mdioWaitBusy 0 s := by
  have hn : mdioBusyTimeoutUs / mdioPollUs = 9999 + 1 := by decide
  have hpoll : Run (mdio onPhys) s (if s.readReg .cmd &&& mdioCmdAccessBusy = 0 then .ret 0
      else .op (S := mdioSig) (.udelay mdioPollUs) fun _ => pollBusy 9999) [] s (.ret (0 : Int)) := by
    rw [if_pos ((busy_iff s).mpr h0)]
    exact .refl
  unfold mdioWaitBusy
  rw [hn]
  exact ⟨[(.readl .cmd, s)], hpoll.cons, by simpa using h0, h0⟩

theorem Prompt.setReg {v : UInt32} {r : MdioReg} {k : Unit → Wire α} (hr : r ≠ .cmd)
    (h0 : s.inflight = none) (h : Prompt (s.setReg r v) (k ())) :
    Prompt s (.op (S := mdioSig) (.writel v r) k) := by
  refine Prompt.op (o := .writel v r) h0 ?_
  change Prompt (s.writeReg v r) _
  rwa [Ctl.writeReg_plain hr]

/-- A START, and the transaction at once. -/
theorem Prompt.start {v : UInt32} {k : Unit → Wire α} {f : Flight}
    (hv : v &&& mdioCmdAccessStart ≠ 0) (h0 : s.inflight = none)
    (hf : ((s.setReg .cmd v).start v).inflight = some f)
    (h : Prompt (((s.setReg .cmd v).start v).perform f (perform f.txn s.bus).1
      (perform f.txn s.bus).2) (k ())) : Prompt s (.op (S := mdioSig) (.writel v .cmd) k) := by
  refine Prompt.op (o := .writel v .cmd) h0 ?_
  change Prompt (s.writeReg v .cmd) _
  rw [Ctl.writeReg_start hv h0]
  exact Prompt.env (Perform.mk hf rfl) h

theorem prompt_wireOp (o : BusOp) (h0 : s.inflight = none) : Prompt s (wireOp o) := by
  have hf := begun_inflight o s
  cases o with
  | read phy reg val =>
    refine (promptRun_waitBusy h0).bind ?_
    refine .setReg (by decide) h0 (.start (by decide) h0 hf ?_)
    refine (promptRun_waitBusy rfl).bind (.op (o := .readl .dataRead) rfl ?_)
    exact .ret rfl
  | write phy reg val =>
    refine (promptRun_waitBusy h0).bind ?_
    refine .setReg (by decide) h0 (.setReg (by decide) h0 (.start (by decide) h0 hf ?_))
    exact ⟨_, _, promptRun_waitBusy rfl⟩

/-- Such a run of one call: it returns 0. -/
theorem prompt_succeeded (o : BusOp) (h0 : s.inflight = none) :
    ∃ l s' v, Run (mdio onPhys) s (wireOp o) l s' (.ret (succeeded v o)) := by
  obtain ⟨r, s', l, hr, hl, -⟩ := prompt_wireOp o h0
  have hno := (wireOp_inTime hr h0 (inTime_of_idle hl)).1
  have hlen : Lenient promptContract :=
    ⟨fun _ => trivial, fun _ _ _ => trivial, fun _ _ _ => trivial⟩
  obtain ⟨f, hf, ⟨rfl, -⟩ | ⟨_, hto⟩⟩ := wp_run_ret (wp_fate hlen rfl) hr hno
  · obtain ⟨rfl, -⟩ := Prod.mk.inj hf
    exact ⟨l, s', _, hr⟩
  · exact absurd rfl hto

/-- **Every program has a run beside a controller that is in time.** -/
theorem prompt_onWire : ∀ (q : Bus α) {s : Ctl Phys}, s.inflight = none → Prompt s (onWire q)
  | .ret _, _, h0 => .ret h0
  | .op o k, _, h0 => by
    obtain ⟨r, s₁, hr⟩ := prompt_wireOp o h0
    have h1 : s₁.inflight = none := by
      obtain ⟨_, _, _, h1⟩ := hr
      exact h1
    exact hr.bind (prompt_onWire (k r) h1)

end Ipq4019.Mdio.Line
