import Ipq4019.Lib.Calls
import Ipq4019.Mdio.Line
import Ipq4019.Eth.Driver

/-!
# The network device: its life cycle

Three flags of the poller, one of the device, and the indices of the rings make one state machine,
which the network layer drives by any sequence of calls while the hardware does what it likes.

* `polls_run`: what a call of the poller makes of the flags.
* `life_cycle`: what holds in every run from the start of the payload.
-/

namespace Ipq4019.Eth.Life

open Ipq4019.Lib Ipq4019.Lib.Interleave Ipq4019.Lib.Interleave.Prog Ipq4019.Lib.Calls
open Ipq4019.Mdio.Driver (BusOp Bus mdioRead)
open Ipq4019.Mdio.Bank (Phys)
open Ipq4019.Mdio.Line (Fate outcome)
open Ipq4019.Chip.Access (SocOp Soc Board onSoc)
open Ipq4019.Psgmii.Driver (qca807xPhySpecific qca807xPhySpecificLink ipq4019NumPortPhy)
open Ipq4019.Edma.Driver (Platform IpqEdmaDev EdmaOp)
open Ipq4019.Edma.Alloc Ipq4019.Eth.Driver

/-! ### The machine -/

/-- A device: what the rings' code has of it, and the other fields. -/
structure EthDev where
  rings : IpqEdmaDev
  macAddr : UipEthAddr
  started : Int

def zeroedDev : EthDev := ⟨⟨0, 0, 0, 0, 0, 0⟩, Vector.replicate 6 0, 0⟩

/-- The driver's state, and beside it the hardware: the rings' part of it with the allocator, and the
board, where the next MDIO transaction has the fate that comes with the PHYs. -/
structure NicState (γ : Type) where
  poller : Poller
  devs : List EthDev
  netDevices : List ℕ
  sysinfo : UipEthAddr
  hw : γ
  board : Board (Phys × Fate)

variable {γ : Type}

/-- A transaction with the fate that is due. -/
def faulty (o : BusOp) (x : Phys × Fate) : o.Res × (Phys × Fate) :=
  ((outcome x.2 o x.1).1, (outcome x.2 o x.1).2, x.2)

def NicState.modDev (s : NicState γ) (p : ℕ) (f : EthDev → EthDev) : NicState γ :=
  { s with devs := s.devs.modify p f }

def NicState.dev (s : NicState γ) (p : ℕ) : EthDev := s.devs.getD p zeroedDev

/-- An access to the rings: the fields of the device, and the rest, whatever `hw` makes of it. -/
def ringStep (hw : (o : AllocOp) → γ → o.Res × γ) (p : ℕ) :
    (o : AllocOp) → NicState γ → o.Res × NicState γ
  | .edma .getDev, s => ((s.dev p).rings, s)
  | .edma (.modDev f), s => ((), s.modDev p fun d => { d with rings := f d.rings })
  | o, s => ((hw o s.hw).1, { s with hw := (hw o s.hw).2 })

/-- **The meaning of an access.** -/
def step (hw : (o : AllocOp) → γ → o.Res × γ) : (o : NicOp) → NicState γ → o.Res × NicState γ
  | .ring p o, s => ringStep hw p o s
  | .soc o, s => ((Chip.Access.step faulty o s.board).1,
      { s with board := (Chip.Access.step faulty o s.board).2 })
  | .xzallocDev, s => (s.devs.length, { s with devs := s.devs ++ [zeroedDev] })
  | .setMacAddr p m, s => ((), s.modDev p fun d => { d with macAddr := m })
  | .getStarted p, s => ((s.dev p).started, s)
  | .setStarted p v, s => ((), s.modDev p fun d => { d with started := v })
  | .getPoller, s => (s.poller, s)
  | .modPoller f, s => ((), { s with poller := f s.poller })
  | .sysinfoMac, s => (s.sysinfo, s)
  | .netAddDevice p, s => ((), { s with netDevices := s.netDevices ++ [p] })

/-- The hardware does anything to its own state, at any time. -/
def nic (hw : (o : AllocOp) → γ → o.Res × γ) : Machine nicSig (NicState γ) where
  step := step hw
  env s t := ∃ h b, t = { s with hw := h, board := b }

/-- A call that was made. -/
abbrev NicRec (γ : Type) := CallRec nicSig (NicState γ) NicCall.Out

/-- The start of the payload. -/
structure Fresh (s : NicState γ) : Prop where
  poller : s.poller = ⟨0, 0, 0⟩
  devs : s.devs = []
  netDevices : s.netDevices = []

/-! ### What is said of a run -/

/-- The call is one of a device that is registered. -/
def OnRegistered (x : NicRec γ) : Prop :=
  match x.call with
  | .poll => True
  | .ready p => p ∈ x.before.netDevices
  | .send p _ _ => p ∈ x.before.netDevices
  | .recv p _ => p ∈ x.before.netDevices

/-- What `ipq4019_eth_init` returned in the call, if it was called. -/
def initResult : NicRec γ → Option Int
  | ⟨.poll, _, _, out, _⟩ => out
  | _ => none

/-- What `ipq4019_eth_start` returned in the call, if it was called. -/
def startResult : NicRec γ → Option Int
  | ⟨.ready _, _, _, out, _⟩ => out.start
  | _ => none

/-- `*ready` after a call that sets it. -/
def readyFlag : NicRec γ → Option Int
  | ⟨.ready _, _, _, out, _⟩ => some out.ready
  | _ => none

/-- The call has nothing to do with the rings, and leaves the devices as they were. -/
structure RingsUntouched (x : NicRec γ) : Prop where
  hist : ∀ y ∈ x.hist, ∀ p o, y.1 ≠ .ring p o
  devs : x.after.devs = x.before.devs

/-- The access reads a PHY of a port with success, and the link bit is set. -/
def Sees (x : NicOp × NicState γ) : Prop :=
  ∃ i < ipq4019NumPortPhy, x.1 = .soc (.bus (.read (UInt8.ofNat i) qca807xPhySpecific 0)) ∧
    ∃ v, (faulty (.read (UInt8.ofNat i) qca807xPhySpecific 0) x.2.board.phys).1 =
      ((0, v) : Int × UInt16) ∧ v &&& qca807xPhySpecificLink ≠ 0

/-- **The life cycle.** -/
structure LifeCycle (cs : List (NicRec γ)) : Prop where
  attempts : (cs.countP fun x => (initResult x).isSome) ≤ 3
  never_again : cs.Pairwise fun x y => initResult x = some 0 → initResult y = none
  one_device : ∀ x ∈ cs, x.after.netDevices.length ≤ 1
  start_first : ∀ l x r p, cs = l ++ x :: r → x.call = .ready p →
    (startResult x ≠ none ↔ ∀ y ∈ l, y.call ≠ .ready p)
  no_reset : ∀ x ∈ cs, readyFlag x ≠ none → startResult x = none → RingsUntouched x
  link : ∀ x ∈ cs, ∀ v, readyFlag x = some v → (v = 0 ∨ v = 1) ∧ (v = 1 ↔ ∃ y ∈ x.hist, Sees y)

/-! ### The flags -/

variable {hw : (o : AllocOp) → γ → o.Res × γ} {c : Platform} {s s' : NicState γ}
  {l : List (NicOp × NicState γ)} {p : ℕ} {α : Type}

/-- The flags of the poller, the flag of each device, and the devices registered. -/
structure Flags where
  poller : Poller
  started : List Int
  netDevices : List ℕ

def flags (s : NicState γ) : Flags := ⟨s.poller, s.devs.map (·.started), s.netDevices⟩

/-- The accesses that leave the flags alone. -/
def Plain : NicOp → Prop
  | .xzallocDev => False
  | .setStarted _ _ => False
  | .modPoller _ => False
  | .netAddDevice _ => False
  | _ => True

theorem map_started_modify {f : EthDev → EthDev} (hf : ∀ d, (f d).started = d.started)
    (ds : List EthDev) (p : ℕ) : (ds.modify p f).map (·.started) = ds.map (·.started) := by
  refine List.ext_getElem (by simp) fun i h₁ h₂ => ?_
  simp only [List.getElem_map, List.getElem_modify]
  split
  · exact hf _
  · rfl

theorem flags_modDev {f : EthDev → EthDev} (hf : ∀ d, (f d).started = d.started) :
    flags (s.modDev p f) = flags s := by
  unfold flags NicState.modDev
  rw [map_started_modify hf]

theorem flags_ringStep (o : AllocOp) : flags (ringStep hw p o s).2 = flags s := by
  unfold ringStep
  split
  · rfl
  · exact flags_modDev fun _ => rfl
  · rfl

theorem flags_step {o : NicOp} (ho : Plain o) : flags (step hw o s).2 = flags s := by
  cases o with
  | ring p o => exact flags_ringStep o
  | setMacAddr p m => exact flags_modDev fun _ => rfl
  | xzallocDev => exact ho.elim
  | setStarted p v => exact ho.elim
  | modPoller f => exact ho.elim
  | netAddDevice p => exact ho.elim
  | _ => rfl

theorem flags_stable (b : Flags) : Stable (nic hw) fun s => flags s = b := by
  rintro s _ ⟨h, b', rfl⟩ hs
  exact hs

/-- A program of such accesses. -/
theorem wp_plain {q : Nic α} (hq : q.Uses Plain) {b : Flags} (h : flags s = b) :
    wp (nic hw) .free q (fun _ s' => flags s' = b) s :=
  wp_of_uses (P := Plain) (flags_stable b) (fun _ _ => trivial) (fun _ _ _ _ => trivial)
    (fun _ _ ho hs => (flags_step ho).trans hs) hq h

theorem plain_onRing (q : AllocDrv α) : (onRing p q).Uses Plain :=
  uses_subst (h := fun o => call (S := nicSig) (.ring p o)) (fun _ _ => uses_call trivial) (uses_true q)

theorem plain_onNic (q : Soc α) : (onNic q).Uses Plain :=
  uses_subst (h := fun o => call (S := nicSig) (.soc o)) (fun _ _ => uses_call trivial) (uses_true q)

theorem plain_initChip : (initChip p).Uses Plain := by
  refine uses_bind (uses_bind (uses_call trivial) fun _ => trivial) fun m =>
    uses_bind (uses_call trivial) fun _ => ?_
  exact uses_bind (plain_onNic _) fun _ => uses_bind (plain_onNic _) fun _ =>
    uses_bind (plain_onNic _) fun _ => uses_bind (plain_onNic _) fun _ => trivial

theorem plain_initDev {m : UipEthAddr} : (initDev c p m).Uses Plain :=
  uses_bind (plain_onNic _) fun _ => uses_bind (plain_onNic _) fun _ =>
    uses_bind (plain_onRing _) fun _ => uses_bind (plain_onNic _) fun _ => plain_onNic _

/-! ### The poller -/

/-- A device more. -/
def Flags.alloc (b : Flags) : Flags := { b with started := b.started ++ [0] }

/-- And registered. -/
def Flags.add (b : Flags) : Flags :=
  { b.alloc with netDevices := b.netDevices ++ [b.started.length] }

theorem wp_ethInit {b : Flags} (h : flags s = b) : wp (nic hw) .free (ipq4019EthInit c)
    (fun r s' => r ≠ 0 ∧ flags s' = b.alloc ∨ r = 0 ∧ flags s' = b.add) s := by
  change wp _ _ (.op (S := nicSig) .xzallocDev fun p => initChip p >>= _) _ _
  refine wp_op (flags_stable b) (fun _ _ => trivial) (fun _ _ => trivial) (fun t ht _ => ?_) h
  have halloc : flags (step hw .xzallocDev t).2 = b.alloc := by
    rw [← ht]
    simp [flags, step, Flags.alloc, zeroedDev]
  have hlen : t.devs.length = b.started.length := by
    rw [← ht]
    simp [flags]
  refine wp_bind (wp_mono (fun m t₁ h₁ => ?_) (wp_plain plain_initChip halloc))
  refine wp_bind (wp_mono (fun r t₂ h₂ => ?_) (wp_plain (plain_onRing _) h₁))
  by_cases hr : r ≠ 0
  · rw [if_pos hr]
    exact wp_ret (flags_stable _) (fun _ _ => trivial) (fun _ h => Or.inl ⟨by decide, h⟩) h₂
  · rw [if_neg hr]
    refine wp_bind (wp_mono (fun _ t₃ h₃ => ?_) (wp_plain plain_initDev h₂))
    refine wp_op (flags_stable _) (fun _ _ => trivial) (fun _ _ => trivial) (fun t₄ h₄ _ => ?_) h₃
    refine wp_ret (flags_stable b.add) (fun _ _ => trivial) (fun _ h => Or.inr ⟨rfl, h⟩) ?_
    change flags { t₄ with netDevices := t₄.netDevices ++ [t.devs.length] } = _
    rw [hlen]
    unfold flags at h₄ ⊢
    injection h₄ with hp hs hn
    simp only [hp, hs, hn]
    rfl

/-- **What a call of the poller does** to the flags. -/
inductive Polls (b : Flags) : Option Int → Flags → Prop
  | idle (h : b.poller.initted ≠ 0 ∨ b.poller.gaveUp ≠ 0) : Polls b none b
  | giveUp (h : ¬(b.poller.initted ≠ 0 ∨ b.poller.gaveUp ≠ 0))
      (hr : b.poller.retryCount ≥ ipq4019EthInitMaxRetries) :
      Polls b none { b with poller := { b.poller with gaveUp := 1 } }
  | fail (h : ¬(b.poller.initted ≠ 0 ∨ b.poller.gaveUp ≠ 0))
      (hr : ¬b.poller.retryCount ≥ ipq4019EthInitMaxRetries) {r : Int} (h0 : r ≠ 0) :
      Polls b (some r)
        { b.alloc with poller := { b.poller with retryCount := b.poller.retryCount + 1 } }
  | succeed (h : ¬(b.poller.initted ≠ 0 ∨ b.poller.gaveUp ≠ 0))
      (hr : ¬b.poller.retryCount ≥ ipq4019EthInitMaxRetries) :
      Polls b (some 0)
        { b.add with poller := ⟨1, b.poller.retryCount + 1, b.poller.gaveUp⟩ }

/-- A change of the poller's flags. -/
theorem wp_modPoller {f : Poller → Poller} {b : Flags} {k : Unit → Nic α} {Q : α → NicState γ → Prop}
    (h : flags s = b) (hk : ∀ t, flags t = { b with poller := f b.poller } → wp (nic hw) .free (k ()) Q t) :
    wp (nic hw) .free (.op (S := nicSig) (.modPoller f) k) Q s := by
  refine wp_op (flags_stable b) (fun _ _ => trivial) (fun _ _ => trivial) (fun t ht _ => ?_) h
  refine hk _ ?_
  rw [← ht]
  rfl

theorem wp_netPoller {b : Flags} (h : flags s = b) :
    wp (nic hw) .free (ipq4019NetPoller c) (fun r s' => Polls b r (flags s')) s := by
  change wp _ _ (.op (S := nicSig) .getPoller fun s => if s.initted ≠ 0 ∨ s.gaveUp ≠ 0 then _ else _) _ _
  refine wp_op (flags_stable b) (fun _ _ => trivial) (fun _ _ => trivial) (fun t ht _ => ?_) h
  have hp : ((nic hw).step .getPoller t).1 = b.poller := congrArg Flags.poller ht
  change flags ((nic hw).step .getPoller t).2 = b at ht
  rw [hp]
  have hret : ∀ {b' : Flags} {r : Option Int} {t' : NicState γ}, flags t' = b' → Polls b r b' →
      wp (nic hw) .free (.ret r) (fun r s' => Polls b r (flags s')) t' := fun ht' hpoll =>
    wp_ret (flags_stable _) (fun _ _ => trivial) (fun u hu => hu.symm ▸ hpoll) ht'
  by_cases hidle : b.poller.initted ≠ 0 ∨ b.poller.gaveUp ≠ 0
  · rw [if_pos hidle]
    exact hret ht (.idle hidle)
  · rw [if_neg hidle]
    by_cases hr : b.poller.retryCount ≥ ipq4019EthInitMaxRetries
    · rw [if_pos hr]
      exact wp_modPoller ht fun t₁ h₁ => hret h₁ (.giveUp hidle hr)
    · rw [if_neg hr]
      refine wp_modPoller ht fun t₁ h₁ => ?_
      change wp _ _ (ipq4019EthInit c >>= _) _ _
      refine wp_bind (wp_mono ?_ (wp_ethInit h₁))
      rintro r t₂ (⟨h0, h₂⟩ | ⟨rfl, h₂⟩)
      · simp only [h0, if_false]
        exact hret h₂ (.fail hidle hr h0)
      · simp only [if_true]
        exact wp_modPoller h₂ fun t₃ h₃ => hret h₃ (.succeed hidle hr)

/-! ### Ready -/

/-- The device is started. -/
def Flags.start (b : Flags) (p : ℕ) : Flags := { b with started := b.started.modify p fun _ => 1 }

theorem map_started_set (ds : List EthDev) (p : ℕ) (v : Int) :
    (ds.modify p fun d => { d with started := v }).map (·.started) =
      (ds.map (·.started)).modify p fun _ => v := by
  refine List.ext_getElem (by simp) fun i h₁ h₂ => ?_
  simp only [List.getElem_map, List.getElem_modify]
  split
  · rfl
  · rfl

theorem flags_setStarted (hw : (o : AllocOp) → γ → o.Res × γ) :
    flags (step hw (.setStarted p 1) s).2 = (flags s).start p := by
  change (⟨s.poller, List.map _ (s.devs.modify p _), s.netDevices⟩ : Flags) = _
  rw [map_started_set]
  rfl

theorem wp_ethStart {b : Flags} (h : flags s = b) : wp (nic hw) .free (ipq4019EthStart c p)
    (fun r s' => r = 0 ∧ flags s' = b.start p) s := by
  unfold ipq4019EthStart
  refine wp_bind (wp_mono (fun _ t₁ h₁ => ?_) (wp_plain (plain_onRing _) h))
  refine wp_bind (wp_mono (fun _ t₂ h₂ => ?_) (wp_plain (plain_onNic _) h₁))
  refine wp_bind (wp_mono (fun _ t₃ h₃ => ?_) (wp_plain (plain_onNic _) h₂))
  refine wp_op (flags_stable b) (fun _ _ => trivial) (fun _ _ => trivial) (fun t₄ h₄ _ => ?_) h₃
  refine wp_ret (flags_stable (b.start p)) (fun _ _ => trivial) (fun _ h => ⟨rfl, h⟩) ?_
  rw [← h₄]
  exact flags_setStarted hw

/-- The accesses that `ipq4019_phy_check_link` makes itself. -/
def Checks : NicOp → Prop
  | .getStarted _ => True
  | .soc (.bus _) => True
  | _ => False

/-- No transaction. -/
def NoBus : NicOp → Prop
  | .soc (.bus _) => False
  | _ => True

theorem devs_step {o : NicOp} (ho : Checks o) (s : NicState γ) : (step hw o s).2.devs = s.devs := by
  cases o with
  | getStarted p => rfl
  | soc o => rfl
  | _ => exact ho.elim

theorem checks_checkPhys : ∀ (is : List ℕ) (v : Int), (onNic (onSoc (checkPhys is v))).Uses Checks
  | [], _ => trivial
  | _ :: is, _ => ⟨trivial, fun _ => checks_checkPhys is _⟩

theorem devs_stable (ds : List EthDev) : Stable (nic hw) fun s => s.devs = ds := by
  rintro s _ ⟨h, b', rfl⟩ hs
  exact hs

/-- A program of such accesses leaves the devices alone. -/
theorem devs_of_checks {q : Nic α} (hq : q.Uses Checks) {a : α}
    (h : Run (nic hw) s q l s' (.ret a)) : s'.devs = s.devs := by
  have hwp : wp (nic hw) .free q (fun _ t => t.devs = s.devs) s :=
    wp_of_uses (P := Checks) (devs_stable _) (fun _ _ => trivial) (fun _ _ _ _ => trivial)
      (fun _ t ho ht => (devs_step ho t).trans ht) hq rfl
  have hend := wp_run_free hwp h
  exact hend

theorem checks_checkLink : (checkLink none).Uses Checks :=
  uses_bind (checks_checkPhys _ _) fun _ => trivial

/-- A read of a PHY shows a link exactly if it succeeds and the bit is set. -/
theorem faulty_link (i : ℕ) (x : Phys × Fate) :
    (faulty (.read (UInt8.ofNat i) qca807xPhySpecific 0) x).1.2 &&& qca807xPhySpecificLink ≠ 0 ↔
      ∃ v, (faulty (.read (UInt8.ofNat i) qca807xPhySpecific 0) x).1 = ((0, v) : Int × UInt16) ∧
        v &&& qca807xPhySpecificLink ≠ 0 := by
  obtain ⟨b, f⟩ := x
  by_cases hok : f = .ok
  · subst hok
    constructor
    · exact fun h => ⟨_, rfl, h⟩
    · rintro ⟨v, hv, h⟩
      rw [hv]
      exact h
  · have hfail : (faulty (.read (UInt8.ofNat i) qca807xPhySpecific 0) (b, f)).1 =
        ((-1, 0) : Int × UInt16) := by
      cases f with
      | ok => exact absurd rfl hok
      | late => rfl
      | lost => rfl
    rw [hfail]
    constructor
    · intro h
      exact absurd (by decide : (0 : UInt16) &&& qca807xPhySpecificLink = 0) h
    · rintro ⟨v, hv, -⟩
      have h1 : (-1 : Int) = 0 := congrArg Prod.fst hv
      omega

/-- **The loop over the PHYs.** -/
theorem run_checkPhys : ∀ {is : List ℕ} {v w : Int} {s s' : NicState γ} {l : List (NicOp × NicState γ)},
    (∀ i ∈ is, i < ipq4019NumPortPhy) → (v = 0 ∨ v = 1) →
    Run (nic hw) s (onNic (onSoc (checkPhys is v))) l s' (.ret w) →
      (w = 0 ∨ w = 1) ∧ (w = 1 ↔ v = 1 ∨ ∃ y ∈ l, Sees y)
  | [], v, w, _, _, _, _, hv, h => by
    obtain ⟨hw, rfl, -⟩ := h.ret_inv
    injection hw with hw
    subst hw
    exact ⟨hv, by simp⟩
  | i :: is, v, w, s, s', l, his, hv, h => by
    obtain ⟨hi, his⟩ := List.forall_mem_cons.mp his
    rcases Run.op_inv h with ⟨hq, -⟩ | ⟨t, l', -, rfl, h'⟩
    · cases hq
    · have hlink := faulty_link i t.board.phys
      generalize hr : (faulty (.read (UInt8.ofNat i) qca807xPhySpecific 0) t.board.phys).1 = r at hlink
      have h'' : Run (nic hw) _ (onNic (onSoc (checkPhys is
          (if r.2 &&& qca807xPhySpecificLink ≠ 0 then 1 else v)))) l' s' (.ret w) := hr ▸ h'
      have hsees : Sees (.soc (.bus (.read (UInt8.ofNat i) qca807xPhySpecific 0)), t) ↔
          r.2 &&& qca807xPhySpecificLink ≠ 0 := by
        rw [hlink]
        constructor
        · rintro ⟨j, -, ho, hsucc⟩
          simp only [NicOp.soc.injEq, SocOp.bus.injEq, BusOp.read.injEq] at ho
          rw [← hr, ho.1]
          exact hsucc
        · rintro hsucc
          refine ⟨i, hi, rfl, ?_⟩
          rw [hr]
          exact hsucc
      by_cases hbit : r.2 &&& qca807xPhySpecificLink ≠ 0
      · rw [if_pos hbit] at h''
        obtain ⟨hflag, hone⟩ := run_checkPhys his (Or.inr rfl) h''
        refine ⟨hflag, ?_⟩
        rw [hone]
        exact ⟨fun _ => Or.inr ⟨_, List.mem_cons_self, hsees.mpr hbit⟩, fun _ => Or.inl rfl⟩
      · rw [if_neg hbit] at h''
        obtain ⟨hflag, hone⟩ := run_checkPhys his hv h''
        refine ⟨hflag, ?_⟩
        simp only [hone, List.mem_cons, exists_eq_or_imp, hsees, or_iff_right hbit]

/-- What a call of `ipq4019_phy_check_link` with these flags before it does. -/
structure Readies (b : Flags) (p : ℕ) (x : NicRec γ) (out : ReadyOut) : Prop where
  start : out.start ≠ none ↔ b.started.getD p 0 = 0
  flags : flags x.after = if b.started.getD p 0 = 0 then b.start p else b
  untouched : out.start = none → RingsUntouched x
  link : (out.ready = 0 ∨ out.ready = 1) ∧ (out.ready = 1 ↔ ∃ y ∈ x.hist, Sees y)

/-- The part after the start. -/
theorem run_checkLink {start : Option Int} {out : ReadyOut} {b : Flags} (hb : flags s = b)
    (h : Run (nic hw) s (checkLink start) l s' (.ret out)) : out.start = start ∧ flags s' = b ∧
      (∀ y ∈ l, Checks y.1) ∧
      (out.ready = 0 ∨ out.ready = 1) ∧ (out.ready = 1 ↔ ∃ y ∈ l, Sees y) := by
  have hplain : (checkLink start).Uses Plain := uses_bind (plain_onNic _) fun _ => trivial
  have hflags := wp_run_free (wp_plain hplain hb) h
  obtain ⟨l₁, l₂, s₁, v, h₁, h₂, rfl⟩ := Run.bind_inv h
  obtain ⟨hout, rfl, -⟩ := h₂.ret_inv
  injection hout with hout
  subst hout
  rw [List.append_nil]
  obtain ⟨hv, hlink⟩ := run_checkPhys (fun i hi => List.mem_range.mp hi) (Or.inl rfl) h₁
  refine ⟨rfl, hflags, (h₁.uses (checks_checkPhys _ _)).2, hv, ?_⟩
  rw [hlink]
  simp

theorem noBus_onRing (q : AllocDrv α) : (onRing p q).Uses NoBus :=
  uses_subst (h := fun o => call (S := nicSig) (.ring p o)) (fun _ _ => uses_call trivial) (uses_true q)

theorem noBus_onNic {q : Soc α} (hq : q.Uses fun o : SocOp => ∀ b, o ≠ .bus b) : (onNic q).Uses NoBus := by
  refine uses_subst (h := fun o => call (S := nicSig) (.soc o)) (fun o ho => uses_call ?_) hq
  cases o with
  | bus b => exact absurd rfl (ho b)
  | _ => trivial

theorem noBus_ethStart : (ipq4019EthStart c p).Uses NoBus := by
  have hstart : (edmaStartRxTx ipq4019EdmaBase).Uses fun o : SocOp => ∀ b, o ≠ .bus b := by
    unfold edmaStartRxTx
    exact uses_bind (uses_call (by simp)) fun _ => uses_bind (uses_call (by simp)) fun _ =>
      uses_bind (uses_call (by simp)) fun _ => uses_call (by simp)
  have henable : (Ess.Driver.essSwitchEnableLookup Ess.Driver.ipq4019EssBase).Uses
      fun o : SocOp => ∀ b, o ≠ .bus b := by
    unfold Ess.Driver.essSwitchEnableLookup
    exact uses_bind (uses_forM fun i _ => uses_bind (uses_call (by simp)) fun _ =>
      uses_call (by simp)) fun _ => uses_call (by simp)
  exact uses_bind (noBus_onRing _) fun _ => uses_bind (noBus_onNic hstart) fun _ =>
    uses_bind (noBus_onNic henable) fun _ => ⟨trivial, fun _ => trivial⟩

theorem not_sees_of_noBus {y : NicOp × NicState γ} (h : NoBus y.1) : ¬Sees y := by
  rintro ⟨i, -, ho, -⟩
  rw [ho] at h
  exact h

theorem run_phyCheckLink {out : ReadyOut}
    (h : Run (nic hw) s (ipq4019PhyCheckLink c p) l s' (.ret out)) :
    Readies (flags s) p ⟨.ready p, s, l, out, s'⟩ out := by
  rcases Run.op_inv h with ⟨hq, -⟩ | ⟨t, l', he, rfl, h'⟩
  · cases hq
  · have ht : flags t = flags s := (flags_stable _).env he rfl
    have hstarted : (t.dev p).started = (flags s).started.getD p 0 := by
      rw [← ht]
      simp only [flags, NicState.dev, List.getD_eq_getElem?_getD, List.getElem?_map]
      cases t.devs[p]? with
      | none => rfl
      | some d => rfl
    have hrun : Run (nic hw) t (if (t.dev p).started = 0 then ipq4019EthStart c p >>= fun r =>
        checkLink (some r) else checkLink none) l' s' (.ret out) := h'
    have hnot : ¬Sees (NicOp.getStarted p, t) := not_sees_of_noBus trivial
    rw [hstarted] at hrun
    by_cases h0 : (flags s).started.getD p 0 = 0
    · rw [if_pos h0] at hrun
      obtain ⟨l₁, l₂, s₁, r, h₁, h₂, rfl⟩ := Run.bind_inv hrun
      obtain ⟨rfl, hs₁⟩ := wp_run_free (wp_ethStart ht) h₁
      obtain ⟨hstart, hflags, -, hv, hlink⟩ := run_checkLink hs₁ h₂
      have hl₁ : ∀ y ∈ l₁, ¬Sees y := fun y hy =>
        not_sees_of_noBus ((h₁.uses noBus_ethStart).2 y hy)
      refine ⟨⟨fun _ => h0, fun _ => by simp [hstart]⟩, hflags.trans (if_pos h0).symm,
        fun hn => absurd (hstart.symm.trans hn) (by simp), hv, ?_⟩
      rw [hlink]
      simp only [List.mem_cons, List.mem_append]
      constructor
      · rintro ⟨y, hy, hsee⟩
        exact ⟨y, Or.inr (Or.inr hy), hsee⟩
      · rintro ⟨y, rfl | hy | hy, hsee⟩
        · exact absurd hsee hnot
        · exact absurd hsee (hl₁ y hy)
        · exact ⟨y, hy, hsee⟩
    · rw [if_neg h0] at hrun
      obtain ⟨hstart, hflags, hchecks, hv, hlink⟩ := run_checkLink ht hrun
      refine ⟨⟨fun hn => absurd hstart hn, fun h => absurd h h0⟩, hflags.trans (if_neg h0).symm,
        fun _ => ⟨?_, ?_⟩, hv, ?_⟩
      · intro y hy p' o ho
        have hall : ∀ y ∈ (NicOp.getStarted p, t) :: l', Checks y.1 :=
          List.forall_mem_cons.mpr ⟨trivial, hchecks⟩
        have hy' := hall y hy
        rw [ho] at hy'
        exact hy'
      · exact (devs_of_checks checks_checkLink hrun).trans ((devs_stable _).env he rfl)
      · rw [hlink]
        simp only [List.mem_cons]
        constructor
        · rintro ⟨y, hy, hsee⟩
          exact ⟨y, Or.inr hy, hsee⟩
        · rintro ⟨y, rfl | hy, hsee⟩
          · exact absurd hsee hnot
          · exact ⟨y, hy, hsee⟩

/-! ### The run -/

/-- **Between two calls**: the poller has tried so often, and one device is registered if and only if
it succeeded. -/
structure Inv (b : Flags) : Prop where
  retry : 0 ≤ b.poller.retryCount ∧ b.poller.retryCount ≤ ipq4019EthInitMaxRetries
  none : b.poller.initted = 0 → b.netDevices = []
  some : b.poller.initted ≠ 0 → b.netDevices.length = 1
  lt : ∀ p ∈ b.netDevices, p < b.started.length

variable {b b' : Flags}

theorem Inv.length (h : Inv b) : b.netDevices.length ≤ 1 := by
  by_cases h0 : b.poller.initted = 0
  · simp [h.none h0]
  · exact (h.some h0).le

theorem Inv.poll {out : Option Int} (hb : Inv b) (h : Polls b out b') : Inv b' := by
  have hretry := hb.retry
  unfold ipq4019EthInitMaxRetries at hretry
  have hlt : ∀ p ∈ b.netDevices, p < b.alloc.started.length := by
    intro p hp
    have h := hb.lt p hp
    simp only [Flags.alloc, List.length_append, List.length_singleton]
    omega
  cases h with
  | idle h => exact hb
  | giveUp h hr => exact ⟨hb.retry, hb.none, hb.some, hb.lt⟩
  | fail h hr h0 =>
    refine ⟨?_, hb.none, hb.some, hlt⟩
    unfold ipq4019EthInitMaxRetries at hr ⊢
    dsimp only
    omega
  | succeed h hr =>
    have h0 : b.poller.initted = 0 := by
      by_contra hn
      exact h (Or.inl hn)
    refine ⟨?_, fun h1 => absurd h1 (by simp), fun _ => ?_, ?_⟩
    · unfold ipq4019EthInitMaxRetries at hr ⊢
      dsimp only
      omega
    · simp [Flags.add, hb.none h0]
    · intro p hp
      simp only [Flags.add, Flags.alloc, hb.none h0, List.nil_append, List.mem_singleton] at hp ⊢
      rw [hp, List.length_append, List.length_singleton]
      omega

/-- What a call does to the flags. -/
def Does (b : Flags) (x : NicRec γ) : Prop :=
  match x with
  | ⟨.poll, _, _, out, s'⟩ => Polls b out (flags s')
  | ⟨.ready p, s, l, out, s'⟩ => Readies b p ⟨.ready p, s, l, out, s'⟩ out
  | ⟨_, _, _, _, s'⟩ => flags s' = b

theorem does_run {x : NicCall} {out : x.Out} (h : Run (nic hw) s (x.prog c) l s' (.ret out)) :
    Does (flags s) ⟨x, s, l, out, s'⟩ := by
  cases x with
  | poll =>
    have hend := wp_run_free (wp_netPoller (s := s) rfl) h
    exact hend
  | ready p => exact run_phyCheckLink h
  | send p packet length =>
    have hend := wp_run_free (wp_plain (s := s) (plain_onRing _) rfl) h
    exact hend
  | recv p maxlen =>
    have hend := wp_run_free (wp_plain (s := s) (plain_onRing _) rfl) h
    exact hend

variable {x : NicRec γ} {cs : List (NicRec γ)}

theorem Does.flags_ready {out : ReadyOut}
    (h : Does b (⟨.ready p, s, l, out, s'⟩ : NicRec γ)) :
    flags s' = if b.started.getD p 0 = 0 then b.start p else b :=
  Readies.flags h

theorem Inv.call (hb : Inv b) (h : Does b x) : Inv (flags x.after) := by
  obtain ⟨call, s, l, out, s'⟩ := x
  cases call with
  | poll => exact hb.poll h
  | ready p =>
    change Inv (flags s')
    rw [h.flags_ready]
    split
    · refine ⟨hb.retry, hb.none, hb.some, fun q hq => ?_⟩
      rw [Flags.start, List.length_modify]
      exact hb.lt q hq
    · exact hb
  | send p packet length => exact (h : flags s' = b).symm ▸ hb
  | recv p maxlen => exact (h : flags s' = b).symm ▸ hb

/-- How often `ipq4019_eth_init` is called in a call. -/
def attempts (r : Option Int) : Int := if r.isSome then 1 else 0

/-- What a call does to the number of attempts. -/
structure Tries (b b' : Flags) (r : Option Int) : Prop where
  retry : b'.poller.retryCount = b.poller.retryCount + attempts r
  attempt : r ≠ none → b.poller.initted = 0
  shut : b.poller.initted ≠ 0 ∨ r = some 0 → b'.poller.initted ≠ 0

theorem Tries.quiet (h : b'.poller = b.poller) : Tries b b' none := by
  refine ⟨?_, fun hn => absurd rfl hn, ?_⟩
  · rw [h]
    exact (Int.add_zero _).symm
  · rintro (hn | hn)
    · rwa [h]
    · cases hn

theorem Polls.tries {out : Option Int} (h : Polls b out b') : Tries b b' out := by
  cases h with
  | idle hn => exact .quiet rfl
  | giveUp hn hr =>
    refine ⟨(Int.add_zero _).symm, fun hn => absurd rfl hn, ?_⟩
    rintro (h1 | h1)
    · exact h1
    · cases h1
  | fail hn hr h0 =>
    have hopen : b.poller.initted = 0 := by
      by_contra h1
      exact hn (Or.inl h1)
    refine ⟨rfl, fun _ => hopen, ?_⟩
    rintro (h1 | h1)
    · exact absurd hopen h1
    · exact absurd (Option.some.inj h1) h0
  | succeed hn hr =>
    have hopen : b.poller.initted = 0 := by
      by_contra h1
      exact hn (Or.inl h1)
    exact ⟨rfl, fun _ => hopen, fun _ => by simp⟩

theorem Does.tries (h : Does b x) : Tries b (flags x.after) (initResult x) := by
  obtain ⟨call, s, l, out, s'⟩ := x
  cases call with
  | poll => exact Polls.tries h
  | ready p =>
    refine Tries.quiet ?_
    change (flags s').poller = b.poller
    rw [h.flags_ready]
    split
    · rfl
    · rfl
  | send p packet length => exact .quiet (congrArg Flags.poller (h : flags s' = b))
  | recv p maxlen => exact .quiet (congrArg Flags.poller (h : flags s' = b))

/-- What a call does to the flag of a device. -/
theorem started_call (hb : Inv b) (h : Does b x) (hreg : ∀ q, x.call = .ready q → q ∈ b.netDevices)
    (p : ℕ) : (flags x.after).started.getD p 0 = 0 ↔
      b.started.getD p 0 = 0 ∧ x.call ≠ .ready p := by
  obtain ⟨call, s, l, out, s'⟩ := x
  cases call with
  | poll =>
    have hpoll : Polls b out (flags s') := h
    have halloc : (b.started ++ [0]).getD p 0 = b.started.getD p 0 := by
      simp only [List.getD_eq_getElem?_getD, List.getElem?_append, List.getElem?_singleton]
      by_cases hp : p < b.started.length
      · simp [hp]
      · rw [if_neg hp, List.getElem?_eq_none (by omega)]
        split
        · rfl
        · rfl
    have hpoller : (flags s').started.getD p 0 = b.started.getD p 0 := by
      generalize flags s' = b' at hpoll ⊢
      cases hpoll with
      | idle h => rfl
      | giveUp h hr => rfl
      | fail h hr h0 => exact halloc
      | succeed h hr => exact halloc
    change (flags s').started.getD p 0 = 0 ↔ _
    rw [hpoller]
    simp
  | ready q =>
    have hq := hb.lt q (hreg q rfl)
    change (flags s').started.getD p 0 = 0 ↔ _
    rw [h.flags_ready]
    by_cases h0 : b.started.getD q 0 = 0
    · rw [if_pos h0]
      simp only [Flags.start, List.getD_eq_getElem?_getD, List.getElem?_modify] at h0 ⊢
      by_cases hpq : q = p
      · subst hpq
        simp [hq]
      · simp [hpq]
    · rw [if_neg h0]
      constructor
      · intro hp
        refine ⟨hp, fun hq => ?_⟩
        injection hq with hq
        exact h0 (hq ▸ hp)
      · exact And.left
  | send q packet length =>
    have hf : flags s' = b := h
    simp [hf]
  | recv q maxlen =>
    have hf : flags s' = b := h
    simp [hf]

/-- A run of calls on registered devices, from between two calls on. -/
abbrev NicRun (hw : (o : AllocOp) → γ → o.Res × γ) (c : Platform) (s : NicState γ)
    (cs : List (NicRec γ)) (s' : NicState γ) : Prop :=
  CallRun (nic hw) (NicCall.prog c) s cs s'

theorem flags_env {t : NicState γ} (he : (nic hw).env s t) : flags t = flags s :=
  flags_stable _ _ _ he rfl

/-- After a successful attempt, or any time later, there is none. -/
theorem run_shut (h : NicRun hw c s cs s') (h0 : (flags s).poller.initted ≠ 0) :
    ∀ x ∈ cs, initResult x = none := by
  induction h with
  | nil => simp
  | env he _ ih => exact ih (by rwa [flags_env he])
  | call hr _ ih =>
    have ht := (does_run hr).tries
    refine List.forall_mem_cons.mpr ⟨?_, ih (ht.shut (Or.inl h0))⟩
    by_contra hn
    exact h0 (ht.attempt hn)

theorem run_never_again (h : NicRun hw c s cs s') :
    cs.Pairwise fun x y => initResult x = some 0 → initResult y = none := by
  induction h with
  | nil => exact .nil
  | env _ _ ih => exact ih
  | call hr h ih =>
    refine List.pairwise_cons.mpr ⟨fun y hy hx => ?_, ih⟩
    exact run_shut h ((does_run hr).tries.shut (Or.inr hx)) y hy

/-- The attempts so far, and those to come. -/
theorem run_attempts (h : NicRun hw c s cs s') (hb : Inv (flags s)) :
    (cs.countP fun x => (initResult x).isSome) + (flags s).poller.retryCount ≤ 3 := by
  induction h with
  | nil => simpa [ipq4019EthInitMaxRetries] using hb.retry.2
  | env he _ ih =>
    rw [← flags_env he]
    exact ih (by rwa [flags_env he])
  | @call s s₁ s₂ x l out cs hr _ ih =>
    have ht := (does_run hr).tries.retry
    have hrest := ih (hb.call (does_run hr))
    rw [List.countP_cons]
    dsimp only at ht
    rw [ht] at hrest
    unfold attempts at hrest
    split at hrest
    · rename_i hsome
      rw [if_pos hsome]
      push_cast
      omega
    · rename_i hsome
      rw [if_neg hsome]
      push_cast
      omega

theorem run_one_device (h : NicRun hw c s cs s') (hb : Inv (flags s)) :
    ∀ x ∈ cs, x.after.netDevices.length ≤ 1 := by
  induction h with
  | nil => simp
  | env he _ ih => exact ih (by rwa [flags_env he])
  | call hr _ ih =>
    have hb' := hb.call (does_run hr)
    exact List.forall_mem_cons.mpr ⟨hb'.length, ih hb'⟩

/-- A device is started in the first call that finds its flag at 0. -/
theorem run_start (h : NicRun hw c s cs s') (hb : Inv (flags s)) (hreg : ∀ x ∈ cs, OnRegistered x)
    {pre post : List (NicRec γ)} (hcs : cs = pre ++ x :: post) (hx : x.call = .ready p) :
    startResult x ≠ none ↔ (flags s).started.getD p 0 = 0 ∧ ∀ y ∈ pre, y.call ≠ .ready p := by
  induction h generalizing pre with
  | nil => simp at hcs
  | env he _ ih =>
    rw [← flags_env he]
    exact ih (by rwa [flags_env he]) hreg hcs
  | @call s s₁ s₂ x' l out cs hr _ ih =>
    obtain ⟨hx', hreg⟩ := List.forall_mem_cons.mp hreg
    have hdoes := does_run hr
    cases pre with
    | nil =>
      obtain ⟨rfl, rfl⟩ := List.cons.inj hcs
      dsimp only at hx
      subst hx
      have hready : Readies (flags s) p ⟨.ready p, s, l, out, s₁⟩ out := hdoes
      change out.start ≠ none ↔ _
      rw [hready.start]
      simp
    | cons y pre =>
      obtain ⟨rfl, htail⟩ := List.cons.inj hcs
      rw [ih (hb.call hdoes) hreg htail, started_call hb hdoes ?_ p, List.forall_mem_cons, and_assoc]
      rintro q rfl
      exact hx'

/-- What holds of each call by itself. -/
theorem run_does (h : NicRun hw c s cs s') : ∀ x ∈ cs, ∃ b, Does b x := by
  refine (CallRun.forall (A := fun b s => flags s = b) (H := fun _ => True)
    (fun b => flags_stable b) (fun b s x l out s' hs hr _ => ?_) h (fun _ _ => trivial) rfl).1
  exact ⟨⟨_, does_run hr⟩, _, rfl⟩

theorem Does.untouched (h : Does b x) (hready : readyFlag x ≠ none) (hn : startResult x = none) :
    RingsUntouched x := by
  obtain ⟨call, s, l, out, s'⟩ := x
  cases call with
  | ready p => exact Readies.untouched h hn
  | _ => exact absurd rfl hready

theorem Does.link (h : Does b x) {v : Int} (hready : readyFlag x = some v) :
    (v = 0 ∨ v = 1) ∧ (v = 1 ↔ ∃ y ∈ x.hist, Sees y) := by
  obtain ⟨call, s, l, out, s'⟩ := x
  cases call with
  | ready p =>
    obtain rfl := Option.some.inj hready
    exact Readies.link h
  | _ => cases hready

theorem Fresh.inv (h : Fresh s) : Inv (flags s) := by
  unfold flags
  rw [h.poller, h.devs, h.netDevices]
  exact ⟨by decide, fun _ => rfl, fun hn => absurd rfl hn, by simp⟩

/-- **The life cycle of the driver**, in every run from the start of the payload, whatever becomes of
the attempts to bring the device up, of the transactions and of the links. -/
theorem life_cycle (hw : (o : AllocOp) → γ → o.Res × γ) (c : Platform) (s s' : NicState γ)
    (cs : List (NicRec γ)) (h : NicRun hw c s cs s') (hs : Fresh s)
    (hreg : ∀ x ∈ cs, OnRegistered x) : LifeCycle cs := by
  refine ⟨?_, run_never_again h, run_one_device h hs.inv, ?_, ?_, ?_⟩
  · have hcount := run_attempts h hs.inv
    have h0 : (flags s).poller.retryCount = 0 := congrArg Poller.retryCount hs.poller
    rw [h0] at hcount
    omega
  · intro pre x post p hcs hx
    have h0 : (flags s).started.getD p 0 = 0 := by
      simp [flags, hs.devs]
    rw [run_start h hs.inv hreg hcs hx]
    exact and_iff_right h0
  · intro x hx
    obtain ⟨b, hb⟩ := run_does h x hx
    exact hb.untouched
  · intro x hx v
    obtain ⟨b, hb⟩ := run_does h x hx
    exact hb.link

/-- An allocator that hands out one block after another, beside registers that read 0. -/
def blocks : (o : AllocOp) → UInt32 → o.Res × UInt32
  | .xmemalign _ size, a => (a, a + UInt32.ofNat size)
  | .clear _ _, a => ((), a)
  | .setNetRxPacket _ _, a => ((), a)
  | .edma (.readl _), a => ((0 : UInt32), a)
  | .edma .getDev, a => (zeroedDev.rings, a)
  | .edma (.netRxPacket _), a => ((0 : UInt32), a)
  | .edma (.load16 _), a => ((0 : UInt16), a)
  | .edma (.memcpy _ n), a => (List.replicate n (0 : UInt8), a)
  | .edma (.writel _ _), a => ((), a)
  | .edma (.modDev _), a => ((), a)
  | .edma (.storeTpd _ _), a => ((), a)
  | .edma (.storeRfd _ _), a => ((), a)
  | .edma (.flushRange _ _), a => ((), a)
  | .edma (.invalidateRange _ _), a => ((), a)
  | .edma .dsb, a => ((), a)
  | .edma (.udelay _), a => ((), a)
  | .edma (.txTimeout _), a => ((), a)

/-- A payload that starts, with a link at each port. -/
def startOfPayload : NicState UInt32 where
  poller := ⟨0, 0, 0⟩
  devs := []
  netDevices := []
  sysinfo := Vector.replicate 6 0
  hw := 0x81000000
  board := ⟨fun _ => 0, fun _ => ⟨0, fun _ => 0, fun _ _ => 0, fun _ => qca807xPhySpecificLink⟩, .ok⟩

/-- The poller, and two calls to see whether the device is ready. -/
def pollReadyReady : List (NicRec UInt32) :=
  let x := still (nic blocks) (NicCall.prog .flat) .poll startOfPayload
  let y := still (nic blocks) (NicCall.prog .flat) (.ready 0) x.after
  [x, y, still (nic blocks) (NicCall.prog .flat) (.ready 0) y.after]

theorem pollReadyReady_before : (pollReadyReady.map fun x => x.before.netDevices) = [[], [0], [0]] := by
  decide +kernel

theorem life_cycle_link : LifeCycle pollReadyReady := by
  have hrun : NicRun blocks .flat startOfPayload pollReadyReady _ :=
    (CallRun.still NicCall.poll _).trans
      ((CallRun.still (NicCall.ready 0) _).trans (CallRun.still (NicCall.ready 0) _))
  refine life_cycle blocks .flat startOfPayload _ pollReadyReady hrun ⟨rfl, rfl, rfl⟩ ?_
  have hbefore := pollReadyReady_before
  simp only [pollReadyReady, List.map_cons, List.map_nil, List.cons.injEq, and_true] at hbefore
  obtain ⟨-, hy, hz⟩ := hbefore
  refine List.forall_mem_cons.mpr ⟨trivial, List.forall_mem_cons.mpr ⟨?_, List.forall_mem_cons.mpr
    ⟨?_, by simp⟩⟩⟩
  · show 0 ∈ (still _ _ _ _ : NicRec UInt32).before.netDevices
    rw [hy]
    simp
  · show 0 ∈ (still _ _ _ _ : NicRec UInt32).before.netDevices
    rw [hz]
    simp

end Ipq4019.Eth.Life
