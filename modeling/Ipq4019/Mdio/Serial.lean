import Ipq4019.Lib.Calls
import Ipq4019.Mdio.Line

/-!
# MDIO: transactions are serial and at most once

A call that gives up on its second wait leaves its transaction under way, and the next call finds it
there.  What holds the runs together is that the transactions performed are those started, in order
and without gaps, but for the one in flight (`Inv`).

* `Started`: the state during the second wait of a call.
* `wp_call`: what one call leaves, in three cases.
* `mdio_serial`: the runs of calls.
-/

namespace Ipq4019.Mdio.Serial

open Ipq4019.Lib Ipq4019.Lib.Interleave Ipq4019.Lib.Interleave.Prog
open Ipq4019.Mdio.Driver Ipq4019.Mdio.Controller Ipq4019.Mdio.Call Ipq4019.Mdio.Bank
open Ipq4019.Mdio.Line

variable {β : Type} {acc : Txn → β → UInt32 → β → Prop}

/-- **The discipline**: no register is written while a transaction is in flight. -/
def Alone : MdioOp → Ctl β → Prop
  | .writel _ _, s => s.inflight = none
  | _, _ => True

def serialContract : Contract mdioSig (Ctl β) where
  inv _ := True
  asm _ _ := True
  ok := Alone

/-! ### The calls -/

abbrev MdioCall (β : Type) := Calls.CallRec mdioSig (Ctl β) BusOp.Res

abbrev MdioRun (acc : Txn → β → UInt32 → β → Prop) : Ctl β → List (MdioCall β) → Ctl β → Prop :=
  Calls.CallRun (mdio acc) wireOp

/-- The value of a call. -/
def retOf : (o : BusOp) → o.Res → Int
  | .read _ _ _, r => r.1
  | .write _ _ _, r => r

@[simp] theorem retOf_failed (o : BusOp) : retOf o (failed o) = -1 := by cases o <;> rfl

@[simp] theorem retOf_succeeded (o : BusOp) (v : UInt32) : retOf o (succeeded v o) = 0 := by
  cases o <;> rfl

/-! ### The invariant -/

/-- The transactions performed are those started, in order, but for the one in flight. -/
structure Inv (s : Ctl β) : Prop where
  line : s.done.map Done.flight ++ s.inflight.toList = s.issued
  tags : s.issued.map Flight.tag = List.range s.issued.length

variable {s s' : Ctl β}

theorem Inv.boot (reg : MdioReg → UInt32) (bus : β) (txn : Option Txn) :
    Inv (Ctl.boot reg bus txn) := by
  cases txn with
  | none => exact ⟨rfl, rfl⟩
  | some t => exact ⟨rfl, rfl⟩

theorem Inv.stable : Stable (mdio acc) (Inv : Ctl β → Prop) := by
  rintro s _ ⟨hf, -⟩ ⟨hline, htags⟩
  refine ⟨?_, htags⟩
  rw [hf] at hline
  simpa [Ctl.perform] using hline

theorem Inv.begun (h : Inv s) (h0 : s.inflight = none) (o : BusOp) : Inv (begun o s) := by
  obtain ⟨hline, htags⟩ := h
  rw [h0] at hline
  constructor
  · simpa using hline
  · simp [htags, List.range_succ]

/-- During the second wait of a call that began when `is` had been started. -/
structure Started (o : BusOp) (is : List Flight) (s : Ctl β) : Prop where
  inv : Inv s
  issued : s.issued = is ++ [⟨is.length, txnOf o⟩]
  landed : s.inflight = none → ∃ v, ⟨⟨is.length, txnOf o⟩, v⟩ ∈ s.done ∧
    succeeded (s.reg .dataRead) o = succeeded v o

variable {o : BusOp} {is : List Flight}

theorem Started.stable : Stable (mdio acc) (Started o is : Ctl β → Prop) := by
  intro s s' hs h
  have hinv : Inv s' := Inv.stable s s' hs h.inv
  obtain ⟨hf, -⟩ := hs
  rename_i f v b
  -- the one in flight is the last one started
  have hline := h.inv.line
  rw [hf, h.issued] at hline
  obtain ⟨-, hlast⟩ := List.append_inj' hline rfl
  obtain rfl : f = ⟨is.length, txnOf o⟩ := by simpa using hlast
  refine ⟨hinv, h.issued, fun _ => ⟨v, by simp [Ctl.perform], ?_⟩⟩
  cases o <;> rfl

/-- After a call that began when `is` had been started. -/
inductive CallPost (o : BusOp) (is : List Flight) (out : o.Res) (s : Ctl β) : Prop
  | skipped (h : Inv s) (hi : s.issued = is) (ho : out = failed o)
  | late (h : Inv s) (hi : s.issued = is ++ [⟨is.length, txnOf o⟩]) (ho : out = failed o)
  | ended (v : UInt32) (h : Inv s) (hi : s.issued = is ++ [⟨is.length, txnOf o⟩])
      (hd : ⟨⟨is.length, txnOf o⟩, v⟩ ∈ s.done) (ho : out = succeeded v o)

/-! ### One call -/

theorem lenient_serial : Lenient (serialContract : Contract mdioSig (Ctl β)) where
  inv _ := trivial
  wait o _ ho := by cases o <;> first | exact ho.elim | trivial
  idle o _ h := by cases o <;> first | exact h | trivial

/-- **One call**, from a state in which `is` has been started. -/
theorem wp_call (o : BusOp) (h : Inv s ∧ s.issued = is) :
    wp (mdio acc) serialContract (wireOp o) (CallPost o is) s := by
  refine wp_wireOp lenient_serial (A := fun s => Inv s ∧ s.issued = is) (B := Started o is) ?_
    Started.stable o ?_ ?_ ?_ ?_ h
  · rintro s _ ⟨hf, ha⟩ ⟨hi, hq⟩
    exact ⟨Inv.stable s _ ⟨hf, ha⟩ hi, hq⟩
  · rintro s ⟨hi, hq⟩ -
    exact .skipped hi hq rfl
  · rintro s ⟨hi, rfl⟩ h0
    exact ⟨hi.begun h0 o, by simp, fun hn => by simp at hn⟩
  · rintro s hs -
    exact .late hs.inv hs.issued rfl
  · intro s hs h0
    obtain ⟨v, hd, hv⟩ := hs.landed h0
    exact .ended v hs.inv hs.issued hd hv

/-! ### The history -/

/-- A list whose elements are numbered has one of each number. -/
theorem filter_numbered {α : Type} {f : α → ℕ} {l : List α}
    (h : ∀ (i : ℕ) (a : α), l[i]? = some a → f a = i) (n : ℕ) :
    l.filter (fun a => n ≤ f a ∧ f a < n + 1) = l[n]?.toList := by
  induction l using List.reverseRecOn with
  | nil => rfl
  | append_singleton l a ih =>
    have hl : ∀ (i : ℕ) (b : α), l[i]? = some b → f b = i := fun i b hb => by
      obtain ⟨hi, -⟩ := List.getElem?_eq_some_iff.mp hb
      exact h i b (by rwa [List.getElem?_append_left hi])
    have ha : f a = l.length := h l.length a (by simp)
    rw [List.filter_append, ih hl]
    by_cases hn : n = l.length
    · subst hn
      simp [ha]
    · have hdrop : [a].filter (fun a => n ≤ f a ∧ f a < n + 1) = [] := by
        rw [List.filter_eq_nil_iff]
        intro b hb
        obtain rfl := List.mem_singleton.mp hb
        rw [ha, decide_eq_true_eq]
        omega
      rw [hdrop, List.append_nil]
      rcases Nat.lt_or_ge n l.length with hlt | hge
      · rw [List.getElem?_append_left hlt]
      · rw [List.getElem?_eq_none hge, List.getElem?_eq_none (by simp; omega)]

/-- What is performed at a place is what was started there. -/
theorem Inv.issued_of_done (h : Inv s) {i : ℕ} {d : Done} (hd : s.done[i]? = some d) :
    s.issued[i]? = some d.flight := by
  have hlt := (List.getElem?_eq_some_iff.mp hd).1
  rw [← h.line, List.getElem?_append_left (by rwa [List.length_map]), List.getElem?_map, hd]
  rfl

/-- The number of a transaction is its place. -/
theorem Inv.place (h : Inv s) {i : ℕ} {d : Done} (hd : s.done[i]? = some d) : d.flight.tag = i := by
  have ht : (s.issued.map Flight.tag)[i]? = some d.flight.tag := by
    rw [List.getElem?_map, h.issued_of_done hd]
    rfl
  rw [h.tags] at ht
  obtain ⟨hlt, hget⟩ := List.getElem?_eq_some_iff.mp ht
  rw [List.getElem_range] at hget
  exact hget.symm

theorem Inv.done_place (h : Inv s) {d : Done} (hd : d ∈ s.done) : s.done[d.flight.tag]? = some d := by
  obtain ⟨i, hi⟩ := List.getElem?_of_mem hd
  rwa [h.place hi]

/-- The history only grows. -/
def Grows (s s' : Ctl β) : Prop := s.issued <+: s'.issued ∧ s.done <+: s'.done

theorem Grows.env (h : (mdio acc).env s s') : Grows s s' := by
  obtain ⟨-, -⟩ := h
  exact ⟨List.prefix_rfl, List.prefix_append _ _⟩

theorem Grows.step (o : MdioOp) (s : Ctl β) : Grows s ((mdio acc).step o s).2 := by
  cases o with
  | writel v r =>
    change Grows s (s.writeReg v r)
    unfold Ctl.writeReg
    split
    · exact ⟨List.prefix_append _ _, List.prefix_rfl⟩
    · exact ⟨List.prefix_rfl, List.prefix_rfl⟩
  | _ => exact ⟨List.prefix_rfl, List.prefix_rfl⟩

variable {cs : List (MdioCall β)}

theorem MdioRun.grows (h : MdioRun acc s cs s') :
    Grows s s' ∧ (∀ x ∈ cs, Grows s x.before ∧ Grows x.after s') ∧
      cs.Pairwise fun x y => Grows x.after y.before :=
  Calls.CallRun.rel (fun _ => ⟨List.prefix_rfl, List.prefix_rfl⟩)
    (fun _ _ _ h h' => ⟨h.1.trans h'.1, h.2.trans h'.2⟩) (fun _ _ => Grows.env) Grows.step h

/-! ### The transactions of a call -/

/-- The transaction of a call, with its number. -/
def flightOf (x : MdioCall β) : Flight := ⟨x.before.issued.length, txnOf x.call⟩

/-- The transactions performed that were started in the call. -/
def own (x : MdioCall β) (s : Ctl β) : List Done :=
  s.done.filter fun d => x.before.issued.length ≤ d.flight.tag ∧
    d.flight.tag < x.after.issued.length

variable {x : MdioCall β}

theorem own_nil (hx : x.after.issued = x.before.issued) : own x s = [] := by
  unfold own
  rw [List.filter_eq_nil_iff]
  intro d _
  rw [hx, decide_eq_true_eq]
  omega

theorem own_eq (h : Inv s) (hx : x.after.issued = x.before.issued ++ [flightOf x]) :
    own x s = s.done[x.before.issued.length]?.toList := by
  unfold own
  rw [hx, List.length_append, List.length_singleton]
  exact filter_numbered (fun _ _ => h.place) _

/-- What is performed at the place of a call is its transaction. -/
theorem flight_eq (h : Inv s) (hx : x.after.issued = x.before.issued ++ [flightOf x])
    (hg : Grows x.after s) {d : Done} (hd : s.done[x.before.issued.length]? = some d) :
    d.flight = flightOf x := by
  have hi : x.after.issued[x.before.issued.length]? = some (flightOf x) := by
    rw [hx]
    exact List.getElem?_concat_length
  have hs := Calls.getElem?_of_isPrefix hg.1 hi
  rw [h.issued_of_done hd] at hs
  exact Option.some.inj hs

/-- The call had its transaction performed, once, before it returned. -/
def Answered (x : MdioCall β) (s : Ctl β) : Prop :=
  ∃ v, x.out = succeeded v x.call ∧ own x x.after = [⟨flightOf x, v⟩] ∧ own x s = [⟨flightOf x, v⟩]

/-- The call left `*val` as it was; its transaction is performed once, or not at all. -/
def GaveUp (x : MdioCall β) (s : Ctl β) : Prop :=
  x.out = failed x.call ∧ (own x s = [] ∨ ∃ v, own x s = [⟨flightOf x, v⟩])

/-- What is performed for `x` is performed before what is performed for `y`. -/
def Before (s : Ctl β) (x y : MdioCall β) : Prop :=
  ∀ d ∈ own x s, ∀ d' ∈ own y s, ∃ i j : ℕ, i < j ∧ s.done[i]? = some d ∧ s.done[j]? = some d'

theorem answered_or_gaveUp (h : Inv s) (hg : Grows x.after s)
    (hx : CallPost x.call x.before.issued x.out x.after) : Answered x s ∨ GaveUp x s := by
  cases hx with
  | skipped _ hi ho => exact Or.inr ⟨ho, Or.inl (own_nil hi)⟩
  | late _ hi ho =>
    refine Or.inr ⟨ho, ?_⟩
    rw [own_eq h hi]
    cases hd : s.done[x.before.issued.length]? with
    | none => exact Or.inl rfl
    | some d => exact Or.inr ⟨d.value, by rw [← flight_eq h hi hg hd]; rfl⟩
  | ended v h' hi hd ho =>
    have hp : x.after.done[x.before.issued.length]? = some ⟨flightOf x, v⟩ := h'.done_place hd
    refine Or.inl ⟨v, ho, ?_, ?_⟩
    · rw [own_eq h' hi, hp]
      rfl
    · rw [own_eq h hi, Calls.getElem?_of_isPrefix hg.2 hp]
      rfl

theorem before_of_grows {y : MdioCall β} (h : Inv s) (hg : Grows x.after y.before) :
    Before s x y := by
  intro d hd d' hd'
  obtain ⟨hm, hw⟩ := List.mem_filter.mp hd
  obtain ⟨hm', hw'⟩ := List.mem_filter.mp hd'
  rw [decide_eq_true_eq] at hw hw'
  have := hg.1.length_le
  exact ⟨_, _, by omega, h.done_place hm, h.done_place hm'⟩

/-! ### Runs of calls -/

/-- **What holds of a run of calls.** -/
structure SerialRun (acc : Txn → β → UInt32 → β → Prop) (cs : List (MdioCall β))
    (s : Ctl β) : Prop where
  alone : ∀ x ∈ cs, ∀ y ∈ x.hist, Alone y.1 y.2
  /-- The same for a call that is under way. -/
  alone_now : ∀ o l s' p, Run (mdio acc) s (wireOp o) l s' p → ∀ y ∈ l, Alone y.1 y.2
  answered : ∀ x ∈ cs, retOf x.call x.out = 0 → Answered x s
  gaveUp : ∀ x ∈ cs, retOf x.call x.out ≠ 0 → retOf x.call x.out = -1 ∧ GaveUp x s
  order : cs.Pairwise (Before s)

/-- **Transactions are serial and at most once**, whatever is on the bus, however long the
transactions take, and whether or not one is under way at first. -/
theorem mdio_serial (acc : Txn → β → UInt32 → β → Prop) (reg : MdioReg → UInt32) (bus : β)
    (txn : Option Txn) (cs : List (MdioCall β)) (s : Ctl β)
    (h : MdioRun acc (Ctl.boot reg bus txn) cs s) : SerialRun acc cs s := by
  obtain ⟨hall, -, hinv⟩ := h.forall (A := fun _ : Unit => Inv) (H := fun _ => True)
    (P := fun x => (∀ y ∈ x.hist, Alone y.1 y.2) ∧
      CallPost x.call x.before.issued x.out x.after) (fun _ => Inv.stable)
    (fun i s c l out s' hs hr _ => by
      have hwp : wp (mdio acc) _ _ _ _ := wp_call c ⟨hs, rfl⟩
      have hpost := wp_run_ret hwp hr fun _ _ => trivial
      refine ⟨⟨ok_run hwp hr fun _ _ => trivial, hpost⟩, i, ?_⟩
      cases hpost <;> assumption)
    (fun _ _ => trivial) (i := ()) (Inv.boot reg bus txn)
  obtain ⟨-, hgrow, hpair⟩ := MdioRun.grows h
  have hor : ∀ x ∈ cs, Answered x s ∨ GaveUp x s := fun x hx =>
    answered_or_gaveUp hinv (hgrow x hx).2 (hall x hx).2
  refine ⟨fun x hx => (hall x hx).1, fun o l s' p hr => ?_, fun x hx h0 => ?_, fun x hx h0 => ?_,
    hpair.imp fun hg => before_of_grows hinv hg⟩
  · exact ok_run (M := mdio acc) (wp_call o ⟨hinv, rfl⟩) hr fun _ _ => trivial
  · refine (hor x hx).resolve_right fun hg => ?_
    rw [hg.1, retOf_failed] at h0
    exact absurd h0 (by decide)
  · rcases hor x hx with ⟨v, ho, -⟩ | hg
    · rw [ho, retOf_succeeded] at h0
      exact absurd rfl h0
    · exact ⟨by rw [hg.1, retOf_failed], hg⟩

theorem exec_pollBusy_busy {f : Flight} (hf : s.inflight = some f) :
    ∀ n, exec (mdio acc) (pollBusy n) s = (-1, s)
  | 0 => rfl
  | n + 1 => by
    have hb : ¬s.readReg .cmd &&& mdioCmdAccessBusy = 0 := by
      rw [busy_iff, hf]
      simp
    change exec (mdio acc) (if s.readReg .cmd &&& mdioCmdAccessBusy = 0 then .ret 0
      else .op (S := mdioSig) (.udelay mdioPollUs) fun _ => pollBusy n) s = _
    rw [if_neg hb]
    exact exec_pollBusy_busy hf n

/-- A write to an idle controller that is not in time. -/
theorem exec_lateWrite (phy reg : UInt8) (val : UInt16) (h0 : s.inflight = none) :
    exec (mdio acc) (wireOp (.write phy reg val)) s =
      (failed (.write phy reg val), begun (.write phy reg val) s) := by
  have hidle : exec (mdio acc) mdioWaitBusy s = ((0 : Int), s) := by
    have hn : mdioBusyTimeoutUs / mdioPollUs = 9999 + 1 := by decide
    unfold mdioWaitBusy
    rw [hn]
    change exec (mdio acc) (if s.readReg .cmd &&& mdioCmdAccessBusy = 0 then .ret 0
      else .op (S := mdioSig) (.udelay mdioPollUs) fun _ => pollBusy 9999) s = _
    rw [if_pos ((busy_iff s).mpr h0)]
    rfl
  change exec (mdio acc) (mdioWaitBusy >>= fun r =>
    if r ≠ 0 then return -1 else startWrite phy reg val) s = _
  rw [exec_bind, hidle]
  change exec (mdio acc) mdioWaitBusy (((s.writeReg (addrWord phy reg) .addr).writeReg
    val.toUInt32 .dataWrite).writeReg (mdioCmdAccessStart ||| mdioCmdAccessCodeWrite) .cmd) = _
  have h1 : ((s.setReg .addr (addrWord phy reg)).setReg .dataWrite val.toUInt32).inflight = none := h0
  rw [Ctl.writeReg_plain (r := .addr) (by decide), Ctl.writeReg_plain (r := .dataWrite) (by decide),
    Ctl.writeReg_start (by decide) h1]
  exact exec_pollBusy_busy (begun_inflight (.write phy reg val) s) _

/-- PHYs whose registers are zero. -/
def blankPhys : Phys := fun _ => ⟨0, fun _ => 0, fun _ _ => 0, fun _ => 0⟩

/-- A write that gives up with its transaction under way, and a read after it that is in time. -/
theorem mdio_serial_late : ∃ x y, ∃ s : Ctl Phys,
    MdioRun onPhys (Ctl.boot (fun _ => 0) blankPhys none) [x, y] s ∧
      x.call = .write 4 16 7 ∧ retOf x.call x.out = -1 ∧
      x.after.inflight = some ⟨0, txnOf (.write 4 16 7)⟩ ∧
      y.call = .read 4 16 0 ∧ retOf y.call y.out = 0 ∧ SerialRun onPhys [x, y] s := by
  let s₀ : Ctl Phys := Ctl.boot (fun _ => 0) blankPhys none
  let o : BusOp := .write 4 16 7
  let f : Flight := ⟨0, txnOf o⟩
  have hexec : exec (mdio onPhys) (wireOp o) s₀ = (failed o, begun o s₀) := exec_lateWrite 4 16 7 rfl
  have hlate : Run (mdio onPhys) s₀ (wireOp o) (hist (mdio onPhys) (wireOp o) s₀) (begun o s₀)
      (.ret (failed o)) := by
    have hr := run_exec (M := mdio onPhys) (wireOp o) s₀
    rwa [hexec] at hr
  -- the transaction is performed between the calls
  have henv : (mdio onPhys).env (begun o s₀) ((begun o s₀).perform f (perform f.txn s₀.bus).1
      (perform f.txn s₀.bus).2) := .mk rfl rfl
  obtain ⟨l, s, v, hr⟩ := prompt_succeeded (.read 4 16 0)
    (s := (begun o s₀).perform f (perform f.txn s₀.bus).1 (perform f.txn s₀.bus).2) rfl
  have hrun : MdioRun onPhys s₀ [⟨o, s₀, _, failed o, begun o s₀⟩, ⟨.read 4 16 0, _, l, _, s⟩] s :=
    .call hlate (.env henv (.call hr (.nil s)))
  exact ⟨_, _, s, hrun, rfl, retOf_failed o, rfl, rfl, retOf_succeeded _ v,
    mdio_serial onPhys (fun _ => 0) blankPhys none _ s hrun⟩

end Ipq4019.Mdio.Serial
