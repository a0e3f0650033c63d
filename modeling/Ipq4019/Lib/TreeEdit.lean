import Ipq4019.Lib.DeviceTree

/-!
# Edits of a device tree by names

An edit of a node, if there is one under a name (`within`), or of one that is added if there is none
(`edit`).  Edits under names that no node has both of commute; two edits under one name are one.  With
that a list of edits is brought into the order of the nodes, and whether it changes anything when it
is done again is a question about one node, and then about one property (`applyEdits_idem`).

An offset is a path of places; `pathOffset_alter` is what connects the two.
-/

namespace Ipq4019.Lib.DeviceTree

namespace Node

/-- The subnode of a name, edited if it is there. -/
def within (s : String) (f : Node → Node) (n : Node) : Node :=
  match n.index s with
  | some i => modify f [i] n
  | none => n

/-- The node at a path of names, edited if it is there. -/
def alter (path : List String) (f : Node → Node) : Node → Node := path.foldr within f

/-- The node at a path of names. -/
def resolve : List String → Node → Option Node
  | [], n => some n
  | s :: path, n => (n.subnode s).bind (resolve path)

/-- An edit that leaves the name. -/
def Named (f : Node → Node) : Prop := ∀ c, (f c).name = c.name

/-- Names that no node has both of. -/
def Apart (s t : String) : Prop := ∀ n, called s n = true → ¬called t n = true

/-- A property is removed: the first one of the name. -/
def del (n : Node) (p : String) : Node := mk n.name (n.props.eraseP fun a => a.1 == p) n.children

section Names

variable {n c : Node} {f g : Node → Node} {i j : ℕ} {s t : String}

theorem apart_of_ne (hs : '@' ∉ s.toList) (ht : '@' ∉ t.toList) (hne : s ≠ t) : Apart s t :=
  fun _ h h' => hne (called_inj hs ht h h')

/-- Names with an address. -/
theorem apart_of_at (hs : '@' ∈ s.toList) (ht : '@' ∈ t.toList) (hne : s ≠ t) : Apart s t := by
  intro n h h'
  unfold called at h h'
  rw [if_pos hs, decide_eq_true_eq] at h
  rw [if_pos ht, decide_eq_true_eq] at h'
  exact hne (h.symm.trans h')

theorem Apart.symm (h : Apart s t) : Apart t s := fun n hs ht => h n ht hs

theorem Apart.index_ne (h : Apart s t) (hi : n.index s = some i) (hj : n.index t = some j) : i ≠ j := by
  rintro rfl
  obtain ⟨c, hc, hcs⟩ := index_eq_some hi
  obtain ⟨d, hd, hdt⟩ := index_eq_some hj
  obtain rfl : c = d := Option.some.inj (hc.symm.trans hd)
  exact h c hcs hdt

theorem Apart.not_called (h : Apart s t) (hf : Named f) : called s (f (.mk t [] [])) = false := by
  rw [called_congr (hf _)]
  by_contra hs
  exact h _ (by simpa using hs) called_self

theorem named_within : Named (within s f) := by
  intro c
  unfold within
  split
  · rfl
  · rfl

theorem index_within (hf : Named f) : (within s f n).index t = n.index t := by
  unfold within
  split
  · exact index_modify hf
  · rfl

theorem subnode_within (hf : Named f) : (within s f n).subnode s = (n.subnode s).map f := by
  unfold within
  split
  · rename_i i hi
    exact subnode_modify hf hi
  · rename_i hi
    rw [subnode_eq, hi]
    rfl

theorem subnode_within_ne (hf : Named f) (h : Apart s t) :
    (within s f n).subnode t = n.subnode t := by
  unfold within
  split
  · rename_i i hi
    exact subnode_modify_ne hf fun hj => h.index_ne hi hj rfl
  · rfl

theorem subnode_edit_apart (hf : Named f) (h : Apart s t) : (edit s f n).subnode t = n.subnode t := by
  unfold edit
  split
  · rename_i i hi
    exact subnode_modify_ne hf fun hj => h.index_ne hi hj rfl
  · exact subnode_cons (h.symm.not_called hf)

theorem named_alter (hf : Named f) : ∀ path : List String, Named (alter path f)
  | [] => hf
  | _ :: _ => named_within

/-- The node of a path after its edit. -/
theorem resolve_alter (hf : Named f) : ∀ (path : List String) (n : Node),
    resolve path (alter path f n) = (resolve path n).map f
  | [], _ => rfl
  | s :: path, n => by
    change ((within s (alter path f) n).subnode s).bind _ = ((n.subnode s).bind _).map f
    rw [subnode_within (named_alter hf path)]
    cases n.subnode s with
    | none => rfl
    | some c => exact resolve_alter hf path c

/-- Only what is made of the subnode matters. -/
theorem within_congr (h : ∀ c, n.subnode s = some c → f c = g c) : within s f n = within s g n := by
  unfold within
  split
  · rename_i i hi
    obtain ⟨c, hc, -⟩ := index_eq_some hi
    refine modify_congr (c := c) ?_ (h c ?_)
    · change n.children[i]?.bind _ = _
      rw [hc]
      rfl
    · rw [subnode_eq, hi]
      exact hc
  · rfl

theorem within_id : within s (fun c => c) n = n := by
  unfold within
  split
  · rename_i i hi
    obtain ⟨c, hc, -⟩ := index_eq_some hi
    refine modify_self (c := c) ?_ rfl
    change n.children[i]?.bind _ = _
    rw [hc]
    rfl
  · rfl

/-- Two edits under one name. -/
theorem within_within (hg : Named g) :
    within s f (within s g n) = within s (fun c => f (g c)) n := by
  have hindex := index_within (s := s) (t := s) (n := n) hg
  cases hi : n.index s with
  | none =>
    have hsame : ∀ h : Node → Node, within s h n = n := fun h => by
      unfold within
      rw [hi]
    rw [hsame, hsame, hsame]
  | some i =>
    rw [hi] at hindex
    have hat : ∀ (h : Node → Node) (m : Node), m.index s = some i → within s h m = modify h [i] m :=
      fun h m hm => by
        unfold within
        rw [hm]
    rw [hat _ _ hindex, hat _ _ hi, hat _ _ hi, modify_modify]

/-- Edits under names that are apart. -/
theorem within_comm (hf : Named f) (hg : Named g) (h : Apart s t) :
    within s f (within t g n) = within t g (within s f n) := by
  have hs := index_within (s := t) (t := s) (n := n) hg
  have ht := index_within (s := s) (t := t) (n := n) hf
  unfold within at hs ht ⊢
  cases hi : n.index s with
  | none =>
    rw [hi] at hs
    simp only [hs]
  | some i =>
    rw [hi] at hs
    simp only [hi] at ht
    simp only [hs, ht]
    cases hj : n.index t with
    | none => rfl
    | some j =>
      refine congrArg n.setChildren ?_
      exact List.modify_modify_ne g f n.children (h.index_ne hi hj).symm

/-- Two edits under one name, which is there after the first. -/
theorem edit_edit (hg : Named g) : edit s f (edit s g n) = edit s (fun c => f (g c)) n := by
  cases hi : n.index s with
  | none =>
    have hcalled : called s (g (.mk s [] [])) = true := (called_congr (hg _)).trans called_self
    have hadd : ∀ h : Node → Node, edit s h n = n.setChildren (h (.mk s [] []) :: n.children) :=
      fun h => by
        unfold edit
        rw [hi]
    have hfirst : (n.setChildren (g (.mk s [] []) :: n.children)).index s = some 0 := by
      change List.findIdx? (called s) (g (.mk s [] []) :: n.children) = _
      rw [List.findIdx?_cons, hcalled]
      rfl
    rw [hadd, hadd]
    unfold edit
    rw [hfirst]
    rfl
  | some i =>
    have hat : ∀ (h : Node → Node) (m : Node), m.index s = some i → edit s h m = modify h [i] m :=
      fun h m hm => by
        unfold edit
        rw [hm]
    have hsame : (modify g [i] n).index s = some i := (index_modify hg).trans hi
    rw [hat _ _ hi, hat _ _ hsame, hat _ _ hi, modify_modify]

theorem edit_within_comm (hf : Named f) (hg : Named g) (h : Apart s t) :
    within s f (edit t g n) = edit t g (within s f n) := by
  have ht := index_within (s := s) (t := t) (n := n) hf
  cases hj : n.index t with
  | some j =>
    have hat : ∀ m : Node, m.index t = some j → edit t g m = within t g m := fun m hm => by
      unfold edit within
      rw [hm]
    rw [hat _ hj, hat _ (ht.trans hj), within_comm hf hg h]
  | none =>
    have hadd : ∀ m : Node, m.index t = none →
        edit t g m = m.setChildren (g (.mk t [] []) :: m.children) := fun m hm => by
      unfold edit
      rw [hm]
    have hskip : (n.setChildren (g (.mk t [] []) :: n.children)).index s =
        (n.index s).map (· + 1) := by
      change List.findIdx? (called s) (g (.mk t [] []) :: n.children) = _
      rw [List.findIdx?_cons, h.not_called hg]
      rfl
    rw [hadd _ hj, hadd _ (ht.trans hj)]
    unfold within
    rw [hskip]
    cases n.index s with
    | none => rfl
    | some i => rfl

theorem named_edit : Named (edit s f) := fun _ => name_edit

theorem within_eq_modify (hi : n.index s = some i) : within s f n = modify f [i] n := by
  unfold within
  rw [hi]

end Names

end Node

/-! ### Edits of properties -/

inductive PropEdit
  | put (p : String) (v : Bytes)
  | del (p : String)
  deriving DecidableEq

namespace PropEdit

/-- The property that is edited. -/
def prop : PropEdit → String
  | put p _ => p
  | del p => p

def run : PropEdit → Node → Node
  | put p v, n => n.set p v
  | del p, n => n.del p

/-- There is nothing left to do. -/
def Settled (n : Node) : PropEdit → Prop
  | put p v => n.get p = some v
  | del p => n.get p = none

end PropEdit

/-- One edit after the other. -/
def applyEdits (es : List PropEdit) (n : Node) : Node := es.foldl (fun n e => e.run n) n

/-- No property is there twice. -/
def Node.Distinct (n : Node) : Prop := (n.props.map Prod.fst).Nodup

/-- What is done to a property is the same wherever it is done. -/
def Consistent (es : List PropEdit) : Prop := ∀ e ∈ es, ∀ e' ∈ es, e.prop = e'.prop → e = e'

section PropEdits

open Node PropEdit

variable {n : Node} {e e' : PropEdit} {es : List PropEdit} {p q : String} {v : Bytes}

theorem keys_replaceProp : ∀ ps : List (String × Bytes),
    (replaceProp p v ps).map Prod.fst = ps.map Prod.fst
  | [] => rfl
  | (r, w) :: ps => by
    unfold replaceProp
    split
    · rfl
    · rw [List.map_cons, List.map_cons, keys_replaceProp ps]

theorem notMem_keys : ∀ {ps : List (String × Bytes)}, ps.lookup p = none → p ∉ ps.map Prod.fst
  | [], _ => by simp
  | (r, w) :: ps, h => by
    by_cases hr : p = r
    · simp [hr] at h
    · have hb : (p == r) = false := by simpa using hr
      rw [List.lookup_cons, hb] at h
      rw [List.map_cons, List.mem_cons]
      exact fun hm => hm.elim hr (notMem_keys h)

theorem replaceProp_self : ∀ {ps : List (String × Bytes)}, ps.lookup p = some v →
    replaceProp p v ps = ps
  | [], _ => rfl
  | (r, w) :: ps, h => by
    unfold replaceProp
    by_cases hr : p = r
    · have hb : (p == r) = true := by simpa using hr
      rw [List.lookup_cons, hb] at h
      rw [if_pos hb, Option.some.inj h]
    · have hb : (p == r) = false := by simpa using hr
      rw [List.lookup_cons, hb] at h
      rw [if_neg (by simp [hb]), replaceProp_self h]

theorem lookup_eraseP (ps : List (String × Bytes)) (hq : q ≠ p) :
    (ps.eraseP fun a => a.1 == p).lookup q = ps.lookup q := by
  induction ps with
  | nil => rfl
  | cons a ps ih =>
    obtain ⟨r, w⟩ := a
    by_cases hr : r = p
    · have hb : (q == r) = false := by simpa [hr] using hq
      rw [List.eraseP_cons_of_pos (by simpa using hr), List.lookup_cons, hb]
    · rw [List.eraseP_cons_of_neg (by simpa using hr), List.lookup_cons, List.lookup_cons, ih]

theorem lookup_eraseP_self {ps : List (String × Bytes)} (h : (ps.map Prod.fst).Nodup) :
    (ps.eraseP fun a => a.1 == p).lookup p = none := by
  induction ps with
  | nil => rfl
  | cons a ps ih =>
    obtain ⟨r, w⟩ := a
    rw [List.map_cons, List.nodup_cons] at h
    by_cases hr : r = p
    · rw [List.eraseP_cons_of_pos (by simpa using hr), List.lookup_eq_none_iff]
      intro b hb
      have hne : p ≠ b.1 := by
        rintro rfl
        rw [hr] at h
        exact h.1 (List.mem_map.mpr ⟨b, hb, rfl⟩)
      simpa using hne
    · have hb : (p == r) = false := by simpa using fun he : p = r => hr he.symm
      rw [List.eraseP_cons_of_neg (by simpa using hr), List.lookup_cons, hb]
      exact ih h.2

theorem PropEdit.Settled.run_eq (h : e.Settled n) : e.run n = n := by
  obtain ⟨name, ps, cs⟩ := n
  cases e with
  | put p v =>
    have hlook : ps.lookup p = some v := h
    change Node.mk name (putProp p v ps) cs = _
    unfold putProp
    rw [hlook, Option.isSome_some, if_pos rfl, replaceProp_self hlook]
  | del p =>
    have hlook : ps.lookup p = none := h
    change Node.mk name (ps.eraseP _) cs = _
    rw [List.eraseP_of_forall_not]
    intro a ha hp
    have he : a.1 = p := by simpa using hp
    exact notMem_keys hlook (he ▸ List.mem_map_of_mem ha)

theorem distinct_run (h : n.Distinct) : (e.run n).Distinct := by
  obtain ⟨name, ps, cs⟩ := n
  cases e with
  | put p v =>
    change ((putProp p v ps).map Prod.fst).Nodup
    unfold putProp
    split
    · rw [keys_replaceProp]
      exact h
    · rename_i hnone
      rw [List.map_cons, List.nodup_cons]
      exact ⟨notMem_keys (Option.not_isSome_iff_eq_none.mp hnone), h⟩
  | del p => exact List.Nodup.sublist (List.eraseP_sublist.map Prod.fst) h

theorem settled_run (h : n.Distinct) : e.Settled (e.run n) := by
  cases e with
  | put p v => exact get_set.trans (if_pos rfl)
  | del p => exact lookup_eraseP_self h

theorem get_run_ne (h : q ≠ e.prop) : (e.run n).get q = n.get q := by
  cases e with
  | put p v => exact get_set_ne h
  | del p => exact lookup_eraseP _ h

theorem PropEdit.Settled.run (h : e.Settled n) (hne : e.prop = e'.prop → e = e') :
    e.Settled (e'.run n) := by
  by_cases hp : e.prop = e'.prop
  · obtain rfl := hne hp
    rwa [h.run_eq]
  · have hget : (e'.run n).get e.prop = n.get e.prop := get_run_ne hp
    cases e with
    | put p v => exact hget.trans h
    | del p => exact hget.trans h

/-- What was done stays done. -/
theorem settled_applyEdits {done : List PropEdit} : ∀ {es : List PropEdit} {n : Node}, n.Distinct →
    Consistent (done ++ es) → (∀ e ∈ done, e.Settled n) →
      ∀ e ∈ done ++ es, e.Settled (applyEdits es n)
  | [], n, _, _, hdone => by
    rw [List.append_nil]
    exact hdone
  | e :: es, n, hn, hc, hdone => by
    rw [List.append_cons] at hc ⊢
    refine settled_applyEdits (distinct_run hn) hc fun x hx => ?_
    rcases List.mem_append.mp hx with hx | hx
    · refine (hdone x hx).run (hc x ?_ e ?_)
      · exact List.mem_append_left _ (List.mem_append_left _ hx)
      · exact List.mem_append_left _ (List.mem_append_right _ List.mem_cons_self)
    · obtain rfl := List.mem_singleton.mp hx
      exact settled_run hn

theorem applyEdits_self : ∀ {es : List PropEdit}, (∀ e ∈ es, e.Settled n) → applyEdits es n = n
  | [], _ => rfl
  | e :: es, h => by
    obtain ⟨he, hes⟩ := List.forall_mem_cons.mp h
    change applyEdits es (e.run n) = n
    rw [he.run_eq]
    exact applyEdits_self hes

theorem settled_all (hn : n.Distinct) (hc : Consistent es) :
    ∀ e ∈ es, e.Settled (applyEdits es n) := by
  have hall : ∀ e ∈ [] ++ es, e.Settled (applyEdits es n) := settled_applyEdits hn hc (by simp)
  exact hall

/-- **Consistent edits change nothing when they are done again.** -/
theorem applyEdits_idem (hn : n.Distinct) (hc : Consistent es) :
    applyEdits es (applyEdits es n) = applyEdits es n := applyEdits_self (settled_all hn hc)

theorem named_applyEdits : ∀ es : List PropEdit, Named (applyEdits es)
  | [], _ => rfl
  | e :: es, n => by
    refine (named_applyEdits es _).trans ?_
    cases e with
    | put p v => rfl
    | del p => rfl

end PropEdits

/-! ### The library's paths -/

/-- `fdt_path_offset`, of the parts of a path. -/
def pathOffset (fdt : Fdt) (path : List String) : Except FdtError Offset :=
  path.foldlM (subnodeOffset fdt) []

/-- `fdt_delprop` -/
def delprop (fdt : Fdt) (off : Offset) (p : String) : Except FdtError Fdt :=
  match fdt.tree.at' off with
  | none => .error .badOffset
  | some n => match n.get p with
    | none => .error .notFound
    | some _ => .ok ⟨fdt.tree.modify (fun n => n.del p) off, fdt.size⟩

section Paths

open Node

variable {fdt : Fdt} {f : Node → Node} {n : Node}

theorem foldlM_alter : ∀ {path : List String} {off : Offset} {n : Node},
    fdt.tree.at' off = some n →
    (∀ o, path.foldlM (subnodeOffset fdt) off = .ok o → (fdt.tree.at' o).isSome ∧
      ∃ r, o = off ++ r ∧ modify f r n = alter path f n) ∧
    ∀ e, path.foldlM (subnodeOffset fdt) off = .error e → alter path f n = n
  | [], off, n, hn => by
    refine ⟨fun o h => ?_, fun e h => nomatch h⟩
    cases h
    exact ⟨by rw [hn]; rfl, [], (List.append_nil _).symm, rfl⟩
  | s :: path, off, n, hn => by
    rw [List.foldlM_cons]
    cases hi : n.index s with
    | none =>
      have hsub : subnodeOffset fdt off s = .error .notFound := by simp only [subnodeOffset, hn, hi]
      rw [hsub]
      refine ⟨fun o h => (nomatch h), fun e _ => ?_⟩
      change within s _ n = n
      unfold within
      rw [hi]
    | some i =>
      have hsub : subnodeOffset fdt off s = .ok (off ++ [i]) := by simp only [subnodeOffset, hn, hi]
      rw [hsub]
      obtain ⟨c, hc, -⟩ := index_eq_some hi
      have hat : n.at' [i] = some c := by
        change n.children[i]?.bind _ = _
        rw [hc]
        rfl
      have hnext : fdt.tree.at' (off ++ [i]) = some c := by
        rw [at_append, hn]
        exact hat
      have hwithin : alter (s :: path) f n = modify (alter path f) [i] n := within_eq_modify hi
      obtain ⟨hok, herr⟩ := foldlM_alter hnext
      refine ⟨fun o h => ?_, fun e h => ?_⟩
      · obtain ⟨hsome, r, rfl, hr⟩ := hok o h
        refine ⟨hsome, i :: r, by rw [List.append_assoc]; rfl, ?_⟩
        rw [hwithin]
        exact (modify_append (p := [i])).trans (modify_congr hat hr)
      · rw [hwithin]
        exact modify_self hat (herr e h)

/-- **An edit at the offset of a path is one under its names.** -/
theorem pathOffset_alter {path : List String} {o : Offset} (h : pathOffset fdt path = .ok o) :
    (fdt.tree.at' o).isSome ∧ modify f o fdt.tree = alter path f fdt.tree := by
  obtain ⟨hsome, r, rfl, hr⟩ := (foldlM_alter (n := fdt.tree) rfl).1 o h
  exact ⟨hsome, hr⟩

theorem alter_of_error {path : List String} {e : FdtError} (h : pathOffset fdt path = .error e) :
    alter path f fdt.tree = fdt.tree := (foldlM_alter (n := fdt.tree) rfl).2 e h

theorem foldlM_resolve : ∀ {path : List String} {off : Offset} {n : Node},
    fdt.tree.at' off = some n →
    (∀ o, path.foldlM (subnodeOffset fdt) off = .ok o →
      ∃ c, fdt.tree.at' o = some c ∧ resolve path n = some c) ∧
    ∀ e, path.foldlM (subnodeOffset fdt) off = .error e → resolve path n = none
  | [], off, n, hn => by
    refine ⟨fun o h => ?_, fun e h => nomatch h⟩
    cases h
    exact ⟨n, hn, rfl⟩
  | s :: path, off, n, hn => by
    unfold resolve
    rw [List.foldlM_cons, subnode_eq]
    unfold subnodeOffset
    rw [hn]
    dsimp only
    cases hi : n.index s with
    | none => exact ⟨fun o h => (nomatch h), fun e _ => rfl⟩
    | some i =>
      obtain ⟨c, hc, -⟩ := index_eq_some hi
      have hnext : fdt.tree.at' (off ++ [i]) = some c := by
        rw [at_append, hn]
        change n.children[i]?.bind _ = _
        rw [hc]
        rfl
      rw [Option.bind_some, hc]
      exact foldlM_resolve hnext

/-- **The offset of a path is that of the node under its names.** -/
theorem pathOffset_resolve {path : List String} {o : Offset} (h : pathOffset fdt path = .ok o) :
    ∃ c, fdt.tree.at' o = some c ∧ resolve path fdt.tree = some c :=
  (foldlM_resolve (n := fdt.tree) rfl).1 o h

theorem resolve_of_error {path : List String} {e : FdtError} (h : pathOffset fdt path = .error e) :
    resolve path fdt.tree = none := (foldlM_resolve (n := fdt.tree) rfl).2 e h

end Paths

end Ipq4019.Lib.DeviceTree
