import Mathlib.Data.List.Basic
import Mathlib.Data.List.TakeWhile
import Mathlib.Tactic.Common

/-!
# A device tree and the library that edits it

A flattened device tree is a tree of named nodes with properties.  `Fdt` is the tree in its buffer
and the operations are libfdt's: a node's offset is the path to it, an operation that has nowhere to
put what it is to add fails, and a node is found by its name without the unit address, unless the
name that is looked for has one.  How many bytes a tree takes is left open (`fits`).

The lemmas are about the tree: what an edit at a path leaves at another one (`at_modify`), and what a
lookup by name finds in a list of subnodes that was edited (`find_modify`).
-/

namespace Ipq4019.Lib.DeviceTree

abbrev Bytes := List UInt8

/-- A node: its name, its properties and its subnodes, in order. -/
inductive Node where
  | mk (name : String) (props : List (String × Bytes)) (children : List Node)

namespace Node

def name : Node → String
  | mk n _ _ => n

def props : Node → List (String × Bytes)
  | mk _ ps _ => ps

def children : Node → List Node
  | mk _ _ cs => cs

end Node

/-- A property's new value: the first one of the name is replaced, one that is not there is added
before the others. -/
def replaceProp (p : String) (v : Bytes) : List (String × Bytes) → List (String × Bytes)
  | [] => []
  | (q, w) :: ps => if p == q then (q, v) :: ps else (q, w) :: replaceProp p v ps

def putProp (p : String) (v : Bytes) (ps : List (String × Bytes)) : List (String × Bytes) :=
  if (ps.lookup p).isSome then replaceProp p v ps else (p, v) :: ps

namespace Node

/-- The value of a property. -/
def get (n : Node) (p : String) : Option Bytes := n.props.lookup p

def set (n : Node) (p : String) (v : Bytes) : Node := mk n.name (putProp p v n.props) n.children

def setChildren (n : Node) (cs : List Node) : Node := mk n.name n.props cs

/-- Whether a node is the one a name is about. -/
def called (s : String) (n : Node) : Bool :=
  if '@' ∈ s.toList then n.name = s else n.name.toList.takeWhile (· ≠ '@') = s.toList

/-- The place of the first subnode of the name. -/
def index (n : Node) (s : String) : Option ℕ := n.children.findIdx? (called s)

/-- The first subnode of the name. -/
def subnode (n : Node) (s : String) : Option Node := n.children.find? (called s)

/-- The node at a path. -/
def at' : Node → List ℕ → Option Node
  | n, [] => some n
  | n, i :: p => n.children[i]?.bind fun c => c.at' p

/-- The node at a path, edited. -/
def modify (f : Node → Node) : List ℕ → Node → Node
  | [], n => f n
  | i :: p, n => n.setChildren (n.children.modify i (modify f p))

end Node

/-! ### The library -/

inductive FdtError where
  | notFound
  | «exists»
  | noSpace
  | badOffset
  | badStructure
deriving DecidableEq

abbrev Offset := List ℕ

/-- A tree in a buffer of `size` bytes. -/
structure Fdt where
  tree : Node
  size : ℕ

variable (fits : ℕ → Node → Bool)

def Fdt.store (fdt : Fdt) (t : Node) : Except FdtError Fdt :=
  if fits fdt.size t then .ok ⟨t, fdt.size⟩ else .error .noSpace

def resize (fdt : Fdt) (size : ℕ) : Except FdtError Fdt := Fdt.store fits ⟨fdt.tree, size⟩ fdt.tree

def subnodeOffset (fdt : Fdt) (off : Offset) (s : String) : Except FdtError Offset :=
  match fdt.tree.at' off with
  | none => .error .badOffset
  | some n => match n.index s with
    | none => .error .notFound
    | some i => .ok (off ++ [i])

/-- `none` stands for the negative number that ends an iteration. -/
def firstSubnode (fdt : Fdt) (off : Offset) : Option Offset :=
  (fdt.tree.at' (off ++ [0])).map fun _ => off ++ [0]

def nextSubnode (fdt : Fdt) (off : Offset) : Option Offset :=
  let next := off.dropLast ++ [off.getLastD 0 + 1]
  (fdt.tree.at' next).map fun _ => next

def getprop (fdt : Fdt) (off : Offset) (p : String) : Except FdtError Bytes :=
  match fdt.tree.at' off with
  | none => .error .badOffset
  | some n => match n.get p with
    | none => .error .notFound
    | some v => .ok v

def setprop (fdt : Fdt) (off : Offset) (p : String) (v : Bytes) : Except FdtError Fdt :=
  match fdt.tree.at' off with
  | none => .error .badOffset
  | some _ => fdt.store fits (fdt.tree.modify (fun n => n.set p v) off)

/-- The new node comes before the other subnodes. -/
def addSubnode (fdt : Fdt) (off : Offset) (s : String) : Except FdtError (Fdt × Offset) :=
  match fdt.tree.at' off with
  | none => .error .badOffset
  | some n =>
    if n.children.any (Node.called s) then .error .exists
    else (fdt.store fits (fdt.tree.modify (fun n => n.setChildren (.mk s [] [] :: n.children))
        off)).map
      fun fdt' => (fdt', off ++ [0])

/-! ### Properties -/

section Props

variable {p q : String} {v : Bytes} {ps : List (String × Bytes)}

theorem lookup_replaceProp (h : (ps.lookup p).isSome) :
    (replaceProp p v ps).lookup q = if q = p then some v else ps.lookup q := by
  induction ps with
  | nil => simp at h
  | cons a ps ih =>
    obtain ⟨r, w⟩ := a
    unfold replaceProp
    by_cases hr : p = r
    · subst hr
      simp only [beq_self_eq_true, if_true, List.lookup_cons]
      by_cases hq : q = p
      · simp [hq]
      · have hb : (q == p) = false := by simpa using hq
        simp [hq, hb]
    · have hb : (p == r) = false := by simpa using hr
      simp only [hb, List.lookup_cons, Bool.false_eq_true, if_false] at h ⊢
      by_cases hqr : q = r
      · have hqp : q ≠ p := fun he => hr (he.symm.trans hqr)
        simp [hqr, hqr ▸ hqp]
      · have hbq : (q == r) = false := by simpa using hqr
        rw [hbq]
        exact ih h

theorem lookup_putProp : (putProp p v ps).lookup q = if q = p then some v else ps.lookup q := by
  unfold putProp
  by_cases h : (ps.lookup p).isSome
  · rw [if_pos h]
    exact lookup_replaceProp h
  · rw [if_neg h, List.lookup_cons]
    by_cases hq : q = p
    · simp [hq]
    · have hb : (q == p) = false := by simpa using hq
      simp [hq, hb]

end Props

namespace Node

variable {n c : Node} {f g : Node → Node} {p q : List ℕ} {i : ℕ} {s t : String} {v : Bytes}

/-- What a property holds after one was set. -/
theorem get_set : (n.set s v).get t = if t = s then some v else n.get t := lookup_putProp

theorem get_set_ne (h : t ≠ s) : (n.set s v).get t = n.get t := by rw [get_set, if_neg h]

/-! ### Paths -/

theorem at_append : n.at' (p ++ q) = (n.at' p).bind fun c => c.at' q := by
  induction p generalizing n with
  | nil => rfl
  | cons i p ih =>
    change n.children[i]?.bind (fun c => c.at' (p ++ q)) = _
    change _ = (n.children[i]?.bind fun c => c.at' p).bind _
    rw [Option.bind_assoc]
    exact congrArg _ (funext fun c => ih)

/-- An edit below a node is one of the node. -/
theorem modify_append : modify f (p ++ q) n = modify (modify f q) p n := by
  induction p generalizing n with
  | nil => rfl
  | cons i p ih => exact congrArg (fun g => n.setChildren (n.children.modify i g)) (funext fun c => ih)

/-- Two edits of one node. -/
theorem modify_modify : modify f p (modify g p n) = modify (fun c => f (g c)) p n := by
  induction p generalizing n with
  | nil => rfl
  | cons i p ih =>
    change n.setChildren (((n.children.modify i (modify g p))).modify i (modify f p)) = _
    rw [List.modify_modify_eq]
    exact congrArg (fun g => n.setChildren (n.children.modify i g)) (funext fun c => ih)

/-- Only what an edit makes of the node matters. -/
theorem modify_congr (h : n.at' p = some c) (hfg : f c = g c) : modify f p n = modify g p n := by
  induction p generalizing n with
  | nil =>
    cases h
    exact hfg
  | cons i p ih =>
    obtain ⟨d, hd, hc⟩ := Option.bind_eq_some_iff.mp h
    refine congrArg n.setChildren (List.ext_getElem? fun j => ?_)
    rw [List.getElem?_modify, List.getElem?_modify]
    by_cases hij : i = j
    · subst hij
      simp [hd, ih hc]
    · simp [hij]

theorem modify_self (h : n.at' p = some c) (hf : f c = c) : modify f p n = n := by
  induction p generalizing n with
  | nil =>
    cases h
    exact hf
  | cons i p ih =>
    obtain ⟨d, hd, hc⟩ := Option.bind_eq_some_iff.mp h
    have hcs : n.children.modify i (modify f p) = n.children := by
      refine List.ext_getElem? fun j => ?_
      rw [List.getElem?_modify]
      by_cases hij : i = j
      · subst hij
        simp [hd, ih hc]
      · simp [hij]
    cases n with
    | mk name ps cs => exact congrArg (Node.mk name ps) hcs

/-- The node after the edit. -/
theorem at_modify : (modify f p n).at' p = (n.at' p).map f := by
  induction p generalizing n with
  | nil => rfl
  | cons i p ih =>
    change ((n.children.modify i (modify f p))[i]?).bind _ = (n.children[i]?.bind _).map f
    rw [List.getElem?_modify_eq]
    cases n.children[i]? with
    | none => rfl
    | some c => exact ih

theorem name_modify (h : ∀ c, (f c).name = c.name) : (modify f p n).name = n.name := by
  cases p with
  | nil => exact h n
  | cons i p => rfl

/-! ### Lookups by name -/

theorem called_congr (h : c.name = n.name) : called s c = called s n := by
  unfold called
  rw [h]

/-- A node has one name. -/
theorem called_inj (hs : '@' ∉ s.toList) (ht : '@' ∉ t.toList) (h : called s n) (h' : called t n) :
    s = t := by
  unfold called at h h'
  rw [if_neg hs, decide_eq_true_eq] at h
  rw [if_neg ht, decide_eq_true_eq] at h'
  exact String.toList_inj.mp (h.symm.trans h')

theorem index_eq_some : n.index s = some i → ∃ c, n.children[i]? = some c ∧ called s c := by
  intro h
  unfold index at h
  rw [List.findIdx?_eq_some_iff_getElem] at h
  obtain ⟨hi, hc, -⟩ := h
  exact ⟨n.children[i], List.getElem?_eq_getElem hi, hc⟩

/-- The subnode that is found is the one in its place. -/
theorem subnode_eq : n.subnode s = (n.index s).bind fun i => n.children[i]? := by
  unfold subnode index
  generalize n.children = cs
  induction cs with
  | nil => rfl
  | cons c cs ih =>
    rw [List.find?_cons, List.findIdx?_cons]
    cases called s c with
    | true => rfl
    | false =>
      simp only [Bool.false_eq_true, if_false]
      rw [ih]
      cases List.findIdx? (called s) cs with
      | none => rfl
      | some i => rfl

/-- Where a name is depends on the names only. -/
theorem index_congr (h : n.children.map name = c.children.map name) : n.index s = c.index s := by
  have hmap : ∀ cs : List Node, cs.findIdx? (called s) =
      (cs.map name).findIdx? fun a => called s (.mk a [] []) := by
    intro cs
    rw [List.findIdx?_map]
    exact congrArg (fun q => List.findIdx? q cs) (funext fun c => called_congr rfl)
  unfold index
  rw [hmap, hmap, h]

/-- An edit below a node that leaves the names. -/
theorem index_modify (h : ∀ c, (f c).name = c.name) : (modify f (i :: p) n).index s = n.index s := by
  refine index_congr ?_
  change (n.children.modify i (modify f p)).map name = n.children.map name
  refine List.ext_getElem? fun j => ?_
  rw [List.getElem?_map, List.getElem?_map, List.getElem?_modify]
  cases n.children[j]? with
  | none => rfl
  | some c =>
    by_cases hij : i = j
    · simp [hij, name_modify h]
    · simp [hij]

theorem subnode_modify (h : ∀ c, (f c).name = c.name) (hi : n.index s = some i) :
    (modify f (i :: p) n).subnode s = (n.subnode s).map (modify f p) := by
  rw [subnode_eq, subnode_eq, index_modify h, hi]
  exact List.getElem?_modify_eq (modify f p) i n.children

theorem subnode_modify_ne (h : ∀ c, (f c).name = c.name) (hi : n.index s ≠ some i) :
    (modify f (i :: p) n).subnode s = n.subnode s := by
  rw [subnode_eq, subnode_eq, index_modify h]
  cases hj : n.index s with
  | none => rfl
  | some j =>
    have hij : i ≠ j := fun he => hi (he ▸ hj)
    exact List.getElem?_modify_ne (modify f p) n.children hij

/-- A node before the others. -/
theorem subnode_cons (h : called s c = false) :
    (n.setChildren (c :: n.children)).subnode s = n.subnode s := by
  change List.find? (called s) (c :: n.children) = _
  rw [List.find?_cons, h]
  rfl

theorem called_self : called s (.mk s [] []) = true := by
  unfold called
  by_cases h : '@' ∈ s.toList
  · rw [if_pos h]
    exact decide_eq_true rfl
  · rw [if_neg h, decide_eq_true_eq]
    refine List.takeWhile_eq_self_iff.mpr fun x hx => ?_
    have hne : x ≠ '@' := fun he => h (he ▸ hx)
    simpa using hne

/-! ### A subnode of a name, there or added -/

/-- The subnode of a name, edited by `f`; if there is none, one is added before the others. -/
def edit (s : String) (f : Node → Node) (n : Node) : Node :=
  match n.index s with
  | some i => modify f [i] n
  | none => n.setChildren (f (.mk s [] []) :: n.children)

theorem name_edit : (edit s f n).name = n.name := by
  unfold edit
  split
  · rfl
  · rfl

theorem get_edit : (edit s f n).get t = n.get t := by
  unfold edit
  split
  · rfl
  · rfl

variable (hf : ∀ c, (f c).name = c.name)
include hf

/-- What is there under the name then. -/
theorem subnode_edit : (edit s f n).subnode s = some (f ((n.subnode s).getD (.mk s [] []))) := by
  unfold edit
  split
  · rename_i i hi
    obtain ⟨c, hc, -⟩ := index_eq_some hi
    have hs : n.subnode s = some c := by rw [subnode_eq, hi]; exact hc
    rw [subnode_modify hf hi, hs]
    rfl
  · rename_i hi
    have hs : n.subnode s = none := by rw [subnode_eq, hi]; rfl
    have hc : called s (f (.mk s [] [])) = true := (called_congr (hf _)).trans called_self
    rw [hs]
    change List.find? (called s) (_ :: n.children) = _
    rw [List.find?_cons, hc]
    rfl

omit hf in
/-- All subnodes then: the edited one and the others that were there. -/
theorem forall_edit {P : Node → Prop} : (∀ c ∈ (edit s f n).children, P c) ↔
    P (f ((n.subnode s).getD (.mk s [] []))) ∧
      ∀ j c, n.children[j]? = some c → n.index s ≠ some j → P c := by
  unfold edit
  split
  · rename_i i hi
    obtain ⟨d, hd, -⟩ := index_eq_some hi
    have hs : n.subnode s = some d := by rw [subnode_eq, hi]; exact hd
    rw [hs]
    change (∀ c ∈ n.children.modify i f, P c) ↔ _
    constructor
    · intro h
      refine ⟨h _ (List.mem_of_getElem? (i := i) ?_), fun j c hc hj => ?_⟩
      · rw [List.getElem?_modify_eq, hd]
        rfl
      · refine h c (List.mem_of_getElem? (i := j) ?_)
        rw [List.getElem?_modify_ne f n.children fun he => hj (hi.trans (congrArg some he)), hc]
    · rintro ⟨hf, hother⟩ c hc
      obtain ⟨j, hj⟩ := List.mem_iff_getElem?.mp hc
      by_cases hij : i = j
      · subst hij
        rw [List.getElem?_modify_eq, hd] at hj
        cases hj
        exact hf
      · rw [List.getElem?_modify_ne f n.children hij] at hj
        exact hother j c hj fun he => hij (Option.some.inj (hi.symm.trans he))
  · rename_i hi
    have hs : n.subnode s = none := by rw [subnode_eq, hi]; rfl
    rw [hs, hi]
    change (∀ c ∈ f (.mk s [] []) :: n.children, P c) ↔ _
    rw [List.forall_mem_cons]
    refine and_congr_right fun _ => ⟨fun h j c hc _ => h c (List.mem_of_getElem? hc), fun h c hc => ?_⟩
    obtain ⟨j, hj⟩ := List.mem_iff_getElem?.mp hc
    exact h j c hj (nomatch ·)

end Node

end Ipq4019.Lib.DeviceTree
