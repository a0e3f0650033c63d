import Ipq4019.Lib.DeviceTree
import Ipq4019.Lib.Digest

/-!
# The flattened device tree

The layout of a device tree in a blob, version 17: a header, a reservation map without entries, the
structure block and the strings block.  `flatten` lays a tree out; it is given the names of the
properties in the order of the strings block, which is the one they came to be used in.  `unflatten`
reads a blob, and what was laid out reads back (`unflatten_flatten`).

The structure block is a list of tokens: a tree is put together from its tokens with a stack of the
nodes that are open (`build_tokens`), and a token from its bytes (`nextToken_encode`).
-/

namespace Ipq4019.Lib.FlatTree

open Ipq4019.Lib.DeviceTree
open Ipq4019.Lib.Digest (toBytes)

/-! ### The layout -/

def be32 (n : ℕ) : Bytes := toBytes 4 n

/-- The bytes of a string, which ends in 0. -/
def asciiz (s : String) : Bytes := s.toUTF8.data.toList ++ [0]

/-- The zeros that follow `n` bytes. -/
def padding (n : ℕ) : ℕ := (4 - n % 4) % 4

def padded (b : Bytes) : Bytes := b ++ List.replicate (padding b.length) 0

inductive Token where
  | beginNode (name : String)
  | endNode
  | prop (p : String) (v : Bytes)
  | nop
  | finish
  deriving DecidableEq

def stringsBlock (names : List String) : Bytes := names.flatMap asciiz

/-- Where a name is in the strings block. -/
def nameOff : List String → String → ℕ
  | [], _ => 0
  | s :: names, p => if s = p then 0 else (asciiz s).length + nameOff names p

def encode (names : List String) : Token → Bytes
  | .beginNode s => be32 1 ++ padded (asciiz s)
  | .endNode => be32 2
  | .prop p v => be32 3 ++ be32 v.length ++ be32 (nameOff names p) ++ padded v
  | .nop => be32 4
  | .finish => be32 9

mutual

/-- The tokens of a tree. -/
def tokens : Node → List Token
  | .mk s ps cs => .beginNode s :: (ps.map fun a => .prop a.1 a.2) ++ tokensOf cs ++ [.endNode]

def tokensOf : List Node → List Token
  | [] => []
  | c :: cs => tokens c ++ tokensOf cs

end

def structBlock (names : List String) (t : Node) : Bytes :=
  (tokens t ++ [Token.finish]).flatMap (encode names)

def magic : ℕ := 0xd00dfeed

/-- The header of a blob whose blocks have these sizes. -/
def header (struct strings : ℕ) : List ℕ :=
  [magic, 56 + struct + strings, 56, 56 + struct, 40, 17, 16, 0, strings, struct]

def flatten (names : List String) (t : Node) : Bytes :=
  let struct := structBlock names t
  let strings := stringsBlock names
  (header struct.length strings.length).flatMap be32 ++ List.replicate 16 0 ++ struct ++ strings

/-! ### Reading -/

def number (b : Bytes) : ℕ := b.foldl (fun n x => 256 * n + x.toNat) 0

/-- The next word, and what is behind it. -/
def word (b : Bytes) : Option (ℕ × Bytes) :=
  if 4 ≤ b.length then some (number (b.take 4), b.drop 4) else none

def words : ℕ → Bytes → Option (List ℕ)
  | 0, _ => some []
  | k + 1, b => do
    let (n, b) ← word b
    return n :: (← words k b)

/-- The string that begins here. -/
def readString (b : Bytes) : Option String :=
  if 0 ∈ b then String.fromUTF8? ⟨(b.takeWhile (· ≠ 0)).toArray⟩ else none

/-- The name of a node, and what is behind it. -/
def readNode (b : Bytes) : Option (Token × Bytes) := do
  let s ← readString b
  let len := (asciiz s).length
  return (.beginNode s, b.drop (len + padding len))

/-- A property, and what is behind it. -/
def readProp (strings b : Bytes) : Option (Token × Bytes) := do
  let (len, b) ← word b
  let (off, b) ← word b
  let p ← readString (strings.drop off)
  if len ≤ b.length then return (.prop p (b.take len), b.drop (len + padding len)) else none

/-- The next token, and what is behind it. -/
def nextToken (strings b : Bytes) : Option (Token × Bytes) := do
  let (tag, b) ← word b
  match tag with
  | 1 => readNode b
  | 2 => return (.endNode, b)
  | 3 => readProp strings b
  | 4 => return (.nop, b)
  | 9 => return (.finish, b)
  | _ => none

/-- The tokens up to the last one, of which there are at most `k`. -/
def readTokens (strings : Bytes) : ℕ → Bytes → Option (List Token)
  | 0, _ => none
  | k + 1, b => do
    let (tok, b) ← nextToken strings b
    if tok = .finish then return [] else return tok :: (← readTokens strings k b)

def addProp (n : Node) (p : String) (v : Bytes) : Node := .mk n.name (n.props ++ [(p, v)]) n.children

def addChild (n c : Node) : Node := .mk n.name n.props (n.children ++ [c])

/-- What a token does to the nodes that are open, the innermost first. -/
def step : List Node → Token → Option (List Node)
  | st, .beginNode s => some (.mk s [] [] :: st)
  | c :: n :: st, .endNode => some (addChild n c :: st)
  | n :: st, .prop p v => some (addProp n p v :: st)
  | st, .nop => some st
  | _, _ => none

/-- The tree of these tokens: the only subnode of a node around it. -/
def build (toks : List Token) : Option Node := do
  match ← toks.foldlM step [.mk "" [] []] with
  | [.mk _ [] [t]] => some t
  | _ => none

/-- The tree in a blob. -/
def unflatten (b : Bytes) : Option Node := do
  match ← words 10 b with
  | [m, total, offStruct, offStrings, _, version, lastComp, _, sizeStrings, sizeStruct] =>
    if m = magic ∧ lastComp ≤ 17 ∧ 17 ≤ version ∧ total ≤ b.length ∧ offStruct + sizeStruct ≤ total ∧
        offStrings + sizeStrings ≤ total then
      build (← readTokens ((b.drop offStrings).take sizeStrings) b.length
        ((b.drop offStruct).take sizeStruct))
    else none
  | _ => none

/-! ### Numbers and strings -/

section Atoms

variable {n : ℕ} {b r : Bytes} {s p : String} {names : List String}

theorem length_be32 : (be32 n).length = 4 := by simp [be32, toBytes]

theorem number_be32 (h : n < 2 ^ 32) : number (be32 n) = n := by
  have hbytes : be32 n = [UInt8.ofNat (n >>> 24), UInt8.ofNat (n >>> 16), UInt8.ofNat (n >>> 8),
      UInt8.ofNat (n >>> 0)] := rfl
  rw [hbytes]
  simp only [number, List.foldl_cons, List.foldl_nil, UInt8.toNat_ofNat', Nat.shiftRight_eq_div_pow]
  omega

theorem word_be32 (h : n < 2 ^ 32) : word (be32 n ++ r) = some (n, r) := by
  unfold word
  have hlen : 4 ≤ (be32 n ++ r).length := by
    rw [List.length_append, length_be32]
    omega
  rw [if_pos hlen, List.take_left' length_be32, List.drop_left' length_be32, number_be32 h]

theorem words_be32 : ∀ {l : List ℕ}, (∀ n ∈ l, n < 2 ^ 32) →
    words l.length (l.flatMap be32 ++ r) = some l
  | [], _ => rfl
  | n :: l, h => by
    obtain ⟨hn, hl⟩ := List.forall_mem_cons.mp h
    rw [List.length_cons, List.flatMap_cons, List.append_assoc]
    unfold words
    rw [word_be32 hn]
    change (words l.length (l.flatMap be32 ++ r)).bind _ = _
    rw [words_be32 hl]
    rfl

/-- The string has no 0 in it. -/
def Plain (s : String) : Prop := (0 : UInt8) ∉ s.toUTF8.data.toList

instance : Decidable (Plain s) := inferInstanceAs (Decidable (_ ∉ _))

theorem fromUTF8_toUTF8 : String.fromUTF8? ⟨s.toUTF8.data.toList.toArray⟩ = some s := by
  have hbytes : (⟨s.toUTF8.data.toList.toArray⟩ : ByteArray) = s.toByteArray := rfl
  rw [hbytes]
  unfold String.fromUTF8?
  rw [dif_pos s.isValidUTF8]
  rfl

theorem readString_asciiz (h : Plain s) : readString (asciiz s ++ r) = some s := by
  have hkeep : ∀ x ∈ s.toUTF8.data.toList, decide (x ≠ 0) = true := by
    intro x hx
    have hne : x ≠ 0 := fun he => h (he ▸ hx)
    simp [hne]
  have htake : (asciiz s ++ r).takeWhile (· ≠ 0) = s.toUTF8.data.toList := by
    unfold asciiz
    rw [List.append_assoc, List.takeWhile_append_of_pos hkeep]
    simp
  unfold readString
  rw [if_pos (by simp [asciiz]), htake]
  exact fromUTF8_toUTF8

/-- A name is where it is said to be in the strings block. -/
theorem drop_nameOff : ∀ {names : List String}, p ∈ names →
    ∃ r, (stringsBlock names).drop (nameOff names p) = asciiz p ++ r
  | s :: names, h => by
    unfold stringsBlock nameOff
    rw [List.flatMap_cons]
    by_cases hs : s = p
    · exact ⟨names.flatMap asciiz, by rw [if_pos hs, hs, List.drop_zero]⟩
    · obtain ⟨r, hr⟩ := drop_nameOff ((List.mem_cons.mp h).resolve_left (Ne.symm hs))
      refine ⟨r, ?_⟩
      rw [if_neg hs, ← List.drop_drop, List.drop_left]
      exact hr

theorem nameOff_le : nameOff names p ≤ (stringsBlock names).length := by
  induction names with
  | nil => exact le_rfl
  | cons s names ih =>
    unfold nameOff
    split
    · exact Nat.zero_le _
    · have hlen : (stringsBlock (s :: names)).length =
          (asciiz s).length + (stringsBlock names).length := by
        unfold stringsBlock
        rw [List.flatMap_cons, List.length_append]
      omega

end Atoms

/-! ### Tokens -/

section Tokens

variable {names : List String} {tok : Token} {toks : List Token} {b r : Bytes} {k : ℕ}

/-- The strings block has the names, and its offsets fit. -/
structure Names (names : List String) : Prop where
  plain : ∀ s ∈ names, Plain s
  small : (stringsBlock names).length < 2 ^ 32

/-- A token that can be stored. -/
def Storable (names : List String) : Token → Prop
  | .beginNode s => Plain s
  | .prop p v => p ∈ names ∧ v.length < 2 ^ 32
  | _ => True

instance : DecidablePred (Storable names)
  | .beginNode s => inferInstanceAs (Decidable (Plain s))
  | .prop p v => inferInstanceAs (Decidable (p ∈ names ∧ v.length < 2 ^ 32))
  | .endNode => isTrue trivial
  | .nop => isTrue trivial
  | .finish => isTrue trivial

theorem length_padded : (padded b).length = b.length + padding b.length := by simp [padded]

theorem drop_padded : (padded b ++ r).drop (b.length + padding b.length) = r :=
  List.drop_left' length_padded

theorem readNode_encode {s : String} (h : Plain s) :
    readNode (padded (asciiz s) ++ r) = some (.beginNode s, r) := by
  have hread : readString (padded (asciiz s) ++ r) = some s := by
    unfold padded
    rw [List.append_assoc]
    exact readString_asciiz h
  unfold readNode
  rw [hread]
  exact congrArg (fun b => some (Token.beginNode s, b)) drop_padded

theorem readProp_encode {p : String} {v : Bytes} (hn : Names names) (hp : p ∈ names)
    (hv : v.length < 2 ^ 32) :
    readProp (stringsBlock names) (be32 v.length ++ (be32 (nameOff names p) ++ (padded v ++ r))) =
      some (.prop p v, r) := by
  obtain ⟨r', hr'⟩ := drop_nameOff hp
  have hle : v.length ≤ (padded v ++ r).length := by
    rw [List.length_append, length_padded]
    omega
  have htake : (padded v ++ r).take v.length = v := by
    unfold padded
    rw [List.append_assoc, List.take_left]
  have hoff : nameOff names p < 2 ^ 32 := nameOff_le.trans_lt hn.small
  unfold readProp
  rw [word_be32 hv, Option.bind_eq_bind, Option.bind_some]
  dsimp only
  rw [word_be32 hoff, Option.bind_eq_bind, Option.bind_some]
  dsimp only
  rw [hr', readString_asciiz (hn.plain p hp), Option.bind_some, if_pos hle, htake, drop_padded]
  rfl

theorem nextToken_encode (hn : Names names) (h : Storable names tok) :
    nextToken (stringsBlock names) (encode names tok ++ r) = some (tok, r) := by
  unfold nextToken
  cases tok with
  | beginNode s =>
    change (word (be32 1 ++ padded (asciiz s) ++ r)).bind _ = _
    rw [List.append_assoc, word_be32 (by decide)]
    exact readNode_encode h
  | prop p v =>
    change (word (be32 3 ++ be32 v.length ++ be32 (nameOff names p) ++ padded v ++ r)).bind _ = _
    simp only [List.append_assoc]
    rw [word_be32 (by decide)]
    exact readProp_encode hn h.1 h.2
  | endNode =>
    change (word (be32 2 ++ r)).bind _ = _
    rw [word_be32 (by decide)]
    rfl
  | nop =>
    change (word (be32 4 ++ r)).bind _ = _
    rw [word_be32 (by decide)]
    rfl
  | finish =>
    change (word (be32 9 ++ r)).bind _ = _
    rw [word_be32 (by decide)]
    rfl

/-- **The tokens read back**, if there is fuel for each of them. -/
theorem readTokens_encode (hn : Names names) : ∀ {toks : List Token} {k : ℕ},
    (∀ tok ∈ toks, Storable names tok ∧ tok ≠ .finish) → toks.length < k →
    readTokens (stringsBlock names) k ((toks ++ [Token.finish]).flatMap (encode names) ++ r) = some toks
  | [], k + 1, _, _ => by
    unfold readTokens
    have hnext : nextToken (stringsBlock names) (encode names .finish ++ r) = some (.finish, r) :=
      nextToken_encode hn trivial
    simp only [List.nil_append, List.flatMap_cons, List.flatMap_nil, List.append_nil, hnext]
    rfl
  | tok :: toks, k + 1, h, hk => by
    obtain ⟨⟨htok, hne⟩, htoks⟩ := List.forall_mem_cons.mp h
    rw [List.length_cons] at hk
    unfold readTokens
    rw [List.cons_append, List.flatMap_cons, List.append_assoc, nextToken_encode hn htok]
    change (if tok = .finish then some [] else (readTokens _ k _).bind _) = _
    rw [if_neg hne, readTokens_encode hn htoks (by omega)]
    rfl

end Tokens

/-! ### Trees -/

section Trees

variable {n : Node} {st : List Node} {ps : List (String × Bytes)}

theorem step_props : (ps.map fun a => Token.prop a.1 a.2).foldlM step (n :: st) =
    some (.mk n.name (n.props ++ ps) n.children :: st) := by
  induction ps generalizing n with
  | nil => cases n with
    | mk s qs cs => simp [Node.name, Node.props, Node.children]
  | cons a ps ih =>
    rw [List.map_cons, List.foldlM_cons]
    refine (ih (n := addProp n a.1 a.2)).trans ?_
    simp [addProp, Node.name, Node.props, Node.children]

mutual

/-- **A tree's tokens** add it to the node around it. -/
theorem step_tokens : ∀ (t n : Node) (st : List Node),
    (tokens t).foldlM step (n :: st) = some (addChild n t :: st)
  | .mk s ps cs, n, st => by
    unfold tokens
    rw [List.foldlM_append, List.foldlM_append, List.foldlM_cons]
    change ((((ps.map fun a => Token.prop a.1 a.2).foldlM step (.mk s [] [] :: n :: st)).bind _).bind _) =
      _
    rw [step_props, Option.bind_some, step_tokensOf cs]
    rfl

theorem step_tokensOf : ∀ (cs : List Node) (n : Node) (st : List Node),
    (tokensOf cs).foldlM step (n :: st) = some (.mk n.name n.props (n.children ++ cs) :: st)
  | [], n, st => by
    cases n with
    | mk s ps cs => simp [tokensOf, Node.name, Node.props, Node.children]
  | c :: cs, n, st => by
    unfold tokensOf
    rw [List.foldlM_append, step_tokens c]
    refine (step_tokensOf cs (addChild n c) st).trans ?_
    simp [addChild, Node.name, Node.props, Node.children]

end

theorem build_tokens (t : Node) : build (tokens t) = some t := by
  unfold build
  rw [step_tokens]
  rfl

end Trees

/-! ### The round trip -/

section RoundTrip

variable {names : List String} {t : Node} {toks : List Token}

mutual

theorem finish_notMem_tokens : ∀ t : Node, Token.finish ∉ tokens t
  | .mk s ps cs => by
    unfold tokens
    simp [finish_notMem_tokensOf cs]

theorem finish_notMem_tokensOf : ∀ cs : List Node, Token.finish ∉ tokensOf cs
  | [] => by simp [tokensOf]
  | c :: cs => by
    unfold tokensOf
    simp [finish_notMem_tokens c, finish_notMem_tokensOf cs]

end

/-- A token takes a word at least. -/
theorem length_encode_pos {tok : Token} : 4 ≤ (encode names tok).length := by
  cases tok with
  | _ =>
    unfold encode
    simp only [List.length_append, length_be32]
    omega

theorem length_le_encode (names : List String) : ∀ toks : List Token,
    toks.length ≤ (toks.flatMap (encode names)).length
  | [] => le_rfl
  | tok :: toks => by
    have hpos : 4 ≤ (encode names tok).length := length_encode_pos
    have hle := length_le_encode names toks
    rw [List.flatMap_cons, List.length_append, List.length_cons]
    omega

/-- **What was laid out reads back.** -/
theorem unflatten_flatten (hn : Names names) (ht : ∀ tok ∈ tokens t, Storable names tok)
    (hsmall : (flatten names t).length < 2 ^ 32) : unflatten (flatten names t) = some t := by
  have hnofinish := finish_notMem_tokens t
  have hread : ∀ r k, (structBlock names t).length ≤ k →
      readTokens (stringsBlock names) k (structBlock names t ++ r) = some (tokens t) := by
    intro r k hk
    refine readTokens_encode hn (fun tok htok => ⟨ht tok htok, ?_⟩) ?_
    · rintro rfl
      exact hnofinish htok
    · have hle : (tokens t ++ [Token.finish]).length ≤ _ := length_le_encode names _
      rw [List.length_append, List.length_singleton] at hle
      exact hle.trans hk
  generalize hS : structBlock names t = S at hread
  generalize hX : stringsBlock names = X at hread
  have hflat : flatten names t =
      ((header S.length X.length).flatMap be32 ++ List.replicate 16 0) ++ (S ++ X) := by
    unfold flatten
    rw [hS, hX]
    simp only [List.append_assoc]
  have hhead : ((header S.length X.length).flatMap be32 ++ List.replicate 16 0).length = 56 := by
    simp [header, length_be32]
  have hlen : (flatten names t).length = 56 + (S.length + X.length) := by
    rw [hflat, List.length_append, hhead, List.length_append]
  have hwords : words 10 (flatten names t) = some (header S.length X.length) := by
    rw [hflat, List.append_assoc]
    refine words_be32 (l := header S.length X.length) fun n hn => ?_
    simp only [header, magic, List.mem_cons, List.not_mem_nil, or_false] at hn
    omega
  unfold unflatten
  rw [hwords]
  change (if _ ∧ _ ∧ _ ∧ _ ∧ _ ∧ _ then (readTokens _ _ _).bind build else none) = _
  have hstruct : ((flatten names t).drop 56).take S.length = S := by
    rw [hflat, List.drop_left' hhead, List.take_left]
  have hstrings : ((flatten names t).drop (56 + S.length)).take X.length = X := by
    rw [hflat, ← List.drop_drop, List.drop_left' hhead, List.drop_left, List.take_length]
  rw [if_pos ⟨rfl, by decide, le_rfl, by omega, by omega, by omega⟩, hstruct, hstrings]
  have hall := hread [] (flatten names t).length (by omega)
  rw [List.append_nil] at hall
  rw [hall]
  exact build_tokens t

end RoundTrip

end Ipq4019.Lib.FlatTree
