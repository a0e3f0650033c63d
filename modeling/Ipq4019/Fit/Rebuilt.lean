import Ipq4019.Fit.Rebuild
import Ipq4019.Lib.TreeEdit

/-!
# The rebuilt FIT

What `rebuild_fit` returns, as an edit of the tree it is given (`rebuilt`, `rebuildFit_eq`): the data of
`fdt-1` are replaced and each of its hash nodes is `rehashed`, in a loop that passes each of them once
(`walkHashes_ok`) and ends with the last (`finishes_rebuildFit`); the ramdisk is put in with one hash,
and the configuration refers to it.  From that, what each image of the FIT is afterwards (`image_fdt`,
`image_ramdisk`, `image_other`).
-/

namespace Ipq4019.Fit.Rebuilt

open Ipq4019.Lib.DeviceTree Ipq4019.Lib.DeviceTree.Node Ipq4019.Fit.Rebuild
open Ipq4019.Lib.Digest (toBytes sha1 sha256)

/-! ### The library's calls -/

section Calls

variable {α β : Type} {fits : ℕ → Node → Bool} {fdt fdt' : Fdt} {off o : Offset} {s : String}
  {v : Bytes} {n : Node}

theorem bind_ok {x : Except PyError α} {f : α → Except PyError β} {r : β}
    (h : (do let a ← x; f a) = .ok r) : ∃ a, x = .ok a ∧ f a = .ok r := by
  cases x with
  | error e => cases h
  | ok a => exact ⟨a, rfl, h⟩

theorem exists_of_isOk {x : Except PyError α} (h : x.isOk = true) : ∃ a, x = .ok a := by
  cases x with
  | error e => exact nomatch h
  | ok a => exact ⟨a, rfl⟩

/-- The call does not go on for ever. -/
def Finishes (x : Except PyError α) : Prop := x ≠ .error .unfinished

theorem Finishes.bind {x : Except PyError α} {f : α → Except PyError β} (hx : Finishes x)
    (hf : ∀ a, x = .ok a → Finishes (f a)) : Finishes (do let a ← x; f a) := by
  cases x with
  | error e => exact fun h => hx (congrArg Except.error (Except.error.inj h))
  | ok a => exact hf a rfl

theorem finishes_lift {x : Except FdtError α} : Finishes (lift x) := by
  cases x with
  | error e => exact fun h => nomatch Except.error.inj h
  | ok a => exact fun h => nomatch h

theorem lift_ok {x : Except FdtError α} {a : α} (h : lift x = .ok a) : x = .ok a := by
  cases x with
  | error e => cases h
  | ok b => exact congrArg Except.ok (Except.ok.inj h)

theorem store_ok {t : Node} (h : fdt.store fits t = .ok fdt') : fdt'.tree = t := by
  unfold Fdt.store at h
  split at h
  · cases h
    rfl
  · cases h

theorem resize_ok {k : ℕ} (h : lift (resize fits fdt k) = .ok fdt') : fdt'.tree = fdt.tree :=
  store_ok (lift_ok h)

/-- An edited property. -/
theorem setprop_ok (h : lift (setprop fits fdt off s v) = .ok fdt') :
    fdt'.tree = modify (fun c => c.set s v) off fdt.tree := by
  have hs := lift_ok h
  unfold setprop at hs
  split at hs
  · cases hs
  · exact store_ok hs

/-- A subnode that is found. -/
theorem subnodeOffset_ok (h : subnodeOffset fdt off s = .ok o) :
    ∃ c i d, fdt.tree.at' off = some c ∧ c.index s = some i ∧ o = off ++ [i] ∧ c.subnode s = some d ∧
      fdt.tree.at' o = some d := by
  unfold subnodeOffset at h
  split at h
  · cases h
  · rename_i c hc
    split at h
    · cases h
    · rename_i i hi
      cases h
      obtain ⟨d, hd, -⟩ := index_eq_some hi
      refine ⟨c, i, d, hc, hi, rfl, ?_, ?_⟩
      · rw [subnode_eq, hi]
        exact hd
      · rw [at_append, hc]
        simp [at', hd]

/-- One that is not. -/
theorem subnodeOffset_error {e : FdtError} (hn : fdt.tree.at' off = some n)
    (h : subnodeOffset fdt off s = .error e) : n.index s = none := by
  unfold subnodeOffset at h
  rw [hn] at h
  dsimp only at h
  split at h
  · assumption
  · cases h

/-- A property that is not there. -/
theorem getprop_error {e : FdtError} (hn : fdt.tree.at' off = some n)
    (h : getprop fdt off s = .error e) : n.get s = none := by
  unfold getprop at h
  rw [hn] at h
  dsimp only at h
  split at h
  · assumption
  · cases h

theorem getprop_ok (hn : fdt.tree.at' off = some n) (h : getprop fdt off s = .ok v) :
    n.get s = some v := by
  unfold getprop at h
  rw [hn] at h
  dsimp only at h
  split at h
  · cases h
  · rename_i w hw
    cases h
    exact hw

/-- A node that was there or is added: where an edit of it leaves the tree. -/
theorem subnodeOrAdd_ok (hn : fdt.tree.at' off = some n)
    (h : subnodeOrAdd fits fdt off s = .ok (fdt', o)) : (∃ c, fdt'.tree.at' o = some c) ∧
      ∀ f, modify f o fdt'.tree = modify (edit s f) off fdt.tree := by
  unfold subnodeOrAdd at h
  split at h
  · rename_i o' ho
    cases h
    obtain ⟨c, i, d, hc, hi, rfl, -, hd⟩ := subnodeOffset_ok ho
    obtain rfl : n = c := Option.some.inj (hn.symm.trans hc)
    refine ⟨⟨d, hd⟩, fun f => ?_⟩
    rw [modify_append]
    refine modify_congr hn ?_
    unfold edit
    rw [hi]
  · rename_i e he
    have hnone := subnodeOffset_error hn he
    have ha := lift_ok h
    unfold addSubnode at ha
    rw [hn] at ha
    dsimp only at ha
    split at ha
    · cases ha
    · cases hst : fdt.store fits (modify (fun n => n.setChildren (.mk s [] [] :: n.children)) off
          fdt.tree) with
      | error e => rw [hst] at ha; cases ha
      | ok fdt₁ =>
        rw [hst] at ha
        cases ha
        have htree := store_ok hst
        refine ⟨⟨.mk s [] [], ?_⟩, fun f => ?_⟩
        · rw [htree, at_append, at_modify, hn]
          rfl
        · rw [htree, modify_append, modify_modify]
          refine modify_congr hn ?_
          unfold edit
          rw [hnone]
          rfl

end Calls

/-! ### The walk -/

variable {fits : ℕ → Node → Bool} {fdt fdt' : Fdt} {data : Bytes} {p : Offset} {i k : ℕ} {n c : Node}

/-- The value that the loop sets for an algorithm. -/
def newValue (data : Bytes) (algo : String) : Option Bytes :=
  if algo = "crc32" then some (toBytes 4 (crc32Of data).toNat)
  else if algo = "sha1" then some (sha1 data)
  else if algo = "sha256" then some (sha256 data)
  else none

/-- The name of the algorithm. -/
def algoOf (c : Node) : Option String :=
  (c.get "algo").bind fun b => (decodeStripped b).toOption

def setValue (v : Option Bytes) (c : Node) : Node := v.elim c (c.set "value")

theorem algoOf_set {v : Bytes} : algoOf (c.set "value" v) = algoOf c := by
  unfold algoOf
  rw [get_set_ne (by decide)]

/-- A hash node after the loop. -/
def rehashed (data : Bytes) (c : Node) : Node := setValue ((algoOf c).bind (newValue data)) c

/-- The subnodes from the `i`-th on. -/
def rehashedFrom (data : Bytes) (i : ℕ) (n : Node) : Node :=
  n.setChildren (n.children.mapIdx fun j c => if i ≤ j then rehashed data c else c)

/-- The offset of the `i`-th subnode. -/
def cursor (fdt : Fdt) (p : Offset) (i : ℕ) : Option Offset :=
  (fdt.tree.at' (p ++ [i])).map fun _ => p ++ [i]

theorem nextSubnode_eq : nextSubnode fdt (p ++ [i]) = cursor fdt p (i + 1) := by
  unfold nextSubnode cursor
  simp

theorem at_child (hn : fdt.tree.at' p = some n) : fdt.tree.at' (p ++ [i]) = n.children[i]? := by
  rw [at_append, hn]
  change n.children[i]?.bind _ = _
  simp [at']

theorem refreshHash_ok {algo : String} (hc : fdt.tree.at' p = some c)
    (h : refreshHash fits data fdt p algo = .ok fdt') :
    fdt'.tree = modify (setValue (newValue data algo)) p fdt.tree := by
  unfold refreshHash at h
  unfold newValue
  split_ifs at h ⊢ with h₁ h₂ h₃
  · exact setprop_ok h
  · exact setprop_ok h
  · exact setprop_ok h
  · cases h
    exact (modify_self hc rfl).symm

theorem finishes_decodeStripped {b : Bytes} : Finishes (decodeStripped b) := by
  unfold decodeStripped
  split
  · exact fun h => nomatch h
  · exact fun h => nomatch Except.error.inj h

theorem finishes_refreshHash {algo : String} : Finishes (refreshHash fits data fdt p algo) := by
  unfold refreshHash
  split_ifs
  · exact finishes_lift
  · exact finishes_lift
  · exact finishes_lift
  · exact fun h => nomatch h

/-- One subnode is done. -/
theorem rehashedFrom_step :
    rehashedFrom data (i + 1) (modify (rehashed data) [i] n) = rehashedFrom data i n := by
  refine congrArg n.setChildren (List.ext_getElem? fun j => ?_)
  change (List.mapIdx _ (n.children.modify i _))[j]? = _
  rw [List.getElem?_mapIdx, List.getElem?_mapIdx, List.getElem?_modify]
  cases n.children[j]? with
  | none => rfl
  | some d =>
    rcases Nat.lt_trichotomy i j with hij | hij | hij
    · have h₁ : i + 1 ≤ j := hij
      simp [h₁, hij.ne, hij.le]
    · subst hij
      have h₁ : ¬i + 1 ≤ i := by omega
      simp [h₁, Node.modify]
    · have h₁ : ¬i + 1 ≤ j := by omega
      have h₂ : ¬i ≤ j := by omega
      simp [h₁, h₂, hij.ne']

theorem rehashedFrom_end (hc : n.children[i]? = none) : rehashedFrom data i n = n := by
  have hlen := List.getElem?_eq_none_iff.mp hc
  have hcs : n.children.mapIdx (fun j c => if i ≤ j then rehashed data c else c) = n.children := by
    refine List.ext_getElem? fun j => ?_
    rw [List.getElem?_mapIdx]
    by_cases hj : i ≤ j
    · rw [List.getElem?_eq_none (by omega)]
      rfl
    · simp [hj]
  unfold rehashedFrom
  rw [hcs]
  cases n with
  | mk name ps cs => rfl

/-- **The walk**: it passes every subnode once. -/
theorem walkHashes_ok (hn : fdt.tree.at' p = some n)
    (h : walkHashes fits data k fdt (cursor fdt p i) = .ok fdt') :
    fdt'.tree = modify (rehashedFrom data i) p fdt.tree := by
  induction k generalizing fdt n i with
  | zero =>
    unfold cursor at h
    rw [at_child hn] at h
    cases hc : n.children[i]? with
    | none =>
      rw [hc] at h
      cases h
      exact (modify_self hn (rehashedFrom_end hc)).symm
    | some c => rw [hc] at h; cases h
  | succ k ih =>
    cases hc : n.children[i]? with
    | none =>
      have hcur : cursor fdt p i = none := by unfold cursor; rw [at_child hn, hc]; rfl
      rw [hcur] at h
      cases h
      exact (modify_self hn (rehashedFrom_end hc)).symm
    | some c =>
      have hat : fdt.tree.at' (p ++ [i]) = some c := (at_child hn).trans hc
      have hcur : cursor fdt p i = some (p ++ [i]) := by unfold cursor; rw [hat]; rfl
      rw [hcur] at h
      unfold walkHashes at h
      -- After one round the `i`-th subnode is rehashed, whether the loop has set a value or not.
      have hround : ∃ fdt₁, fdt₁.tree = modify (rehashed data) (p ++ [i]) fdt.tree ∧
          walkHashes fits data k fdt₁ (cursor fdt₁ p (i + 1)) = .ok fdt' := by
        cases hg : getprop fdt (p ++ [i]) "algo" with
        | error e =>
          rw [hg] at h
          dsimp only at h
          rw [nextSubnode_eq] at h
          refine ⟨fdt, (modify_self hat ?_).symm, h⟩
          unfold rehashed algoOf
          rw [getprop_error hat hg]
          rfl
        | ok b =>
          rw [hg] at h
          obtain ⟨algo, hd, h⟩ := bind_ok h
          obtain ⟨fdt₁, hr, h⟩ := bind_ok h
          rw [nextSubnode_eq] at h
          refine ⟨fdt₁, ?_, h⟩
          rw [refreshHash_ok hat hr]
          refine modify_congr hat ?_
          unfold rehashed algoOf
          rw [getprop_ok hat hg, Option.bind_some, hd]
          rfl
      obtain ⟨fdt₁, ht, hrest⟩ := hround
      have hn₁ : fdt₁.tree.at' p = some (modify (rehashed data) [i] n) := by
        rw [ht, modify_append, at_modify, hn]
        rfl
      rw [ih hn₁ hrest, ht, modify_append, modify_modify]
      exact modify_congr hn rehashedFrom_step

/-- And it ends with the last one. -/
theorem walkHashes_finishes (hn : fdt.tree.at' p = some n) (hk : n.children.length ≤ i + k) :
    Finishes (walkHashes fits data k fdt (cursor fdt p i)) := by
  induction k generalizing fdt n i with
  | zero =>
    have hcur : cursor fdt p i = none := by
      unfold cursor
      rw [at_child hn, List.getElem?_eq_none (by omega)]
      rfl
    rw [hcur]
    exact fun h => nomatch h
  | succ k ih =>
    cases hc : n.children[i]? with
    | none =>
      have hcur : cursor fdt p i = none := by unfold cursor; rw [at_child hn, hc]; rfl
      rw [hcur]
      exact fun h => nomatch h
    | some c =>
      have hat : fdt.tree.at' (p ++ [i]) = some c := (at_child hn).trans hc
      have hcur : cursor fdt p i = some (p ++ [i]) := by unfold cursor; rw [hat]; rfl
      rw [hcur]
      unfold walkHashes
      cases hg : getprop fdt (p ++ [i]) "algo" with
      | error e =>
        dsimp only
        rw [nextSubnode_eq]
        exact ih hn (by omega)
      | ok b =>
        refine Finishes.bind finishes_decodeStripped fun algo _ => ?_
        refine Finishes.bind finishes_refreshHash fun fdt₁ hr => ?_
        rw [nextSubnode_eq]
        have hn₁ : fdt₁.tree.at' p = some (Node.modify (setValue (newValue data algo)) [i] n) := by
          rw [refreshHash_ok hat hr, modify_append, at_modify, hn]
          rfl
        refine ih hn₁ ?_
        change (n.children.modify i _).length ≤ _
        rw [List.length_modify]
        omega

theorem finishes_subnodeOrAdd {s : String} : Finishes (subnodeOrAdd fits fdt p s) := by
  unfold subnodeOrAdd
  split
  · exact fun h => nomatch h
  · exact finishes_lift

theorem finishes_addRamdisk {rd : Bytes} : Finishes (addRamdisk fits p rd fdt) := by
  unfold addRamdisk
  refine Finishes.bind finishes_subnodeOrAdd fun ⟨_, _⟩ _ => ?_
  refine Finishes.bind finishes_lift fun _ _ => ?_
  refine Finishes.bind finishes_lift fun _ _ => ?_
  refine Finishes.bind finishes_lift fun _ _ => ?_
  refine Finishes.bind finishes_lift fun _ _ => ?_
  refine Finishes.bind finishes_lift fun _ _ => ?_
  refine Finishes.bind finishes_lift fun _ _ => ?_
  refine Finishes.bind finishes_subnodeOrAdd fun ⟨_, _⟩ _ => ?_
  refine Finishes.bind finishes_lift fun _ _ => ?_
  refine Finishes.bind finishes_lift fun _ _ => ?_
  refine Finishes.bind finishes_lift fun _ _ => ?_
  exact Finishes.bind finishes_lift fun _ _ => finishes_lift

/-- **The tool returns or raises**: the number of subnodes is enough for the walk. -/
theorem finishes_rebuildFit {orig : Fdt} {dtb : Bytes} {ramdisk : Option Bytes} :
    Finishes (rebuildFit fits orig dtb ramdisk) := by
  unfold rebuildFit
  refine Finishes.bind finishes_lift fun fdt₀ _ => ?_
  refine Finishes.bind finishes_lift fun images _ => ?_
  refine Finishes.bind finishes_lift fun off _ => ?_
  refine Finishes.bind finishes_lift fun fdt₁ _ => ?_
  have hwalk : Finishes (walkHashes fits dtb (subnodes fdt₁ off) fdt₁ (firstSubnode fdt₁ off)) := by
    unfold subnodes
    cases hn : fdt₁.tree.at' off with
    | none =>
      unfold firstSubnode
      rw [at_append, hn]
      exact fun h => nomatch h
    | some n =>
      have hk : n.children.length ≤ 0 + n.children.length := by omega
      exact walkHashes_finishes hn hk
  refine Finishes.bind hwalk fun fdt₂ _ => ?_
  refine Finishes.bind ?_ fun _ _ => fun h => nomatch h
  cases ramdisk with
  | none => exact fun h => nomatch h
  | some rd => exact finishes_addRamdisk

/-! ### The FIT that is written -/

/-- An image of a FIT. -/
def image (t : Node) (s : String) : Option Node := (t.subnode "images").bind fun n => n.subnode s

/-- The image of the device tree. -/
def dtbImage (dtb : Bytes) (n : Node) : Node := rehashedFrom dtb 0 (n.set "data" dtb)

/-- The ramdisk's hash. -/
def rdHash (rd : Bytes) (c : Node) : Node := (c.set "algo" (cstr "sha1")).set "value" (sha1 rd)

def rdProps (rd : Bytes) (n : Node) : Node :=
  (((((n.set "description" (cstr "OpenWrt overlay initramfs")).set "data" rd).set "type"
    (cstr "ramdisk")).set "arch" (cstr "arm")).set "os" (cstr "linux")).set "compression"
    (cstr "none")

/-- The ramdisk's image. -/
def rdImage (rd : Bytes) (n : Node) : Node := edit "hash-1" (rdHash rd) (rdProps rd n)

/-- The image of the device tree is given new data. -/
def putDtb (dtb : Bytes) : Node → Node := within "images" (within "fdt-1" (dtbImage dtb))

def refRamdisk (n : Node) : Node := n.set "ramdisk" (cstr "ramdisk-1")

/-- The ramdisk is put in, and the configuration refers to it. -/
def putRamdisk (rd : Bytes) (t : Node) : Node :=
  within "configurations" (within "config@1" refRamdisk)
    (within "images" (edit "ramdisk-1" (rdImage rd)) t)

/-- The configuration refers to the ramdisk. -/
def Refers (t : Node) : Prop := ∃ cfg, resolve ["configurations", "config@1"] t = some cfg ∧
  cfg.get "ramdisk" = some (cstr "ramdisk-1")

def rebuilt (dtb : Bytes) (ramdisk : Option Bytes) (t : Node) : Node :=
  ramdisk.elim (putDtb dtb t) fun rd => putRamdisk rd (putDtb dtb t)

section Images

variable {orig : Fdt} {t : Node} {s : String} {dtb rd : Bytes} {ramdisk : Option Bytes}

theorem named_refRamdisk : Named refRamdisk := fun _ => rfl

theorem named_dtbImage : Named (dtbImage dtb) := fun _ => rfl

theorem named_rdImage : Named (rdImage rd) := fun _ => name_edit

theorem children_dtbImage : (dtbImage dtb n).children = n.children.map (rehashed dtb) := by
  change n.children.mapIdx _ = _
  refine List.ext_getElem? fun j => ?_
  rw [List.getElem?_mapIdx, List.getElem?_map]
  simp

theorem apart_images : Apart "configurations" "images" :=
  apart_of_ne (by decide) (by decide) (by decide)

theorem apart_fdt : Apart "fdt-1" "ramdisk-1" := apart_of_ne (by decide) (by decide) (by decide)

theorem addRamdisk_ok (hn : fdt.tree.at' p = some n) (h : addRamdisk fits p rd fdt = .ok fdt') :
    fdt'.tree = within "configurations" (within "config@1" refRamdisk)
      (Node.modify (edit "ramdisk-1" (rdImage rd)) p fdt.tree) ∧ Refers fdt'.tree := by
  unfold addRamdisk at h
  obtain ⟨⟨fdt₁, rdOff⟩, hadd, h⟩ := bind_ok h
  obtain ⟨fdt₂, h₂, h⟩ := bind_ok h
  obtain ⟨fdt₃, h₃, h⟩ := bind_ok h
  obtain ⟨fdt₄, h₄, h⟩ := bind_ok h
  obtain ⟨fdt₅, h₅, h⟩ := bind_ok h
  obtain ⟨fdt₆, h₆, h⟩ := bind_ok h
  obtain ⟨fdt₇, h₇, h⟩ := bind_ok h
  obtain ⟨⟨fdt₈, hOff⟩, hhash, h⟩ := bind_ok h
  obtain ⟨fdt₉, h₉, h⟩ := bind_ok h
  obtain ⟨fdt₁₀, h₁₀, h⟩ := bind_ok h
  obtain ⟨configs, hconfigs, h⟩ := bind_ok h
  obtain ⟨cfg, hcfg, h⟩ := bind_ok h
  obtain ⟨⟨c, hc⟩, hrd⟩ := subnodeOrAdd_ok hn hadd
  have hprops : fdt₇.tree = Node.modify (rdProps rd) rdOff fdt₁.tree := by
    rw [setprop_ok h₇, setprop_ok h₆, setprop_ok h₅, setprop_ok h₄, setprop_ok h₃, setprop_ok h₂]
    simp only [modify_modify]
    rfl
  have hc₇ : fdt₇.tree.at' rdOff = some (rdProps rd c) := by
    rw [hprops, at_modify, hc]
    rfl
  obtain ⟨-, hset⟩ := subnodeOrAdd_ok hc₇ hhash
  have himage : fdt₁₀.tree = Node.modify (edit "ramdisk-1" (rdImage rd)) p fdt.tree :=
    calc fdt₁₀.tree
        = Node.modify (rdHash rd) hOff fdt₈.tree := by
          rw [setprop_ok h₁₀, setprop_ok h₉, modify_modify]
          rfl
      _ = Node.modify (edit "hash-1" (rdHash rd)) rdOff fdt₇.tree := hset _
      _ = Node.modify (rdImage rd) rdOff fdt₁.tree := by
          rw [hprops, modify_modify]
          rfl
      _ = _ := hrd _
  have hpath : pathOffset fdt₁₀ ["configurations", "config@1"] = .ok cfg := by
    unfold pathOffset
    rw [List.foldlM_cons, lift_ok hconfigs]
    change (subnodeOffset fdt₁₀ configs "config@1").bind _ = _
    rw [lift_ok hcfg]
    rfl
  have htree : fdt'.tree = alter ["configurations", "config@1"] refRamdisk fdt₁₀.tree :=
    (setprop_ok h).trans (pathOffset_alter hpath).2
  obtain ⟨node, -, hres⟩ := pathOffset_resolve hpath
  refine ⟨by rw [htree, himage]; rfl, refRamdisk node, ?_, get_set.trans (if_pos rfl)⟩
  rw [htree, resolve_alter named_refRamdisk, hres]
  rfl

/-- **`rebuild_fit`** puts the images in. -/
theorem rebuildFit_eq (h : rebuildFit fits orig dtb ramdisk = .ok t) :
    (∃ n, image orig.tree "fdt-1" = some n) ∧ t = rebuilt dtb ramdisk orig.tree ∧
      ∀ rd, ramdisk = some rd → Refers t := by
  obtain ⟨fdt₀, h₀, h⟩ := bind_ok h
  obtain ⟨imagesOff, himages, h⟩ := bind_ok h
  obtain ⟨fdtOff, hfdt, h⟩ := bind_ok h
  obtain ⟨fdt₁, h₁, h⟩ := bind_ok h
  obtain ⟨fdt₂, h₂, h⟩ := bind_ok h
  obtain ⟨fdt₃, h₃, h⟩ := bind_ok h
  cases h
  have ht₀ := resize_ok h₀
  obtain ⟨root, i, images, hroot, hi, rfl, himg, hat⟩ := subnodeOffset_ok (lift_ok himages)
  cases hroot
  obtain ⟨images', j, n, hat', hj, rfl, hn, hatn⟩ := subnodeOffset_ok (lift_ok hfdt)
  obtain rfl : images = images' := Option.some.inj (hat.symm.trans hat')
  have hn₁ : fdt₁.tree.at' ([] ++ [i] ++ [j]) = some (n.set "data" dtb) := by
    rw [setprop_ok h₁, at_modify, hatn]
    rfl
  have h₂₀ : fdt₂.tree = putDtb dtb fdt₀.tree :=
    calc fdt₂.tree
        = Node.modify (rehashedFrom dtb 0) ([] ++ [i] ++ [j]) fdt₁.tree := walkHashes_ok hn₁ h₂
      _ = Node.modify (dtbImage dtb) ([] ++ [i] ++ [j]) fdt₀.tree := by
          rw [setprop_ok h₁, modify_modify]
          rfl
      _ = Node.modify (Node.modify (dtbImage dtb) [j]) ([] ++ [i]) fdt₀.tree := modify_append
      _ = Node.modify (within "fdt-1" (dtbImage dtb)) ([] ++ [i]) fdt₀.tree :=
          modify_congr hat (within_eq_modify hj).symm
      _ = putDtb dtb fdt₀.tree := (within_eq_modify hi).symm
  refine ⟨⟨n, ?_⟩, ?_⟩
  · unfold image
    rw [← ht₀, himg]
    exact hn
  cases ramdisk with
  | none =>
    cases h₃
    rw [h₂₀, ht₀]
    exact ⟨rfl, fun rd hrd => nomatch hrd⟩
  | some rd =>
    have hi₂ : fdt₂.tree.index "images" = some i := by
      rw [h₂₀]
      exact (index_within named_within).trans hi
    obtain ⟨im, him, -⟩ := index_eq_some hi₂
    have hat₂ : fdt₂.tree.at' ([] ++ [i]) = some im := by
      change fdt₂.tree.children[i]?.bind _ = _
      rw [him]
      rfl
    obtain ⟨htree, href⟩ := addRamdisk_ok hat₂ h₃
    refine ⟨?_, fun _ _ => href⟩
    rw [htree]
    change _ = putRamdisk rd (putDtb dtb orig.tree)
    unfold putRamdisk
    rw [← ht₀, ← h₂₀, within_eq_modify hi₂]
    rfl

/-- An image of the FIT that is written. -/
theorem image_rebuilt {d : Bytes} {s : String} : image (rebuilt d ramdisk t) s =
    (t.subnode "images").bind fun images => (ramdisk.elim (within "fdt-1" (dtbImage d) images)
      fun rd => edit "ramdisk-1" (rdImage rd) (within "fdt-1" (dtbImage d) images)).subnode s := by
  unfold image rebuilt
  cases ramdisk with
  | none =>
    change ((putDtb d t).subnode "images").bind _ = _
    unfold putDtb
    rw [subnode_within named_within, Option.bind_map]
    rfl
  | some rd =>
    change ((putRamdisk rd (putDtb d t)).subnode "images").bind _ = _
    unfold putRamdisk putDtb
    rw [subnode_within_ne named_within apart_images, subnode_within named_edit,
      subnode_within named_within, Option.map_map, Option.bind_map]
    rfl

/-- **The device tree's image**, in the FIT that is written. -/
theorem image_fdt (h : image t "fdt-1" = some n) :
    image (rebuilt dtb ramdisk t) "fdt-1" = some (dtbImage dtb n) := by
  obtain ⟨images, himages, hfdt⟩ := Option.bind_eq_some_iff.mp h
  rw [image_rebuilt, himages, Option.bind_some]
  cases ramdisk with
  | none =>
    change (within "fdt-1" (dtbImage dtb) images).subnode "fdt-1" = _
    rw [subnode_within named_dtbImage, hfdt]
    rfl
  | some rd =>
    change (edit "ramdisk-1" (rdImage rd) (within "fdt-1" (dtbImage dtb) images)).subnode "fdt-1" = _
    rw [subnode_edit_apart named_rdImage apart_fdt.symm, subnode_within named_dtbImage, hfdt]
    rfl

/-- **The ramdisk's**: the one that was there, or a new one. -/
theorem image_ramdisk (h : image t "fdt-1" = some n) : image (rebuilt dtb (some rd) t) "ramdisk-1" =
    some (rdImage rd ((image t "ramdisk-1").getD (.mk "ramdisk-1" [] []))) := by
  obtain ⟨images, himages, -⟩ := Option.bind_eq_some_iff.mp h
  have hbefore : image t "ramdisk-1" = (within "fdt-1" (dtbImage dtb) images).subnode "ramdisk-1" := by
    rw [subnode_within_ne named_dtbImage apart_fdt]
    unfold image
    rw [himages]
    rfl
  rw [image_rebuilt, himages, Option.bind_some, hbefore]
  exact subnode_edit named_rdImage

/-- **The others** are as they were. -/
theorem image_other (hfdt : Apart "fdt-1" s) (hrd : ∀ rd, ramdisk = some rd → Apart "ramdisk-1" s) :
    image (rebuilt dtb ramdisk t) s = image t s := by
  rw [image_rebuilt]
  unfold image
  refine congrArg _ (funext fun images => ?_)
  cases ramdisk with
  | none => exact subnode_within_ne named_dtbImage hfdt
  | some rd =>
    exact (subnode_edit_apart named_rdImage (hrd rd rfl)).trans (subnode_within_ne named_dtbImage hfdt)

end Images

end Ipq4019.Fit.Rebuilt
