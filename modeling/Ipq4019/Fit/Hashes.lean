import Ipq4019.Fit.Rebuilt

/-!
# The hashes of a rebuilt FIT

`rebuild_fit` replaces the data of two images.  Below `fdt-1` the loop passes each subnode once and
leaves it `rehashed`; of `ramdisk-1` one hash is set, the subnode of the name `hash-1`.

* `fresh_iff`: a digest that a subnode names is the digest of the image's new data exactly where the
  hashes the tool passes by were right for that data beforehand: those of `fdt-1` that name another
  digest than the three it knows, and those of the ramdisk under another name.
* `stale_hashes`: two such hashes.
-/

namespace Ipq4019.Fit.Hashes

open Ipq4019.Lib.DeviceTree Ipq4019.Lib.DeviceTree.Node Ipq4019.Fit.Rebuild Ipq4019.Fit.Rebuilt
open Ipq4019.Lib
open Ipq4019.Lib.Digest (toBytes crc32 sha1 sha256 sha384 sha512)

variable {fits : ℕ → Node → Bool} {data dtb : Bytes} {n c t : Node} {orig : Fdt}
  {ramdisk : Option Bytes}

/-- **The two images** of the FIT that is returned. -/
theorem rebuildFit_ok (h : rebuildFit fits orig dtb ramdisk = .ok t) :
    (∃ n, image orig.tree "fdt-1" = some n ∧ image t "fdt-1" = some (dtbImage dtb n)) ∧
      ∀ rd, ramdisk = some rd → image t "ramdisk-1" =
        some (rdImage rd ((image orig.tree "ramdisk-1").getD (.mk "ramdisk-1" [] []))) := by
  obtain ⟨⟨n, hn⟩, rfl, -⟩ := rebuildFit_eq h
  refine ⟨⟨n, hn, image_fdt hn⟩, fun rd hrd => ?_⟩
  subst hrd
  exact image_ramdisk hn

/-! ### The hashes -/

/-- The digests that a reader of FITs knows, by their names: among them those that the tool knows. -/
structure Digests where
  digest : String → Option (Bytes → Bytes)
  crc32 : digest "crc32" = some fun data => toBytes 4 (Digest.crc32 data).toNat
  sha1 : digest "sha1" = some Digest.sha1
  sha256 : digest "sha256" = some Digest.sha256

variable {D : Digests} {rd : Bytes}

/-- The value of a node that names a digest is that digest of the data. -/
def Right (D : Digests) (data : Bytes) (c : Node) : Prop :=
  ∀ algo d v, algoOf c = some algo → D.digest algo = some d → c.get "value" = some v → v = d data

/-- **No stale hash** in an image whose data are `data`. -/
def FreshImage (D : Digests) (data : Bytes) (n : Node) : Prop :=
  n.get "data" = some data ∧ ∀ c ∈ n.children, Right D data c

/-- Nor in the images whose data were replaced. -/
structure Fresh (D : Digests) (t : Node) (dtb : Bytes) (ramdisk : Option Bytes) : Prop where
  fdt : ∃ n, image t "fdt-1" = some n ∧ FreshImage D dtb n
  ramdisk : ∀ rd, ramdisk = some rd → ∃ n, image t "ramdisk-1" = some n ∧ FreshImage D rd n

/-- The digests that the loop computes. -/
def loopAlgos : List String := ["crc32", "sha1", "sha256"]

/-- Which hashes have to be right for the new data already: those that the tool passes by. -/
structure RightBefore (D : Digests) (t : Node) (dtb : Bytes) (ramdisk : Option Bytes) : Prop where
  fdt : ∀ n, image t "fdt-1" = some n → ∀ c ∈ n.children, ∀ algo, algoOf c = some algo →
    algo ∉ loopAlgos → Right D dtb c
  ramdisk : ∀ rd, ramdisk = some rd → ∀ n, image t "ramdisk-1" = some n →
    ∀ i c, n.children[i]? = some c → n.index "hash-1" ≠ some i → Right D rd c

theorem crc32Of_eq : crc32Of data = Digest.crc32 data := by
  have hbits : ∀ x : UInt32, x &&& 0xffffffff = x := by
    intro x
    refine UInt32.toBitVec_inj.mp ?_
    rw [UInt32.toBitVec_and]
    exact BitVec.and_allOnes
  exact hbits _

theorem newValue_of_mem {algo : String} (h : algo ∈ loopAlgos) :
    ∃ d, D.digest algo = some d ∧ newValue data algo = some (d data) := by
  unfold loopAlgos at h
  simp only [List.mem_cons, List.not_mem_nil, or_false] at h
  rcases h with rfl | rfl | rfl
  · refine ⟨_, D.crc32, ?_⟩
    rw [← crc32Of_eq]
    rfl
  · exact ⟨_, D.sha1, rfl⟩
  · exact ⟨_, D.sha256, rfl⟩

theorem newValue_of_not_mem {algo : String} (h : algo ∉ loopAlgos) : newValue data algo = none := by
  unfold loopAlgos at h
  simp only [List.mem_cons, List.not_mem_nil, or_false, not_or] at h
  unfold newValue
  rw [if_neg h.1, if_neg h.2.1, if_neg h.2.2]

/-- A hash node of the device tree after the loop. -/
theorem right_rehashed : Right D data (rehashed data c) ↔
    ∀ algo, algoOf c = some algo → algo ∉ loopAlgos → Right D data c := by
  unfold rehashed
  cases ha : algoOf c with
  | none =>
    refine ⟨fun h algo hal => (nomatch hal), fun _ algo d v hal => ?_⟩
    rw [Option.bind_none] at hal
    exact nomatch ha.symm.trans hal
  | some algo =>
    rw [Option.bind_some]
    by_cases hm : algo ∈ loopAlgos
    · obtain ⟨d, hd, hv⟩ : ∃ d, D.digest algo = some d ∧ newValue data algo = some (d data) :=
        newValue_of_mem hm
      rw [hv]
      refine ⟨fun _ algo' hal hn => absurd (Option.some.inj hal ▸ hm) hn,
        fun _ algo' d' v' hal hd' hg => ?_⟩
      change algoOf (c.set "value" _) = _ at hal
      rw [algoOf_set, ha] at hal
      cases hal
      change (c.set "value" _).get "value" = _ at hg
      rw [get_set, if_pos rfl] at hg
      rw [hd] at hd'
      cases hd'
      exact (Option.some.inj hg).symm
    · rw [newValue_of_not_mem hm]
      refine ⟨fun h algo' hal _ => h, fun h => h algo rfl hm⟩

/-- The ramdisk's hash is right. -/
theorem right_rdHash : Right D rd (rdHash rd c) := by
  intro algo d v hal hd hv
  have halgo : algoOf (rdHash rd c) = some "sha1" := by
    unfold rdHash
    rw [algoOf_set]
    unfold algoOf
    rw [get_set, if_pos rfl]
    rfl
  rw [halgo] at hal
  cases hal
  rw [D.sha1] at hd
  cases hd
  unfold rdHash at hv
  rw [get_set, if_pos rfl] at hv
  exact (Option.some.inj hv).symm

theorem freshImage_dtbImage : FreshImage D dtb (dtbImage dtb n) ↔
    ∀ c ∈ n.children, ∀ algo, algoOf c = some algo → algo ∉ loopAlgos → Right D dtb c := by
  have hdata : (dtbImage dtb n).get "data" = some dtb := get_set.trans (if_pos rfl)
  unfold FreshImage
  rw [children_dtbImage, List.forall_mem_map]
  simp only [hdata, true_and, right_rehashed]

theorem freshImage_rdImage : FreshImage D rd (rdImage rd n) ↔
    ∀ i c, n.children[i]? = some c → n.index "hash-1" ≠ some i → Right D rd c := by
  have hdata : (rdImage rd n).get "data" = some rd := by
    unfold rdImage rdProps
    rw [get_edit, get_set_ne (by decide), get_set_ne (by decide), get_set_ne (by decide),
      get_set_ne (by decide), get_set, if_pos rfl]
  unfold FreshImage rdImage
  rw [forall_edit]
  exact ⟨fun h => h.2.2, fun h => ⟨hdata, right_rdHash, h⟩⟩

section

variable (h : rebuildFit fits orig dtb ramdisk = .ok t)
include h

theorem Fresh.rightBefore (hfresh : Fresh D t dtb ramdisk) : RightBefore D orig.tree dtb ramdisk := by
  obtain ⟨⟨n, hn, ht⟩, hrd⟩ := rebuildFit_ok h
  obtain ⟨⟨n₁, hn₁, hdtb⟩, hram⟩ := hfresh
  cases ht.symm.trans hn₁
  refine ⟨fun n' hn' => ?_, fun rd hr n' hn' => ?_⟩
  · cases hn.symm.trans hn'
    exact freshImage_dtbImage.mp hdtb
  · obtain ⟨n₂, hn₂, hfresh₂⟩ := hram rd hr
    cases (hrd rd hr).symm.trans hn₂
    rw [hn'] at hfresh₂
    exact freshImage_rdImage.mp hfresh₂

theorem RightBefore.fresh (hright : RightBefore D orig.tree dtb ramdisk) : Fresh D t dtb ramdisk := by
  obtain ⟨⟨n, hn, ht⟩, hrd⟩ := rebuildFit_ok h
  refine ⟨⟨_, ht, freshImage_dtbImage.mpr (hright.fdt n hn)⟩, fun rd hr => ⟨_, hrd rd hr, ?_⟩⟩
  refine freshImage_rdImage.mpr ?_
  cases hn' : image orig.tree "ramdisk-1" with
  | none => exact fun i c hc => nomatch hc
  | some n' => exact hright.ramdisk rd hr n' hn'

end

/-- **When the tool leaves no stale hash.** -/
theorem fresh_iff (h : rebuildFit fits orig dtb ramdisk = .ok t) :
    Fresh D t dtb ramdisk ↔ RightBefore D orig.tree dtb ramdisk :=
  ⟨Fresh.rightBefore h, RightBefore.fresh h⟩

/-! ### Two stale hashes -/

/-- A reader that knows SHA-384 and SHA-512 as well. -/
def fitDigests : Digests where
  digest algo :=
    if algo = "crc32" then some fun data => toBytes 4 (Digest.crc32 data).toNat
    else if algo = "sha1" then some Digest.sha1
    else if algo = "sha256" then some Digest.sha256
    else if algo = "sha384" then some Digest.sha384
    else if algo = "sha512" then some Digest.sha512
    else none
  crc32 := rfl
  sha1 := rfl
  sha256 := rfl

/-- A hash node with the right value. -/
def hashNode (name algo : String) (data : Bytes) : Node :=
  .mk name [("algo", cstr algo), ("value", ((fitDigests.digest algo).map (· data)).getD [])] []

theorem right_hashNode {name algo : String} (h : algoOf (hashNode name algo data) = some algo) :
    Right fitDigests data (hashNode name algo data) := by
  intro algo' d v halgo hd hv
  obtain rfl := Option.some.inj (h.symm.trans halgo)
  change some (((fitDigests.digest algo).map (· data)).getD []) = some v at hv
  rw [hd] at hv
  exact (Option.some.inj hv).symm

/-- A FIT with the device tree `dtb` and a ramdisk. -/
def fitOf (dtb : Bytes) (fdtAlgo rdAlgo : String) : Fdt where
  tree := .mk "" [] [
    .mk "images" [] [
      .mk "fdt-1" [("data", dtb)] [hashNode "hash-1" "crc32" dtb, hashNode "hash-2" fdtAlgo dtb],
      .mk "ramdisk-1" [("data", [0])] [hashNode "hash-1" "sha1" [0], hashNode "hash-2" rdAlgo [0]]],
    .mk "configurations" [] [.mk "config@1" [("fdt", cstr "fdt-1")] []]]
  size := 1024

/-- A SHA-512 of the device tree, and a second hash of the ramdisk, are left as they were. -/
theorem stale_hashes :
    (∃ t, rebuildFit (fun _ _ => true) (fitOf [0] "sha512" "sha1") [1] none = .ok t ∧
      ¬Fresh fitDigests t [1] none) ∧
    ∃ t, rebuildFit (fun _ _ => true) (fitOf [0] "sha1" "crc32") [1] (some [2]) = .ok t ∧
      ¬Fresh fitDigests t [1] (some [2]) := by
  constructor
  · obtain ⟨t, ht⟩ := exists_of_isOk
      (x := rebuildFit (fun _ _ => true) (fitOf [0] "sha512" "sha1") [1] none) (by decide +kernel)
    refine ⟨t, ht, fun hfresh => ?_⟩
    have hright := (hfresh.rightBefore ht).fdt _ rfl (hashNode "hash-2" "sha512" [0]) (by simp [children])
    have hne : Digest.sha512 [0] ≠ Digest.sha512 [1] := by decide +kernel
    exact hne (hright "sha512" rfl (by decide) "sha512" Digest.sha512 (Digest.sha512 [0]) rfl rfl rfl)
  · obtain ⟨t, ht⟩ := exists_of_isOk
      (x := rebuildFit (fun _ _ => true) (fitOf [0] "sha1" "crc32") [1] (some [2])) (by decide +kernel)
    refine ⟨t, ht, fun hfresh => ?_⟩
    have hright := (hfresh.rightBefore ht).ramdisk [2] rfl _ rfl 1 (hashNode "hash-2" "crc32" [0]) rfl
      (by decide +kernel)
    have hne : toBytes 4 (Digest.crc32 [0]).toNat ≠ toBytes 4 (Digest.crc32 [2]).toNat := by
      decide +kernel
    exact hne (hright "crc32" (fun data => toBytes 4 (Digest.crc32 data).toNat) _ rfl rfl rfl)

/-- A FIT whose device tree has a CRC-32 and a SHA-256 is rebuilt with both, and with the ramdisk it
had, for which the second hash is right. -/
theorem fresh_iff_plain :
    ∃ t, rebuildFit (fun _ _ => true) (fitOf [0] "sha256" "crc32") [1] (some [0]) = .ok t ∧
      Fresh fitDigests t [1] (some [0]) := by
  obtain ⟨t, ht⟩ := exists_of_isOk
    (x := rebuildFit (fun _ _ => true) (fitOf [0] "sha256" "crc32") [1] (some [0])) (by decide +kernel)
  refine ⟨t, ht, (fresh_iff ht).mpr ⟨fun n hn c hc algo hal hnot => ?_, fun rd hrd n hn i c hc hi => ?_⟩⟩
  · cases hn
    have hcs : c = hashNode "hash-1" "crc32" [0] ∨ c = hashNode "hash-2" "sha256" [0] := by
      simpa [children] using hc
    rcases hcs with rfl | rfl
    · obtain rfl : "crc32" = algo := Option.some.inj hal
      exact absurd (by decide) hnot
    · obtain rfl : "sha256" = algo := Option.some.inj hal
      exact absurd (by decide) hnot
  · cases hrd
    cases hn
    have hcs : c = hashNode "hash-1" "sha1" [0] ∨ c = hashNode "hash-2" "crc32" [0] := by
      simpa [children] using List.mem_of_getElem? hc
    rcases hcs with rfl | rfl
    · exact right_hashNode rfl
    · exact right_hashNode rfl

end Ipq4019.Fit.Hashes
