import Ipq4019.Fit.Hashes
import Ipq4019.Fit.Patched
import Ipq4019.Lib.FlatTree

/-!
# The whole tool

`main` of `patch_fit_dtb.py` puts a patched device tree, and a ramdisk, into a FIT (`main_ok`).  The
tools that read a FIT find them there, and the other images as they were (`main_reads_back`); `main`
on its own output gives it again (`main_again`).
-/

namespace Ipq4019.Fit.Tool

open Ipq4019.Lib.DeviceTree Ipq4019.Lib.DeviceTree.Node Ipq4019.Fit.Rebuild Ipq4019.Fit.Rebuilt
open Ipq4019.Fit.Hashes (fitOf)
open Ipq4019.Lib.FlatTree (flatten unflatten unflatten_flatten tokens Storable)
open Ipq4019.Fit.PatchDtb Ipq4019.Fit.Patched
open Ipq4019.Lib.Digest (sha1)

/-! ### Putting the same in again -/

section Again

variable {n c t : Node} {dtb rd data v : Bytes} {ramdisk : Option Bytes} {s : String}

theorem set_set : (n.set s v).set s v = n.set s v :=
  PropEdit.Settled.run_eq (e := .put s v) (get_set.trans (if_pos rfl))

theorem rehashed_idem : rehashed data (rehashed data c) = rehashed data c := by
  have halgo : algoOf (rehashed data c) = algoOf c := by
    unfold rehashed setValue
    cases (algoOf c).bind (newValue data) with
    | none => rfl
    | some v => exact algoOf_set
  have hvalue : ∀ v : Option Bytes, setValue v (setValue v c) = setValue v c := by
    intro v
    cases v with
    | none => rfl
    | some v => exact set_set
  calc rehashed data (rehashed data c)
      = setValue ((algoOf c).bind (newValue data)) (rehashed data c) := by rw [← halgo]; rfl
    _ = rehashed data c := hvalue _

theorem dtbImage_eq : dtbImage dtb n = (n.set "data" dtb).setChildren (n.children.map (rehashed dtb)) :=
  congrArg (fun cs => (n.set "data" dtb).setChildren cs) children_dtbImage

theorem dtbImage_idem : dtbImage dtb (dtbImage dtb n) = dtbImage dtb n := by
  have hdata : (dtbImage dtb n).set "data" dtb = dtbImage dtb n :=
    PropEdit.Settled.run_eq (e := .put "data" dtb) (get_set.trans (if_pos rfl))
  rw [dtbImage_eq, hdata, children_dtbImage, List.map_map, dtbImage_eq]
  exact congrArg (n.set "data" dtb).setChildren (List.map_congr_left fun c _ => rehashed_idem)

/-- The edits of the ramdisk's image. -/
def rdEdits (rd : Bytes) : List PropEdit :=
  [.put "description" (cstr "OpenWrt overlay initramfs"), .put "data" rd, .put "type" (cstr "ramdisk"),
    .put "arch" (cstr "arm"), .put "os" (cstr "linux"), .put "compression" (cstr "none")]

theorem rdProps_eq : rdProps rd n = applyEdits (rdEdits rd) n := rfl

theorem get_rdProps (e : PropEdit) (he : e ∈ rdEdits rd) : e.Settled (rdProps rd n) := by
  unfold rdProps
  simp only [rdEdits, List.mem_cons, List.not_mem_nil, or_false] at he
  rcases he with rfl | rfl | rfl | rfl | rfl | rfl
  all_goals
    change Node.get _ _ = some _
    simp [get_set]

theorem named_rdHash : Named (rdHash rd) := fun _ => rfl

theorem rdHash_idem : rdHash rd (rdHash rd c) = rdHash rd c := by
  have halgo : (rdHash rd c).get "algo" = some (cstr "sha1") := by
    unfold rdHash
    rw [get_set_ne (by decide), get_set, if_pos rfl]
  have h₁ : (rdHash rd c).set "algo" (cstr "sha1") = rdHash rd c :=
    PropEdit.Settled.run_eq (e := .put _ _) halgo
  calc rdHash rd (rdHash rd c) = ((rdHash rd c).set "algo" (cstr "sha1")).set "value" (sha1 rd) := rfl
    _ = (rdHash rd c).set "value" (sha1 rd) := by rw [h₁]
    _ = rdHash rd c := set_set

theorem rdImage_idem : rdImage rd (rdImage rd n) = rdImage rd n := by
  have hprops : rdProps rd (rdImage rd n) = rdImage rd n := by
    rw [rdProps_eq]
    refine applyEdits_self fun e he => ?_
    have hset := get_rdProps (n := n) e he
    have hget : ∀ q, (rdImage rd n).get q = (rdProps rd n).get q := fun q => get_edit
    cases e with
    | put p v => exact (hget p).trans hset
    | del p => exact (hget p).trans hset
  calc rdImage rd (rdImage rd n)
      = edit "hash-1" (rdHash rd) (rdImage rd n) := congrArg (edit "hash-1" (rdHash rd)) hprops
    _ = edit "hash-1" (fun c => rdHash rd (rdHash rd c)) (rdProps rd n) := edit_edit named_rdHash
    _ = rdImage rd n := by
        rw [show (fun c => rdHash rd (rdHash rd c)) = rdHash rd from funext fun _ => rdHash_idem]
        rfl

theorem putDtb_idem : putDtb dtb (putDtb dtb t) = putDtb dtb t := by
  unfold putDtb
  rw [within_within named_within]
  refine within_congr fun images _ => ?_
  rw [within_within named_dtbImage]
  exact within_congr fun n _ => dtbImage_idem

/-- The ramdisk does not matter to the device tree's image. -/
theorem putDtb_putRamdisk : putDtb dtb (putRamdisk rd t) = putRamdisk rd (putDtb dtb t) := by
  unfold putDtb putRamdisk
  rw [← within_comm named_within named_within apart_images, within_within named_edit,
    within_within named_within]
  refine congrArg _ (within_congr fun images _ => ?_)
  exact edit_within_comm named_dtbImage named_rdImage apart_fdt

theorem putRamdisk_idem : putRamdisk rd (putRamdisk rd t) = putRamdisk rd t := by
  unfold putRamdisk
  rw [← within_comm named_within named_edit apart_images, within_within named_edit,
    within_within named_within]
  have hedit : ∀ images, edit "ramdisk-1" (rdImage rd) (edit "ramdisk-1" (rdImage rd) images) =
      edit "ramdisk-1" (rdImage rd) images := by
    intro images
    rw [edit_edit named_rdImage]
    exact congrArg (fun f => edit "ramdisk-1" f images) (funext fun _ => rdImage_idem)
  rw [within_congr fun images _ => hedit images]
  refine within_congr fun configs _ => ?_
  rw [within_within named_refRamdisk]
  exact within_congr fun cfg _ => set_set

theorem rebuilt_idem : rebuilt dtb ramdisk (rebuilt dtb ramdisk t) = rebuilt dtb ramdisk t := by
  cases ramdisk with
  | none => exact putDtb_idem
  | some rd =>
    change putRamdisk rd (putDtb dtb (putRamdisk rd (putDtb dtb t))) = putRamdisk rd (putDtb dtb t)
    rw [putDtb_putRamdisk, putDtb_idem, putRamdisk_idem]

end Again

/-! ### Reading it -/

section Reading

variable {fit : Fdt} {t : Node} {s : String} {d : Bytes}

/-- Where the data of an image are read from. -/
theorem imageData_iff : imageData fit s = .ok d ↔
    ∃ n, image fit.tree s = some n ∧ n.get "data" = some d := by
  have hpath : imageData fit s = lift (pathOffset fit ["images", s]) >>= fun off =>
      lift (getprop fit off "data") := by
    unfold imageData pathOffset
    rw [List.foldlM_cons]
    cases subnodeOffset fit [] "images" with
    | error e => rfl
    | ok i =>
      change (lift (subnodeOffset fit i s) >>= fun off => lift (getprop fit off "data")) =
        lift (List.foldlM (subnodeOffset fit) i [s]) >>= _
      rw [List.foldlM_cons]
      cases subnodeOffset fit i s with
      | error e => rfl
      | ok o => rfl
  have himage : image fit.tree s = resolve ["images", s] fit.tree := by
    unfold image resolve
    refine congrArg _ (funext fun n => ?_)
    unfold resolve
    cases n.subnode s with
    | none => rfl
    | some c => rfl
  rw [hpath, himage]
  cases ho : pathOffset fit ["images", s] with
  | error e =>
    rw [resolve_of_error ho]
    constructor
    · intro h
      cases h
    · rintro ⟨n, hn, -⟩
      cases hn
  | ok off =>
    obtain ⟨n, hat, hres⟩ := pathOffset_resolve ho
    rw [hres]
    constructor
    · intro h
      exact ⟨n, rfl, getprop_ok hat (lift_ok h)⟩
    · rintro ⟨n', hn', hd⟩
      obtain rfl := Option.some.inj hn'
      change lift (getprop fit off "data") = .ok d
      unfold getprop
      rw [hat]
      dsimp only
      rw [hd]
      rfl

end Reading

/-! ### The tool -/

section Main

variable {fits : ℕ → Node → Bool} {lib : Blob} {c : Patches} {ramdisk : Option Bytes} {fit : Fdt}
  {t t' dtb : Node} {inner : Bytes} {k : ℕ}

/-- The device tree that is in a FIT. -/
def Contains (lib : Blob) (fit : Node) (dtb : Node) : Prop :=
  ∃ n inner, image fit "fdt-1" = some n ∧ n.get "data" = some inner ∧ lib.load inner = .ok dtb

theorem main_ok (h : main fits lib c ramdisk fit = .ok t) :
    ∃ dtb, Contains lib fit.tree dtb ∧
      t = rebuilt (lib.flatten (patched c dtb)) ramdisk fit.tree ∧
        ∀ rd, ramdisk = some rd → Refers t := by
  unfold main at h
  obtain ⟨inner, hinner, h⟩ := bind_ok h
  obtain ⟨dtb, hload, h⟩ := bind_ok h
  obtain ⟨patchedInner, hpatch, h⟩ := bind_ok h
  obtain ⟨n, hn, hdata⟩ := imageData_iff.mp hinner
  rw [patchDtb_ok hpatch] at h
  exact ⟨dtb, ⟨n, inner, hn, hdata, lift_ok hload⟩, (rebuildFit_eq h).2⟩

theorem Contains.unique (h : Contains lib t dtb) (h' : Contains lib t t') : dtb = t' := by
  obtain ⟨n, inner, hn, hd, hl⟩ := h
  obtain ⟨n', inner', hn', hd', hl'⟩ := h'
  obtain rfl := Option.some.inj (hn.symm.trans hn')
  obtain rfl := Option.some.inj (hd.symm.trans hd')
  exact Except.ok.inj (hl.symm.trans hl')

/-- The data of the device tree's image. -/
theorem imageData_rebuilt {d : Bytes} {n : Node} (h : image fit.tree "fdt-1" = some n) :
    imageData ⟨rebuilt d ramdisk fit.tree, k⟩ "fdt-1" = .ok d :=
  imageData_iff.mpr ⟨dtbImage d n, image_fdt h, get_set.trans (if_pos rfl)⟩

theorem ramdiskInFit_rebuilt {d rd : Bytes} {n : Node} (h : image fit.tree "fdt-1" = some n) :
    ramdiskInFit ⟨rebuilt d (some rd) fit.tree, k⟩ = .ok rd := by
  refine imageData_iff.mpr ⟨_, image_ramdisk h, get_edit.trans ?_⟩
  exact get_rdProps (.put "data" rd) (by simp [rdEdits])

theorem configProps_of_refers (h : Refers t) :
    ∃ ps, configProps ⟨t, k⟩ = .ok ps ∧ ps.lookup "ramdisk" = some (cstr "ramdisk-1") := by
  obtain ⟨cfg, hcfg, hget⟩ := h
  have hpath : configProps ⟨t, k⟩ = lift (pathOffset ⟨t, k⟩ ["configurations", "config@1"]) >>=
      fun off => .ok ((t.at' off).elim [] Node.props) := by
    unfold configProps pathOffset
    rw [List.foldlM_cons]
    cases subnodeOffset ⟨t, k⟩ [] "configurations" with
    | error e => rfl
    | ok o =>
      change (lift (subnodeOffset ⟨t, k⟩ o "config@1") >>= _) =
        lift (List.foldlM (subnodeOffset ⟨t, k⟩) o ["config@1"]) >>= _
      rw [List.foldlM_cons]
      cases subnodeOffset ⟨t, k⟩ o "config@1" with
      | error e => rfl
      | ok o => rfl
  rw [hpath]
  cases ho : pathOffset ⟨t, k⟩ ["configurations", "config@1"] with
  | error e => exact absurd (hcfg.symm.trans (resolve_of_error ho)) (by simp)
  | ok off =>
    obtain ⟨node, hat, hres⟩ := pathOffset_resolve ho
    obtain rfl : cfg = node := Option.some.inj (hcfg.symm.trans hres)
    refine ⟨cfg.props, ?_, hget⟩
    change Except.ok ((t.at' off).elim [] Node.props) = _
    rw [show t.at' off = some cfg from hat]
    rfl

/-- **What is read from the FIT that is written**: the patched device tree, the ramdisk, the reference
to it, and the other images as they were. -/
theorem main_reads_back (h : main fits lib c ramdisk fit = .ok t) (hdtb : Contains lib fit.tree dtb) :
    imageData ⟨t, k⟩ "fdt-1" = .ok (lib.flatten (patched c dtb)) ∧
      (∀ rd, ramdisk = some rd → ramdiskInFit ⟨t, k⟩ = .ok rd ∧
        ∃ ps, configProps ⟨t, k⟩ = .ok ps ∧ ps.lookup "ramdisk" = some (cstr "ramdisk-1")) ∧
      ∀ s, Apart "fdt-1" s → (∀ rd, ramdisk = some rd → Apart "ramdisk-1" s) →
        image t s = image fit.tree s := by
  obtain ⟨dtb', hdtb', ht, href⟩ := main_ok h
  obtain rfl := hdtb.unique hdtb'
  obtain ⟨n, inner, hn, -, -⟩ := hdtb
  refine ⟨by rw [ht]; exact imageData_rebuilt hn, fun rd hrd => ⟨?_, configProps_of_refers (href rd hrd)⟩,
    fun s hs hs' => ?_⟩
  · rw [ht, hrd]
    exact ramdiskInFit_rebuilt hn
  · rw [ht]
    exact image_other hs hs'

/-- **The tool on its own output** gives it again, if libfdt reads what it wrote. -/
theorem main_again (hdtb : Contains lib fit.tree dtb) (hdis : DistinctWifi dtb)
    (hload : lib.load (lib.flatten (patched c dtb)) = .ok (patched c dtb))
    (h : main fits lib c ramdisk fit = .ok t) (h' : main fits lib c ramdisk ⟨t, k⟩ = .ok t') :
    t' = t := by
  obtain ⟨dtb₁, hdtb₁, ht, -⟩ := main_ok h
  obtain rfl := hdtb.unique hdtb₁
  obtain ⟨m, -, hm, -, -⟩ := hdtb
  have hread : imageData ⟨t, k⟩ "fdt-1" = .ok (lib.flatten (patched c dtb)) := by
    rw [ht]
    exact imageData_rebuilt hm
  obtain ⟨n, hn, hdata⟩ := imageData_iff.mp hread
  have hagain : Contains lib t (patched c dtb) := ⟨n, _, hn, hdata, hload⟩
  obtain ⟨dtb₂, hdtb₂, ht', -⟩ := main_ok h'
  obtain rfl := hagain.unique hdtb₂
  rw [ht', patched_idem hdis, ht]
  exact rebuilt_idem

/-! ### Blobs -/

/-- The names of the properties of `radios`, as they come to be used. -/
def radioNames : List String := ["ranges", "compatible", "status", "clocks", "pinctrl-0"]

/-- libfdt, on the device tree `radios`: `reg` is added to the names when it is patched. -/
def radioBlob : Blob where
  load b := (unflatten b).elim (.error .badStructure) .ok
  flatten := flatten (radioNames ++ ["reg"])

/-- The two radios' device tree, as it is compiled. -/
def radioDtb : Bytes := flatten radioNames radios.tree

/-- What libfdt lays out with these names, it reads back. -/
theorem load_flatten {names : List String} (hn : Ipq4019.Lib.FlatTree.Names names)
    (ht : ∀ tok ∈ tokens t, Storable names tok) (hsmall : (flatten names t).length < 2 ^ 32) :
    radioBlob.load (flatten names t) = .ok t := by
  unfold radioBlob
  dsimp only
  rw [unflatten_flatten hn ht hsmall, Option.elim_some]

theorem load_radioDtb : radioBlob.load radioDtb = .ok radios.tree :=
  load_flatten ⟨by decide, by decide⟩ (by decide) (by decide +kernel)

theorem load_patched : radioBlob.load (radioBlob.flatten (patched defaults radios.tree)) =
    .ok (patched defaults radios.tree) :=
  load_flatten ⟨by decide, by decide⟩ (by decide +kernel) (by decide +kernel)

theorem contains_fitOf : Contains radioBlob (fitOf radioDtb "sha256" "sha1").tree radios.tree :=
  ⟨_, radioDtb, rfl, rfl, load_radioDtb⟩

/-- The FIT that is written for the two radios. -/
def radioFit : Node := rebuilt (radioBlob.flatten (patched defaults radios.tree)) (some [2])
  (fitOf radioDtb "sha256" "sha1").tree

theorem main_radioFit : main (fun _ _ => true) radioBlob defaults (some [2])
    (fitOf radioDtb "sha256" "sha1") = .ok radioFit := by
  obtain ⟨t, ht⟩ := exists_of_isOk (x := main (fun _ _ => true) radioBlob defaults (some [2])
    (fitOf radioDtb "sha256" "sha1")) (by decide +kernel)
  obtain ⟨dtb, hdtb, htree, -⟩ := main_ok ht
  obtain rfl := contains_fitOf.unique hdtb
  rw [ht, htree]
  rfl

theorem main_reads_back_plain :
    main (fun _ _ => true) radioBlob defaults (some [2]) (fitOf radioDtb "sha256" "sha1") =
        .ok radioFit ∧
      imageData ⟨radioFit, 1024⟩ "fdt-1" = .ok (radioBlob.flatten (patched defaults radios.tree)) ∧
      (∀ rd, some [2] = some rd → ramdiskInFit ⟨radioFit, 1024⟩ = .ok rd ∧
        ∃ ps, configProps ⟨radioFit, 1024⟩ = .ok ps ∧ ps.lookup "ramdisk" = some (cstr "ramdisk-1")) ∧
      ∀ s, Apart "fdt-1" s → (∀ rd : Bytes, some [2] = some rd → Apart "ramdisk-1" s) →
        image radioFit s = image (fitOf radioDtb "sha256" "sha1").tree s :=
  ⟨main_radioFit, main_reads_back main_radioFit contains_fitOf⟩

theorem main_again_plain : ∃ t',
    main (fun _ _ => true) radioBlob defaults (some [2]) (fitOf radioDtb "sha256" "sha1") =
        .ok radioFit ∧
      main (fun _ _ => true) radioBlob defaults (some [2]) ⟨radioFit, 1024⟩ = .ok t' ∧
        t' = radioFit := by
  obtain ⟨t', ht'⟩ := exists_of_isOk (x := main (fun _ _ => true) radioBlob defaults (some [2])
    ⟨radioFit, 1024⟩) (by decide +kernel)
  exact ⟨t', main_radioFit, ht', main_again contains_fitOf distinct_radios load_patched main_radioFit ht'⟩

end Main

end Ipq4019.Fit.Tool
