import Ipq4019.Fit.PatchDtb
import Ipq4019.Fit.Rebuilt

/-!
# The patched device tree

What the patches make of a tree: edits of the properties of two nodes, and a node for coreboot's
tables (`patched`).  `patch_dtb` does that through the offsets of libfdt (`patchDtb_ok`), in its own
order; the edits of one node can be brought together (`runSteps_eq`), since they commute with those of
the other.  Patching a tree that is patched changes nothing (`patchDtb_again`).
-/

namespace Ipq4019.Fit.Patched

open Ipq4019.Lib.DeviceTree Ipq4019.Lib.DeviceTree.Node Ipq4019.Fit.Rebuild Ipq4019.Fit.Rebuilt
open Ipq4019.Fit.PatchDtb

/-! ### The edits -/

/-- An edit of a node below `/soc`. -/
abbrev Step := String × PropEdit

def runSteps (l : List Step) (t : Node) : Node :=
  l.foldl (fun t e => alter ["soc", e.1] e.2.run t) t

/-- The edits of one of the nodes. -/
def editsOf (x : String) (l : List Step) : List PropEdit :=
  (l.filter fun e => e.1 == x).map Prod.snd

def w5 : String := "wifi@a000000"
def w2 : String := "wifi@a800000"

def statusSteps (x : String) (want : PatchVal) : List Step :=
  if want = .str "off" then [(x, .put "status" (cstr "disabled"))]
  else if want = .str "on" then [(x, .put "status" (cstr "okay"))]
  else []

def compatStep (x : String) : Step := (x, .put "compatible" (cstr "unused,nothing"))

def delSteps (x : String) (ps : List String) : List Step := ps.map fun p => (x, .del p)

def whenSteps (v : PatchVal) (l : List Step) : List Step := if v.truthy then l else []

/-- The edits, as the toggles ask for them. -/
def steps (c : Patches) : List Step :=
  statusSteps w5 c.wifiA000000 ++ statusSteps w2 c.wifiA800000 ++
  whenSteps c.stripWifiPinctrl (delSteps w2 ["pinctrl-0", "pinctrl-names"]) ++
  whenSteps c.renameWifiCompat [compatStep w5, compatStep w2] ++
  whenSteps c.stripWifiClocksResets
    (delSteps w5 ["clocks", "clock-names", "resets", "reset-names"] ++
      delSteps w2 ["clocks", "clock-names", "resets", "reset-names"]) ++
  whenSteps c.stripWifiResetsOnly
    (delSteps w5 ["resets", "reset-names"] ++ delSteps w2 ["resets", "reset-names"]) ++
  whenSteps c.stripWifiClocksOnly
    (delSteps w5 ["clocks", "clock-names"] ++ delSteps w2 ["clocks", "clock-names"])

/-- The node is given `ranges`, unless it has them. -/
def ensureRanges (n : Node) : Node := if (n.get "ranges").isSome then n else n.set "ranges" []

def corebootTable (n : Node) : Node := (n.set "compatible" (cstr "coreboot")).set "reg" corebootReg

/-- `/firmware` with coreboot's tables. -/
def firmware (n : Node) : Node := edit "coreboot" corebootTable (ensureRanges n)

def addFirmware (c : Patches) (t : Node) : Node :=
  if c.addCorebootReg.truthy then edit "firmware" firmware t else t

/-- **The patched tree.** -/
def patched (c : Patches) (t : Node) : Node := addFirmware c (runSteps (steps c) t)

/-! ### What the tool does -/

section Tool

variable {fits : ℕ → Node → Bool} {fdt fdt' : Fdt} {x p : String} {v : Bytes} {l l' : List Step}

/-- The tree is edited by these steps. -/
def Does (l : List Step) (fdt fdt' : Fdt) : Prop := fdt'.tree = runSteps l fdt.tree

theorem Does.trans {fdt'' : Fdt} (h : Does l fdt fdt') (h' : Does l' fdt' fdt'') :
    Does (l ++ l') fdt fdt'' := by
  unfold Does runSteps at *
  rw [List.foldl_append, h', h]

theorem setIfThere_ok (h : setIfThere fits ["soc", x] p v fdt = .ok fdt') :
    Does [(x, .put p v)] fdt fdt' := by
  change fdt'.tree = alter ["soc", x] (fun n => n.set p v) fdt.tree
  unfold setIfThere at h
  split at h
  · rename_i e he
    cases h
    exact (alter_of_error he).symm
  · rename_i off hoff
    rw [setprop_ok h]
    exact (pathOffset_alter hoff).2

theorem delProp_ok (h : delProp ["soc", x] p fdt = .ok fdt') : Does [(x, .del p)] fdt fdt' := by
  change fdt'.tree = alter ["soc", x] (fun n => n.del p) fdt.tree
  unfold delProp at h
  split at h
  · rename_i e he
    cases h
    exact (alter_of_error he).symm
  · rename_i off hoff
    obtain ⟨hsome, halter⟩ := pathOffset_alter (f := fun n => n.del p) hoff
    obtain ⟨n, hn⟩ := Option.isSome_iff_exists.mp hsome
    unfold delprop at h
    rw [hn] at h
    dsimp only at h
    cases hget : n.get p with
    | none =>
      rw [hget] at h
      cases h
      have hself : n.del p = n := PropEdit.Settled.run_eq (e := .del p) hget
      rw [← halter, modify_self hn hself]
    | some w =>
      rw [hget] at h
      cases h
      exact halter

theorem delProps_ok : ∀ {ps : List String} {fdt : Fdt}, delProps ["soc", x] ps fdt = .ok fdt' →
    Does (delSteps x ps) fdt fdt'
  | [], fdt, h => by
    cases h
    rfl
  | p :: ps, fdt, h => by
    unfold delProps at h
    rw [List.foldlM_cons] at h
    obtain ⟨fdt₁, h₁, h⟩ := bind_ok h
    exact (delProp_ok h₁).trans (delProps_ok h)

theorem setWanted_ok {want : PatchVal} (h : setWanted fits ["soc", x] want fdt = .ok fdt') :
    Does (statusSteps x want) fdt fdt' := by
  unfold setWanted setStatus at h
  unfold statusSteps
  split at h
  · rename_i hoff
    rw [if_pos hoff]
    exact setIfThere_ok h
  · rename_i hoff
    rw [if_neg hoff]
    split at h
    · rename_i hon
      rw [if_pos hon]
      exact setIfThere_ok h
    · rename_i hon
      rw [if_neg hon]
      cases h
      rfl

theorem when_ok {w : PatchVal} {f : Fdt → Except PyError Fdt} (h : when w f fdt = .ok fdt')
    (hf : f fdt = .ok fdt' → Does l fdt fdt') : Does (whenSteps w l) fdt fdt' := by
  unfold PatchDtb.when at h
  unfold whenSteps
  split at h
  · rename_i hw
    rw [if_pos hw]
    exact hf h
  · rename_i hw
    rw [if_neg hw]
    cases h
    rfl

theorem firmwareNode_eq : firmwareNode fits fdt = subnodeOrAdd fits fdt [] "firmware" := by
  have hpath : pathOffset fdt ["firmware"] = subnodeOffset fdt [] "firmware" := by
    unfold pathOffset
    rw [List.foldlM_cons]
    cases subnodeOffset fdt [] "firmware" with
    | error e => rfl
    | ok o => rfl
  unfold firmwareNode subnodeOrAdd
  rw [hpath]
  rfl

theorem firmwareRanges_ok {off : Offset} {n : Node} (hn : fdt.tree.at' off = some n)
    (h : firmwareRanges fits fdt off = .ok fdt') :
    fdt'.tree = modify ensureRanges off fdt.tree := by
  unfold firmwareRanges at h
  split at h
  · rename_i w hget
    cases h
    refine (modify_self hn ?_).symm
    unfold ensureRanges
    rw [getprop_ok hn hget]
    rfl
  · rename_i e hget
    rw [setprop_ok h]
    refine modify_congr hn ?_
    unfold ensureRanges
    rw [getprop_error hn hget]
    rfl

theorem addCorebootNode_ok (h : addCorebootNode fits fdt = .ok fdt') :
    fdt'.tree = edit "firmware" firmware fdt.tree := by
  unfold addCorebootNode at h
  rw [firmwareNode_eq] at h
  obtain ⟨⟨fdt₁, off⟩, hfw, h⟩ := bind_ok h
  obtain ⟨fdt₂, hranges, h⟩ := bind_ok h
  obtain ⟨⟨fdt₃, cbOff⟩, hcb, h⟩ := bind_ok h
  obtain ⟨fdt₄, h₄, h₅⟩ := bind_ok h
  obtain ⟨⟨n, hn⟩, hset⟩ := subnodeOrAdd_ok (n := fdt.tree) rfl hfw
  have htree₂ := firmwareRanges_ok hn hranges
  have hn₂ : fdt₂.tree.at' off = some (ensureRanges n) := by
    rw [htree₂, at_modify, hn]
    rfl
  obtain ⟨-, hset₂⟩ := subnodeOrAdd_ok hn₂ hcb
  calc fdt'.tree
      = modify (fun c => c.set "reg" corebootReg) cbOff fdt₄.tree := setprop_ok h₅
    _ = modify corebootTable cbOff fdt₃.tree := by rw [setprop_ok h₄, modify_modify]; rfl
    _ = modify (edit "coreboot" corebootTable) off fdt₂.tree := hset₂ _
    _ = modify firmware off fdt₁.tree := by rw [htree₂, modify_modify]; rfl
    _ = edit "firmware" firmware fdt.tree := hset _

/-- **`patch_dtb`** gives the patched tree. -/
theorem patchDtb_ok {c : Patches} {dtb : Fdt} {t : Node} (h : patchDtb fits c dtb = .ok t) :
    t = patched c dtb.tree := by
  unfold patchDtb at h
  obtain ⟨fdt₀, h₀, h⟩ := bind_ok h
  obtain ⟨fdt₁, h₁, h⟩ := bind_ok h
  obtain ⟨fdt₂, h₂, h⟩ := bind_ok h
  obtain ⟨fdt₃, h₃, h⟩ := bind_ok h
  obtain ⟨fdt₄, h₄, h⟩ := bind_ok h
  obtain ⟨fdt₅, h₅, h⟩ := bind_ok h
  obtain ⟨fdt₆, h₆, h⟩ := bind_ok h
  obtain ⟨fdt₇, h₇, h⟩ := bind_ok h
  obtain ⟨fdt₈, h₈, h⟩ := bind_ok h
  cases h
  have hboth : ∀ {ps : List String} {fdt fdt' : Fdt}, (do
      let fdt ← delProps wifi5 ps fdt
      delProps wifi2 ps fdt) = .ok fdt' → Does (delSteps w5 ps ++ delSteps w2 ps) fdt fdt' := by
    intro ps fdt fdt' h
    obtain ⟨fdt'', h, h'⟩ := bind_ok h
    exact (delProps_ok h).trans (delProps_ok h')
  have hcompat : Does (whenSteps c.renameWifiCompat [compatStep w5, compatStep w2]) fdt₃ fdt₄ :=
    when_ok h₄ fun h => by
      obtain ⟨fdt'', h, h'⟩ := bind_ok h
      exact (setIfThere_ok h).trans (setIfThere_ok h')
  have hsteps : Does (steps c) fdt₀ fdt₇ :=
    ((((((setWanted_ok h₁).trans (setWanted_ok h₂)).trans (when_ok h₃ delProps_ok)).trans
      hcompat).trans (when_ok h₅ hboth)).trans (when_ok h₆ hboth)).trans (when_ok h₇ hboth)
  have htree₀ := resize_ok h₀
  unfold patched addFirmware
  rw [← htree₀, ← show fdt₇.tree = runSteps (steps c) fdt₀.tree from hsteps]
  unfold PatchDtb.when at h₈
  split at h₈
  · rename_i hw
    rw [if_pos hw]
    exact addCorebootNode_ok h₈
  · rename_i hw
    rw [if_neg hw]
    cases h₈
    rfl

end Tool

/-! ### The edits of a node together -/

section Together

variable {c : Patches} {t n : Node} {x : String} {e : Step} {l : List Step}

theorem apart_wifi : Apart w5 w2 := apart_of_at (by decide) (by decide) (by decide)

theorem apart_soc : Apart "soc" "firmware" := apart_of_ne (by decide) (by decide) (by decide)

/-- The value of `status` that is asked for. -/
def statusValue (want : PatchVal) : Bytes :=
  if want = .str "off" then cstr "disabled" else cstr "okay"

def wanted (c : Patches) (x : String) : PatchVal := if x = w5 then c.wifiA000000 else c.wifiA800000

/-- What is done to a property, if anything is. -/
def editOf (c : Patches) (x p : String) : PropEdit :=
  if p = "status" then .put "status" (statusValue (wanted c x))
  else if p = "compatible" then .put "compatible" (cstr "unused,nothing")
  else .del p

/-- A step is one of the two nodes, and does what is done to its property. -/
def Regular (c : Patches) (e : Step) : Prop := (e.1 = w5 ∨ e.1 = w2) ∧ e.2 = editOf c e.1 e.2.prop

theorem regular_status {want : PatchVal} (hx : x = w5 ∨ x = w2) (hw : want = wanted c x)
    (he : e ∈ statusSteps x want) : Regular c e := by
  unfold statusSteps at he
  split at he
  · rename_i hoff
    obtain rfl := List.mem_singleton.mp he
    refine ⟨hx, ?_⟩
    change PropEdit.put "status" (cstr "disabled") = .put "status" (statusValue (wanted c x))
    rw [← hw, hoff]
    rfl
  · rename_i hoff
    split at he
    · obtain rfl := List.mem_singleton.mp he
      refine ⟨hx, ?_⟩
      change PropEdit.put "status" (cstr "okay") = .put "status" (statusValue (wanted c x))
      unfold statusValue
      rw [← hw, if_neg hoff]
    · exact absurd he (by simp)

theorem regular_when {v : PatchVal} (h : ∀ e ∈ l, Regular c e) (he : e ∈ whenSteps v l) :
    Regular c e := by
  unfold whenSteps at he
  split at he
  · exact h e he
  · exact absurd he (by simp)

theorem regular_del {ps : List String} (hx : x = w5 ∨ x = w2)
    (hps : ∀ p ∈ ps, p ≠ "status" ∧ p ≠ "compatible") (he : e ∈ delSteps x ps) : Regular c e := by
  obtain ⟨p, hp, rfl⟩ := List.mem_map.mp he
  obtain ⟨h₁, h₂⟩ := hps p hp
  refine ⟨hx, ?_⟩
  change PropEdit.del p = editOf c x p
  unfold editOf
  rw [if_neg h₁, if_neg h₂]

theorem regular_steps : ∀ e ∈ steps c, Regular c e := by
  have h5 : w5 = w5 ∨ w5 = w2 := Or.inl rfl
  have h2 : w2 = w5 ∨ w2 = w2 := Or.inr rfl
  have hboth : ∀ {ps : List String}, (∀ p ∈ ps, p ≠ "status" ∧ p ≠ "compatible") →
      ∀ e ∈ delSteps w5 ps ++ delSteps w2 ps, Regular c e := by
    intro ps hps e he
    rcases List.mem_append.mp he with he | he
    · exact regular_del h5 hps he
    · exact regular_del h2 hps he
  intro e he
  simp only [steps, List.mem_append] at he
  rcases he with (((((he | he) | he) | he) | he) | he) | he
  · exact regular_status h5 rfl he
  · exact regular_status h2 rfl he
  · exact regular_when (fun e he => regular_del h2 (by decide) he) he
  · refine regular_when (fun e he => ?_) he
    rcases List.mem_pair.mp he with rfl | rfl
    · exact ⟨h5, rfl⟩
    · exact ⟨h2, rfl⟩
  · exact regular_when (hboth (by decide)) he
  · exact regular_when (hboth (by decide)) he
  · exact regular_when (hboth (by decide)) he

theorem consistent_steps : Consistent (editsOf x (steps c)) := by
  have hof : ∀ e ∈ editsOf x (steps c), e = editOf c x e.prop := by
    intro e he
    obtain ⟨st, hst, rfl⟩ := List.mem_map.mp he
    obtain ⟨hmem, hx⟩ := List.mem_filter.mp hst
    obtain rfl : st.1 = x := by simpa using hx
    exact (regular_steps st hmem).2
  intro e he e' he' hp
  rw [hof e he, hof e' he', hp]

/-- Both nodes' edits, below `/soc`. -/
def socEdits (l : List Step) (soc : Node) : Node :=
  within w2 (applyEdits (editsOf w2 l)) (within w5 (applyEdits (editsOf w5 l)) soc)

theorem named_socEdits : Named (socEdits l) := fun c => (named_within _).trans (named_within c)

theorem editsOf_cons : editsOf x (e :: l) = if e.1 = x then e.2 :: editsOf x l else editsOf x l := by
  unfold editsOf
  rw [List.filter_cons]
  by_cases h : e.1 = x
  · simp [h]
  · simp [h]

/-- **The edits of a node can be done together.** -/
theorem runSteps_eq : ∀ {l : List Step} {t : Node}, (∀ e ∈ l, e.1 = w5 ∨ e.1 = w2) →
    runSteps l t = within "soc" (socEdits l) t
  | [], t, _ => by
    have hid : ∀ soc, socEdits [] soc = soc := fun soc => within_id.trans within_id
    exact ((within_congr fun soc _ => hid soc).trans within_id).symm
  | e :: l, t, h => by
    obtain ⟨he, hl⟩ := List.forall_mem_cons.mp h
    have hrun : Named e.2.run := named_applyEdits [e.2]
    change runSteps l (within "soc" (within e.1 e.2.run) t) = _
    rw [runSteps_eq hl, within_within named_within]
    refine within_congr fun soc _ => ?_
    unfold socEdits
    rw [editsOf_cons, editsOf_cons]
    rcases he with he | he
    · rw [he, if_pos rfl, if_neg (by decide), within_within hrun]
      rfl
    · rw [he, if_pos rfl, if_neg (by decide), within_comm (named_applyEdits _) hrun apart_wifi,
        within_within hrun]
      rfl

theorem patched_eq : patched c t = addFirmware c (within "soc" (socEdits (steps c)) t) := by
  unfold patched
  rw [runSteps_eq fun e he => (regular_steps e he).1]

/-! ### Patching again -/

/-- No property of the two nodes is there twice. -/
def DistinctWifi (t : Node) : Prop := ∀ soc, t.subnode "soc" = some soc →
  ∀ x n, x = w5 ∨ x = w2 → soc.subnode x = some n → n.Distinct

theorem corebootTable_idem : corebootTable (corebootTable n) = corebootTable n := by
  have hcompat : (corebootTable n).get "compatible" = some (cstr "coreboot") := by
    unfold corebootTable
    rw [get_set_ne (by decide), get_set, if_pos rfl]
  have hreg : (corebootTable n).get "reg" = some corebootReg := by
    unfold corebootTable
    rw [get_set, if_pos rfl]
  have h₁ : (corebootTable n).set "compatible" (cstr "coreboot") = corebootTable n :=
    PropEdit.Settled.run_eq (e := .put _ _) hcompat
  have h₂ : (corebootTable n).set "reg" corebootReg = corebootTable n :=
    PropEdit.Settled.run_eq (e := .put _ _) hreg
  calc corebootTable (corebootTable n)
      = ((corebootTable n).set "compatible" (cstr "coreboot")).set "reg" corebootReg := rfl
    _ = corebootTable n := by rw [h₁, h₂]

theorem ranges_ensure : ((ensureRanges n).get "ranges").isSome := by
  unfold ensureRanges
  split
  · assumption
  · rw [get_set, if_pos rfl]
    rfl

theorem name_ensure : (ensureRanges n).name = n.name := by
  unfold ensureRanges
  split
  · rfl
  · rfl

theorem named_firmware : Named firmware := fun _ => name_edit.trans name_ensure

theorem named_corebootTable : Named corebootTable := fun _ => rfl

theorem firmware_idem : firmware (firmware n) = firmware n := by
  have hranges : ((firmware n).get "ranges").isSome := by
    unfold firmware
    rw [get_edit]
    exact ranges_ensure
  have hensure : ensureRanges (firmware n) = firmware n := by
    unfold ensureRanges
    rw [if_pos hranges]
  calc firmware (firmware n)
      = edit "coreboot" corebootTable (firmware n) := congrArg (edit "coreboot" corebootTable) hensure
    _ = edit "coreboot" (fun c => corebootTable (corebootTable c)) (ensureRanges n) :=
        edit_edit named_corebootTable
    _ = firmware n := by
        unfold firmware
        rw [show (fun c => corebootTable (corebootTable c)) = corebootTable from
          funext fun _ => corebootTable_idem]

theorem addFirmware_idem : addFirmware c (addFirmware c t) = addFirmware c t := by
  unfold addFirmware
  split
  · rw [edit_edit named_firmware, show (fun c => firmware (firmware c)) = firmware from
      funext fun _ => firmware_idem]
  · rfl

theorem addFirmware_soc {f : Node → Node} (hf : Named f) :
    within "soc" f (addFirmware c t) = addFirmware c (within "soc" f t) := by
  unfold addFirmware
  split
  · exact edit_within_comm hf named_firmware apart_soc
  · rfl

theorem socEdits_idem {soc : Node}
    (h : ∀ x n, x = w5 ∨ x = w2 → soc.subnode x = some n → n.Distinct) :
    socEdits (steps c) (socEdits (steps c) soc) = socEdits (steps c) soc := by
  have hn5 := named_applyEdits (editsOf w5 (steps c))
  have hn2 := named_applyEdits (editsOf w2 (steps c))
  unfold socEdits
  rw [within_comm hn5 hn2 apart_wifi, within_within hn2, within_within hn5]
  have h5 : within w5 (fun n => applyEdits (editsOf w5 (steps c)) (applyEdits (editsOf w5 (steps c)) n))
      soc = within w5 (applyEdits (editsOf w5 (steps c))) soc :=
    within_congr fun n hn => applyEdits_idem (h w5 n (Or.inl rfl) hn) consistent_steps
  rw [h5]
  refine within_congr fun n hn => applyEdits_idem (h w2 n (Or.inr rfl) ?_) consistent_steps
  rwa [subnode_within_ne hn5 apart_wifi] at hn

/-- **Patching a patched tree changes nothing.** -/
theorem patched_idem (h : DistinctWifi t) : patched c (patched c t) = patched c t := by
  rw [patched_eq, patched_eq, addFirmware_soc named_socEdits, addFirmware_idem,
    within_within named_socEdits]
  exact congrArg (addFirmware c) (within_congr fun soc hsoc => socEdits_idem (h soc hsoc))

end Together

/-! ### The tool on its own output -/

section Again

variable {fits : ℕ → Node → Bool} {c : Patches} {dtb : Fdt} {t t' : Node} {k : ℕ}

/-- **`patch_dtb` on its own output** gives it again, whatever the toggles. -/
theorem patchDtb_again (hdis : DistinctWifi dtb.tree) (h : patchDtb fits c dtb = .ok t)
    (h' : patchDtb fits c ⟨t, k⟩ = .ok t') : t' = t := by
  rw [patchDtb_ok h', patchDtb_ok h]
  exact patched_idem hdis

/-- A tree with the two radios. -/
def radios : Fdt where
  tree := .mk "" [] [
    .mk "soc" [("ranges", [])] [
      .mk "wifi@a000000" [("compatible", cstr "qcom,ipq4019-wifi"), ("status", cstr "okay")] [],
      .mk "wifi@a800000" [("clocks", [0]), ("pinctrl-0", [0])] []]]
  size := 512

/-- No variable overrides a toggle. -/
def defaults : Patches := patches fun _ => none

theorem distinct_radios : DistinctWifi radios.tree := by
  intro soc hsoc x n hx hn
  obtain rfl : _ = soc := Option.some.inj hsoc
  rcases hx with rfl | rfl
  · obtain rfl : _ = n := Option.some.inj hn
    unfold Distinct
    decide
  · obtain rfl : _ = n := Option.some.inj hn
    unfold Distinct
    decide

theorem patchDtb_again_radios : ∃ t t', patchDtb (fun _ _ => true) defaults radios = .ok t ∧
    patchDtb (fun _ _ => true) defaults ⟨t, 512⟩ = .ok t' ∧ t' = t := by
  have htree : patchDtb (fun _ _ => true) defaults radios = .ok (patched defaults radios.tree) := by
    obtain ⟨t, ht⟩ := exists_of_isOk (x := patchDtb (fun _ _ => true) defaults radios) (by decide)
    rw [ht, patchDtb_ok ht]
  obtain ⟨t', ht'⟩ := exists_of_isOk
    (x := patchDtb (fun _ _ => true) defaults ⟨patched defaults radios.tree, 512⟩) (by decide)
  exact ⟨_, t', htree, ht', patchDtb_again distinct_radios htree ht'⟩

end Again

end Ipq4019.Fit.Patched
