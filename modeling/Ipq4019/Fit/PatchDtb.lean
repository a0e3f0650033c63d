import Ipq4019.Lib.TreeEdit
import Ipq4019.Fit.Rebuild

/-!
# Patching the device tree: the tool's code

`patch_dtb` and `main` of `patch_fit_dtb.py`, with the toggles that the environment overrides, and the
two tools that read the result back.  How a device tree is laid out in a blob is libfdt's (`Blob`).
The console output is left out.
-/

namespace Ipq4019.Fit.PatchDtb

open Ipq4019.Lib.DeviceTree Ipq4019.Fit.Rebuild
open Ipq4019.Lib.Digest (toBytes)

/-! ### The toggles -/

/-- A value in `PATCHES`. -/
inductive PatchVal where
  | str (s : String)
  | bool (b : Bool)
  deriving DecidableEq

/-- What a value counts as in an `if`. -/
def PatchVal.truthy : PatchVal → Bool
  | str s => s ≠ ""
  | bool b => b

/-- The value of an environment variable. -/
def PatchVal.ofEnv (v : String) : PatchVal :=
  if v ∈ ["on", "off"] then str v
  else if v.toLower ∈ ["true", "1", "yes"] then bool true
  else if v.toLower ∈ ["false", "0", "no"] then bool false
  else str v

structure Patches where
  wifiA000000 : PatchVal
  wifiA800000 : PatchVal
  stripWifiPinctrl : PatchVal
  renameWifiCompat : PatchVal
  stripWifiClocksResets : PatchVal
  stripWifiResetsOnly : PatchVal
  stripWifiClocksOnly : PatchVal
  addCorebootReg : PatchVal

/-- `PATCHES`, with what the environment overrides. -/
def patches (env : String → Option String) : Patches :=
  let get k d := (env ("FIT_" ++ k)).elim d PatchVal.ofEnv
  { wifiA000000 := get "WIFI_A000000" (.str "off")
    wifiA800000 := get "WIFI_A800000" (.str "off")
    stripWifiPinctrl := get "STRIP_WIFI_PINCTRL" (.bool false)
    renameWifiCompat := get "RENAME_WIFI_COMPAT" (.bool false)
    stripWifiClocksResets := get "STRIP_WIFI_CLOCKS_RESETS" (.bool false)
    stripWifiResetsOnly := get "STRIP_WIFI_RESETS_ONLY" (.bool false)
    stripWifiClocksOnly := get "STRIP_WIFI_CLOCKS_ONLY" (.bool false)
    addCorebootReg := get "ADD_COREBOOT_REG" (.bool true) }

/-! ### The patches -/

variable (fits : ℕ → Node → Bool)

/-- A property of a node is set, if the node is there. -/
def setIfThere (path : List String) (p : String) (v : Bytes) (fdt : Fdt) : Except PyError Fdt :=
  match pathOffset fdt path with
  | .error _ => .ok fdt
  | .ok off => lift (setprop fits fdt off p v)

def setStatus (path : List String) (status : String) : Fdt → Except PyError Fdt :=
  setIfThere fits path "status" (cstr status)

def delProp (path : List String) (prop : String) (fdt : Fdt) : Except PyError Fdt :=
  match pathOffset fdt path with
  | .error _ => .ok fdt
  | .ok off => match delprop fdt off prop with
    | .ok fdt => .ok fdt
    | .error _ => .ok fdt

/-- One property after the other. -/
def delProps (path : List String) (props : List String) (fdt : Fdt) : Except PyError Fdt :=
  props.foldlM (fun fdt prop => delProp path prop fdt) fdt

/-- `reg = <0x87000000 0x280000>` -/
def corebootReg : Bytes := toBytes 4 0x87000000 ++ toBytes 4 0x00280000

/-- `/firmware`, there or added. -/
def firmwareNode (fdt : Fdt) : Except PyError (Fdt × Offset) :=
  match pathOffset fdt ["firmware"] with
  | .ok off => .ok (fdt, off)
  | .error _ => do
    let root ← lift (pathOffset fdt [])
    lift (addSubnode fits fdt root "firmware")

/-- Its `ranges`. -/
def firmwareRanges (fdt : Fdt) (firmwareOff : Offset) : Except PyError Fdt :=
  match getprop fdt firmwareOff "ranges" with
  | .ok _ => .ok fdt
  | .error _ => lift (setprop fits fdt firmwareOff "ranges" [])

def addCorebootNode (fdt : Fdt) : Except PyError Fdt := do
  let (fdt, firmwareOff) ← firmwareNode fits fdt
  let fdt ← firmwareRanges fits fdt firmwareOff
  let (fdt, cbOff) ← subnodeOrAdd fits fdt firmwareOff "coreboot"
  let fdt ← lift (setprop fits fdt cbOff "compatible" (cstr "coreboot"))
  lift (setprop fits fdt cbOff "reg" corebootReg)

def wifi5 : List String := ["soc", "wifi@a000000"]
def wifi2 : List String := ["soc", "wifi@a800000"]

/-- The status that a node is given. -/
def setWanted (path : List String) (want : PatchVal) (fdt : Fdt) : Except PyError Fdt :=
  if want = .str "off" then setStatus fits path "disabled" fdt
  else if want = .str "on" then setStatus fits path "okay" fdt
  else .ok fdt

/-- A patch that is on or off. -/
def when (v : PatchVal) (f : Fdt → Except PyError Fdt) (fdt : Fdt) : Except PyError Fdt :=
  if v.truthy then f fdt else .ok fdt

def patchDtb (c : Patches) (dtb : Fdt) : Except PyError Node := do
  let fdt ← lift (resize fits dtb (dtb.size + 4096))
  let fdt ← setWanted fits wifi5 c.wifiA000000 fdt
  let fdt ← setWanted fits wifi2 c.wifiA800000 fdt
  let fdt ← when c.stripWifiPinctrl (delProps wifi2 ["pinctrl-0", "pinctrl-names"]) fdt
  let fdt ← when c.renameWifiCompat (fun fdt => do
    let fdt ← setIfThere fits wifi5 "compatible" (cstr "unused,nothing") fdt
    setIfThere fits wifi2 "compatible" (cstr "unused,nothing") fdt) fdt
  let fdt ← when c.stripWifiClocksResets (fun fdt => do
    let fdt ← delProps wifi5 ["clocks", "clock-names", "resets", "reset-names"] fdt
    delProps wifi2 ["clocks", "clock-names", "resets", "reset-names"] fdt) fdt
  let fdt ← when c.stripWifiResetsOnly (fun fdt => do
    let fdt ← delProps wifi5 ["resets", "reset-names"] fdt
    delProps wifi2 ["resets", "reset-names"] fdt) fdt
  let fdt ← when c.stripWifiClocksOnly (fun fdt => do
    let fdt ← delProps wifi5 ["clocks", "clock-names"] fdt
    delProps wifi2 ["clocks", "clock-names"] fdt) fdt
  let fdt ← when c.addCorebootReg (addCorebootNode fits) fdt
  return fdt.tree

/-! ### The tools -/

/-- How libfdt reads a tree from a blob, and writes one. -/
structure Blob where
  load : Bytes → Except FdtError Node
  flatten : Node → Bytes

/-- The property `data` of an image. -/
def imageData (fit : Fdt) (s : String) : Except PyError Bytes := do
  let imagesOff ← lift (subnodeOffset fit [] "images")
  let off ← lift (subnodeOffset fit imagesOff s)
  lift (getprop fit off "data")

/-- `main`: the FIT that is written, from the one that was read. -/
def main (lib : Blob) (c : Patches) (rdBytes : Option Bytes) (fit : Fdt) : Except PyError Node := do
  let inner ← imageData fit "fdt-1"
  let dtb ← lift (lib.load inner)
  let patchedInner ← patchDtb fits c ⟨dtb, inner.length⟩
  rebuildFit fits fit (lib.flatten patchedInner) rdBytes

/-- What `verify_ramdisk_in_fit.py` decompresses. -/
def ramdiskInFit (fit : Fdt) : Except PyError Bytes := imageData fit "ramdisk-1"

/-- The properties that `verify_fit_config.py` prints. -/
def configProps (fit : Fdt) : Except PyError (List (String × Bytes)) := do
  let configs ← lift (subnodeOffset fit [] "configurations")
  let cfg ← lift (subnodeOffset fit configs "config@1")
  return (fit.tree.at' cfg).elim [] Node.props

end Ipq4019.Fit.PatchDtb
