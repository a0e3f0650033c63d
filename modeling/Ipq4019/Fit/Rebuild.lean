import Ipq4019.Lib.DeviceTree
import Ipq4019.Lib.Digest
import Mathlib.Data.List.DropRight

/-!
# Rebuilding a FIT: the tool's code

`rebuild_fit` of `patch_fit_dtb.py`.  The FIT is the tree in its blob; the library raises
`FdtException` where an operation of libfdt fails, and `bytes.decode` raises `UnicodeDecodeError`.
The walk over the hash nodes is a `while` loop: it is given the number of the subnodes, and that it
ends by then is shown in `Ipq4019.Fit.Hashes`.  The console output is left out.
-/

namespace Ipq4019.Fit.Rebuild

open Ipq4019.Lib.DeviceTree
open Ipq4019.Lib.Digest (toBytes crc32 sha1 sha256)

/-- What a call may raise; `unfinished` stands for a loop that goes on. -/
inductive PyError where
  | fdtException (e : FdtError)
  | unicodeDecodeError
  | unfinished

def lift {α : Type} (r : Except FdtError α) : Except PyError α := r.mapError .fdtException

/-- A text with its terminator. -/
def cstr (s : String) : Bytes := s.toUTF8.data.toList ++ [0]

/-- `bytes(b).rstrip(b"\x00").decode()` -/
def decodeStripped (b : Bytes) : Except PyError String :=
  match String.fromUTF8? ⟨(b.rdropWhile (· = 0)).toArray⟩ with
  | some s => .ok s
  | none => .error .unicodeDecodeError

def crc32Of (data : Bytes) : UInt32 := crc32 data &&& 0xffffffff

variable (fits : ℕ → Node → Bool)

/-- What the loop does with one hash node. -/
def refreshHash (newInnerDtb : Bytes) (fdt : Fdt) (sub : Offset) (algo : String) :
    Except PyError Fdt :=
  if algo = "crc32" then
    lift (setprop fits fdt sub "value" (toBytes 4 (crc32Of newInnerDtb).toNat))
  else if algo = "sha1" then lift (setprop fits fdt sub "value" (sha1 newInnerDtb))
  else if algo = "sha256" then lift (setprop fits fdt sub "value" (sha256 newInnerDtb))
  else .ok fdt

/-- `while sub >= 0` -/
def walkHashes (newInnerDtb : Bytes) : ℕ → Fdt → Option Offset → Except PyError Fdt
  | _, fdt, none => .ok fdt
  | 0, _, some _ => .error .unfinished
  | k + 1, fdt, some sub =>
    match getprop fdt sub "algo" with
    | .error _ => walkHashes newInnerDtb k fdt (nextSubnode fdt sub)
    | .ok algoB => do
      let algo ← decodeStripped algoB
      let fdt ← refreshHash fits newInnerDtb fdt sub algo
      walkHashes newInnerDtb k fdt (nextSubnode fdt sub)

/-- `try` the node of the name, `except FdtException` add it. -/
def subnodeOrAdd (fdt : Fdt) (off : Offset) (s : String) : Except PyError (Fdt × Offset) :=
  match subnodeOffset fdt off s with
  | .ok o => .ok (fdt, o)
  | .error _ => lift (addSubnode fits fdt off s)

/-- The ramdisk's image, its hash and the reference to it. -/
def addRamdisk (imagesOff : Offset) (ramdisk : Bytes) (fdt : Fdt) : Except PyError Fdt := do
  let (fdt, rdOff) ← subnodeOrAdd fits fdt imagesOff "ramdisk-1"
  let fdt ← lift (setprop fits fdt rdOff "description" (cstr "OpenWrt overlay initramfs"))
  let fdt ← lift (setprop fits fdt rdOff "data" ramdisk)
  let fdt ← lift (setprop fits fdt rdOff "type" (cstr "ramdisk"))
  let fdt ← lift (setprop fits fdt rdOff "arch" (cstr "arm"))
  let fdt ← lift (setprop fits fdt rdOff "os" (cstr "linux"))
  let fdt ← lift (setprop fits fdt rdOff "compression" (cstr "none"))
  let rdHash := sha1 ramdisk
  let (fdt, h) ← subnodeOrAdd fits fdt rdOff "hash-1"
  let fdt ← lift (setprop fits fdt h "algo" (cstr "sha1"))
  let fdt ← lift (setprop fits fdt h "value" rdHash)
  let configs ← lift (subnodeOffset fdt [] "configurations")
  let cfg ← lift (subnodeOffset fdt configs "config@1")
  lift (setprop fits fdt cfg "ramdisk" (cstr "ramdisk-1"))

/-- The number of a node's subnodes. -/
def subnodes (fdt : Fdt) (off : Offset) : ℕ := (fdt.tree.at' off).elim 0 fun n => n.children.length

/-- `orig` is the FIT in the bytes that were read, the result is the one in the bytes returned. -/
def rebuildFit (orig : Fdt) (newInnerDtb : Bytes) (ramdisk : Option Bytes) :
    Except PyError Node := do
  let rdSize := ramdisk.elim 0 List.length
  let extra := (newInnerDtb.length - orig.size) + rdSize + 16384
  let fdt ← lift (resize fits orig (orig.size + extra))
  let imagesOff ← lift (subnodeOffset fdt [] "images")
  let fdtOff ← lift (subnodeOffset fdt imagesOff "fdt-1")
  let fdt ← lift (setprop fits fdt fdtOff "data" newInnerDtb)
  let fdt ← walkHashes fits newInnerDtb (subnodes fdt fdtOff) fdt (firstSubnode fdt fdtOff)
  let fdt ← ramdisk.elim (.ok fdt) fun rd => addRamdisk fits imagesOff rd fdt
  return fdt.tree

end Ipq4019.Fit.Rebuild
