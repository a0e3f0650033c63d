import Mathlib.Algebra.Group.Nat.Defs
import Mathlib.Data.List.Basic
import Mathlib.Logic.Function.Iterate
import Mathlib.Tactic.Common

/-!
# Digests of byte strings

CRC-32 as zlib computes it, SHA-1, and the SHA-2 family.  SHA-256, SHA-384 and SHA-512 are one
function of the word's width, the number of rounds, the distances of the rotations and the initial
hash value.  The constants of SHA-2 are the first bits of the fractional parts of the roots of the
first primes and are computed from these (`rootBits`).
-/

namespace Ipq4019.Lib.Digest

abbrev Bytes := List UInt8

/-- A number in `n` bytes, the most significant one first. -/
def toBytes (n v : ℕ) : Bytes := (List.range n).map fun i => UInt8.ofNat (v >>> (8 * (n - 1 - i)))

/-! ### CRC-32 -/

def crcShift (c : UInt32) : UInt32 := if c &&& 1 = 1 then (c >>> 1) ^^^ 0xedb88320 else c >>> 1

def crcByte (c : UInt32) (b : UInt8) : UInt32 := crcShift^[8] (c ^^^ b.toUInt32)

def crc32 (data : Bytes) : UInt32 := data.foldl crcByte 0xffffffff ^^^ 0xffffffff

example : crc32 [0x61, 0x62, 0x63] = 0x352441c2 := by decide +kernel

/-! ### Blocks -/

/-- The message with its padding: a one bit, zeros, and its length in bits in the last `len` bytes
of a block. -/
def pad (block len : ℕ) (data : Bytes) : Bytes :=
  data ++ 0x80 :: List.replicate ((block - (data.length + 1 + len) % block) % block) 0 ++
    toBytes len (8 * data.length)

/-- A message cut into pieces of `n`. -/
def pieces (n : ℕ) (data : Bytes) : List Bytes :=
  (List.range (data.length / n)).map fun i => (data.drop (n * i)).take n

def wordOf (w : ℕ) (bs : Bytes) : BitVec w :=
  bs.foldl (fun acc b => acc <<< 8 ||| BitVec.ofNat w b.toNat) 0

/-- The words of a block. -/
def wordsOf (w : ℕ) (bs : Bytes) : List (BitVec w) := (pieces (w / 8) bs).map (wordOf w)

/-- The digest in bytes. -/
def bytesOf {w : ℕ} (ws : List (BitVec w)) : Bytes := ws.flatMap fun x => toBytes (w / 8) x.toNat

/-- `n` more words of a schedule, each one made of those before it; the latest is first. -/
def extend {w : ℕ} (next : List (BitVec w) → BitVec w) : ℕ → List (BitVec w) → List (BitVec w)
  | 0, ws => ws
  | n + 1, ws => extend next n (next ws :: ws)

/-! ### SHA-1 -/

def sha1Next (ws : List (BitVec 32)) : BitVec 32 :=
  (ws.getD 2 0 ^^^ ws.getD 7 0 ^^^ ws.getD 13 0 ^^^ ws.getD 15 0).rotateLeft 1

structure Sha1State where
  a : BitVec 32
  b : BitVec 32
  c : BitVec 32
  d : BitVec 32
  e : BitVec 32

def sha1Round (s : Sha1State) (x : BitVec 32 × ℕ) : Sha1State :=
  let (f, k) : BitVec 32 × BitVec 32 :=
    if x.2 < 20 then ((s.b &&& s.c) ||| (~~~s.b &&& s.d), 0x5a827999)
    else if x.2 < 40 then (s.b ^^^ s.c ^^^ s.d, 0x6ed9eba1)
    else if x.2 < 60 then ((s.b &&& s.c) ||| (s.b &&& s.d) ||| (s.c &&& s.d), 0x8f1bbcdc)
    else (s.b ^^^ s.c ^^^ s.d, 0xca62c1d6)
  ⟨s.a.rotateLeft 5 + f + s.e + k + x.1, s.a, s.b.rotateLeft 30, s.c, s.d⟩

def sha1Block (h : Sha1State) (block : Bytes) : Sha1State :=
  let s := ((extend sha1Next 64 (wordsOf 32 block).reverse).reverse.zipIdx).foldl sha1Round h
  ⟨h.a + s.a, h.b + s.b, h.c + s.c, h.d + s.d, h.e + s.e⟩

def sha1 (data : Bytes) : Bytes :=
  let h := (pieces 64 (pad 64 8 data)).foldl sha1Block
    ⟨0x67452301, 0xefcdab89, 0x98badcfe, 0x10325476, 0xc3d2e1f0⟩
  bytesOf [h.a, h.b, h.c, h.d, h.e]

example : sha1 [0x61, 0x62, 0x63] = toBytes 20 0xa9993e364706816aba3e25717850c26c9cd0d89d := by
  decide +kernel

/-! ### SHA-2 -/

/-- The largest number below `2 ^ bits` whose `k`-th power is at most `x`. -/
def root (k x : ℕ) : ℕ → ℕ → ℕ
  | 0, r => r
  | bits + 1, r => root k x bits (if (r + 2 ^ bits) ^ k ≤ x then r + 2 ^ bits else r)

/-- The first `w` bits of the fractional part of the `k`-th root of `p`. -/
def rootBits (k w p : ℕ) : BitVec w := BitVec.ofNat w (root k (p * 2 ^ (w * k)) (w + 5) 0)

def primes : List ℕ := [2, 3, 5, 7, 11, 13, 17, 19, 23, 29, 31, 37, 41, 43, 47, 53, 59, 61, 67, 71,
  73, 79, 83, 89, 97, 101, 103, 107, 109, 113, 127, 131, 137, 139, 149, 151, 157, 163, 167, 173,
  179, 181, 191, 193, 197, 199, 211, 223, 227, 229, 233, 239, 241, 251, 257, 263, 269, 271, 277,
  281, 283, 293, 307, 311, 313, 317, 331, 337, 347, 349, 353, 359, 367, 373, 379, 383, 389, 397,
  401, 409]

/-- The distances of a function's rotations. -/
structure Rotations where
  r₁ : ℕ
  r₂ : ℕ
  r₃ : ℕ

/-- A member of the family. -/
structure Sha2 (w : ℕ) where
  rounds : ℕ
  sum0 : Rotations
  sum1 : Rotations
  /-- In the schedule the last one is a shift. -/
  sigma0 : Rotations
  sigma1 : Rotations

def sha2Of32 : Sha2 32 := ⟨64, ⟨2, 13, 22⟩, ⟨6, 11, 25⟩, ⟨7, 18, 3⟩, ⟨17, 19, 10⟩⟩
def sha2Of64 : Sha2 64 := ⟨80, ⟨28, 34, 39⟩, ⟨14, 18, 41⟩, ⟨1, 8, 7⟩, ⟨19, 61, 6⟩⟩

variable {w : ℕ} (S : Sha2 w)

def Rotations.sum (r : Rotations) (x : BitVec w) : BitVec w :=
  x.rotateRight r.r₁ ^^^ x.rotateRight r.r₂ ^^^ x.rotateRight r.r₃

def Rotations.sigma (r : Rotations) (x : BitVec w) : BitVec w :=
  x.rotateRight r.r₁ ^^^ x.rotateRight r.r₂ ^^^ x >>> r.r₃

def sha2Next (ws : List (BitVec w)) : BitVec w :=
  S.sigma1.sigma (ws.getD 1 0) + ws.getD 6 0 + S.sigma0.sigma (ws.getD 14 0) + ws.getD 15 0

structure Sha2State (w : ℕ) where
  a : BitVec w
  b : BitVec w
  c : BitVec w
  d : BitVec w
  e : BitVec w
  f : BitVec w
  g : BitVec w
  h : BitVec w

def sha2Round (s : Sha2State w) (x : BitVec w × BitVec w) : Sha2State w :=
  let t₁ := s.h + S.sum1.sum s.e + ((s.e &&& s.f) ^^^ (~~~s.e &&& s.g)) + x.2 + x.1
  let t₂ := S.sum0.sum s.a + ((s.a &&& s.b) ^^^ (s.a &&& s.c) ^^^ (s.b &&& s.c))
  ⟨t₁ + t₂, s.a, s.b, s.c, s.d + t₁, s.e, s.f, s.g⟩

/-- The constants of the rounds. -/
def sha2Consts : List (BitVec w) := (primes.take S.rounds).map (rootBits 3 w)

def sha2Block (ks : List (BitVec w)) (h : Sha2State w) (block : Bytes) : Sha2State w :=
  let s := ((extend (sha2Next S) (S.rounds - 16) (wordsOf w block).reverse).reverse.zip ks).foldl
    (sha2Round S) h
  ⟨h.a + s.a, h.b + s.b, h.c + s.c, h.d + s.d, h.e + s.e, h.f + s.f, h.g + s.g, h.h + s.h⟩

/-- The initial value, from the square roots of eight primes. -/
def sha2Start (ps : List ℕ) : Sha2State w :=
  let x i := rootBits 2 w (ps.getD i 0)
  ⟨x 0, x 1, x 2, x 3, x 4, x 5, x 6, x 7⟩

/-- The eight words of the result. -/
def sha2 (ps : List ℕ) (data : Bytes) : List (BitVec w) :=
  let h := (pieces (2 * w) (pad (2 * w) (w / 4) data)).foldl (sha2Block S (sha2Consts S))
    (sha2Start ps)
  [h.a, h.b, h.c, h.d, h.e, h.f, h.g, h.h]

def sha256 (data : Bytes) : Bytes := bytesOf (sha2 sha2Of32 primes data)
def sha384 (data : Bytes) : Bytes := bytesOf ((sha2 sha2Of64 (primes.drop 8) data).take 6)
def sha512 (data : Bytes) : Bytes := bytesOf (sha2 sha2Of64 primes data)

example : sha256 [0x61, 0x62, 0x63] =
    toBytes 32 0xba7816bf8f01cfea414140de5dae2223b00361a396177a9cb410ff61f20015ad := by
  decide +kernel

end Ipq4019.Lib.Digest
