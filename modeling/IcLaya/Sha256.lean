import IcLaya.Snapshots

/-! SHA-256, the hash that the code uses, for runs on concrete inputs. -/
namespace IcLaya.Sha256
open ByteFrames

def roundConstants : List UInt32 := [
  0x428a2f98, 0x71374491, 0xb5c0fbcf, 0xe9b5dba5, 0x3956c25b, 0x59f111f1, 0x923f82a4, 0xab1c5ed5,
  0xd807aa98, 0x12835b01, 0x243185be, 0x550c7dc3, 0x72be5d74, 0x80deb1fe, 0x9bdc06a7, 0xc19bf174,
  0xe49b69c1, 0xefbe4786, 0x0fc19dc6, 0x240ca1cc, 0x2de92c6f, 0x4a7484aa, 0x5cb0a9dc, 0x76f988da,
  0x983e5152, 0xa831c66d, 0xb00327c8, 0xbf597fc7, 0xc6e00bf3, 0xd5a79147, 0x06ca6351, 0x14292967,
  0x27b70a85, 0x2e1b2138, 0x4d2c6dfc, 0x53380d13, 0x650a7354, 0x766a0abb, 0x81c2c92e, 0x92722c85,
  0xa2bfe8a1, 0xa81a664b, 0xc24b8b70, 0xc76c51a3, 0xd192e819, 0xd6990624, 0xf40e3585, 0x106aa070,
  0x19a4c116, 0x1e376c08, 0x2748774c, 0x34b0bcb5, 0x391c0cb3, 0x4ed8aa4a, 0x5b9cca4f, 0x682e6ff3,
  0x748f82ee, 0x78a5636f, 0x84c87814, 0x8cc70208, 0x90befffa, 0xa4506ceb, 0xbef9a3f7, 0xc67178f2]

/-- Eight words: the state of the compression. -/
structure Words where
  a : UInt32
  b : UInt32
  c : UInt32
  d : UInt32
  e : UInt32
  f : UInt32
  g : UInt32
  h : UInt32

def start : Words := ⟨0x6a09e667, 0xbb67ae85, 0x3c6ef372, 0xa54ff53a, 0x510e527f, 0x9b05688c,
  0x1f83d9ab, 0x5be0cd19⟩

def rotr (x : UInt32) (n : UInt32) : UInt32 := (x >>> n) ||| (x <<< (32 - n))

/-- The next word of the schedule, from the 16 before it. -/
def expand (w : List UInt32) : UInt32 :=
  let x := w.getD 1 0
  let y := w.getD 14 0
  w.getD 0 0 + (rotr x 7 ^^^ rotr x 18 ^^^ (x >>> 3)) + w.getD 9 0 +
    (rotr y 17 ^^^ rotr y 19 ^^^ (y >>> 10))

def round (s : Words) (k w : UInt32) : Words :=
  let t₁ := s.h + (rotr s.e 6 ^^^ rotr s.e 11 ^^^ rotr s.e 25) +
    ((s.e &&& s.f) ^^^ (~~~s.e &&& s.g)) + k + w
  let t₂ := (rotr s.a 2 ^^^ rotr s.a 13 ^^^ rotr s.a 22) +
    ((s.a &&& s.b) ^^^ (s.a &&& s.c) ^^^ (s.b &&& s.c))
  ⟨t₁ + t₂, s.a, s.b, s.c, s.d + t₁, s.e, s.f, s.g⟩

/-- 64 rounds over a window of 16 words. -/
def rounds : List UInt32 → List UInt32 → Words → Words
  | [], _, s => s
  | k :: ks, w, s => rounds ks (w.tail ++ [expand w]) (round s k (w.headD 0))

def compress (s : Words) (block : List UInt32) : Words :=
  let t := rounds roundConstants block s
  ⟨s.a + t.a, s.b + t.b, s.c + t.c, s.d + t.d, s.e + t.e, s.f + t.f, s.g + t.g, s.h + t.h⟩

def pad (bytes : List UInt8) : List UInt8 :=
  bytes ++ [0x80] ++ List.replicate ((119 - bytes.length % 64) % 64) 0 ++
    beBytes 8 (8 * bytes.length)

def words : List UInt8 → List UInt32
  | a :: b :: c :: d :: rest =>
    UInt32.ofNat (((a.toNat * 256 + b.toNat) * 256 + c.toNat) * 256 + d.toNat) :: words rest
  | _ => []

def blocks : ℕ → List UInt32 → Words → Words
  | 0, _, s => s
  | n + 1, w, s => blocks n (w.drop 16) (compress s (w.take 16))

def sha256 (bytes : List UInt8) : Vector UInt8 32 :=
  let padded := pad bytes
  let s := blocks (padded.length / 64) (words padded) start
  Vector.ofFn fun i => (beBytes 4 ([s.a, s.b, s.c, s.d, s.e, s.f, s.g, s.h].getD (i.val / 4) 0).toNat).getD
    (i.val % 4) 0

example : (sha256 []).toList.take 4 = [0xe3, 0xb0, 0xc4, 0x42] := by decide +kernel

def Sum : Type := Vector UInt8 32

instance : ByteDigest Sum :=
  { Hashing.ofSha256 sha256 with length_toBytes := fun d => d.size_toArray }

/-- A checksum in the place of SHA-256, for runs that are cheap to evaluate. -/
def checksum (bytes : List UInt8) : Vector UInt8 32 :=
  let n := bytes.foldl (fun n b => (n * 257 + b.toNat + 1) % 2 ^ 256) 0
  Vector.ofFn fun i => UInt8.ofNat (n / 256 ^ i.val)

def Checksum : Type := Vector UInt8 32

instance : ByteDigest Checksum :=
  { Hashing.ofSha256 checksum with length_toBytes := fun d => d.size_toArray }

end IcLaya.Sha256
