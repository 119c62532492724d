import Std.Data.ExtTreeMap
import IcLaya.ByteFrames

/-!
# Digests, principals and canonical pre-images

The type of digests is a parameter. The code has `[u8;32]` and SHA-256; no injective
hash into 32 bytes exists, so over that type "collision-free" would assume a falsehood.
What the code relies on is kept: a total order for its maps, equality, the zero digest,
a byte image that can be told from what follows it and read back, and a hash of byte strings.
`Hashing.ofSha256` is the code's own choice and `SymbolicDigest` a collision-free one.
-/
namespace IcLaya
open Std (TransOrd LawfulEqOrd)
open ByteFrames

/-- What the code uses of its digest type and of the SHA-256 crate. -/
class Hashing (Digest : Type) extends Ord Digest where
  transOrd : TransOrd Digest
  lawfulEqOrd : LawfulEqOrd Digest
  zero : Digest
  toBytes : Digest → List UInt8
  toBytes_append_inj : ∀ {a b : Digest} {r s : List UInt8},
    toBytes a ++ r = toBytes b ++ s → a = b ∧ r = s
  ofBytes : List UInt8 → Option Digest
  ofBytes_toBytes : ∀ d, ofBytes (toBytes d) = some d
  sha256 : List UInt8 → Digest

attribute [instance] Hashing.transOrd Hashing.lawfulEqOrd

instance {Digest : Type} [Hashing Digest] : DecidableEq Digest := fun a b =>
  decidable_of_iff (compare a b = .eq) Std.compare_eq_iff_eq

/-- No two byte strings have one hash. -/
def CollisionFree (Digest : Type) [Hashing Digest] : Prop :=
  Function.Injective (Hashing.sha256 : List UInt8 → Digest)

private theorem transOrd_compareOn {α β : Type} [Ord β] [TransOrd β] (f : α → β) :
    Std.TransCmp (compareOn f) := inferInstance

private theorem lawfulEqOrd_compareOn {α β : Type} [Ord β] [LawfulEqOrd β] (f : α → β)
    (hf : Function.Injective f) : Std.LawfulEqCmp (compareOn f) where
  compare_self := by simp [compareOn]
  eq_of_compare := by
    intro a b h
    exact hf (Std.compare_eq_iff_eq.mp h)

/-- `try_into` of a byte slice into an array of 32. -/
def toBytes32 (bs : List UInt8) : Option (Vector UInt8 32) :=
  if h : bs.length = 32 then some ⟨bs.toArray, by simpa using h⟩ else none

theorem toBytes32_toList (v : Vector UInt8 32) : toBytes32 v.toList = some v := by
  rw [toBytes32, dif_pos (by simp), Option.some_inj]
  exact Vector.toList_inj.mp rfl

/-- The digests of the code: 32 bytes, and a hash into them. -/
@[reducible] def Hashing.ofSha256 (f : List UInt8 → Vector UInt8 32) : Hashing (Vector UInt8 32) where
  compare := compareOn Vector.toList
  transOrd := transOrd_compareOn _
  lawfulEqOrd := lawfulEqOrd_compareOn _ fun a b h => Vector.toList_inj.mp h
  zero := Vector.replicate 32 0
  toBytes := Vector.toList
  toBytes_append_inj := by
    intro a b r s h
    obtain ⟨hv, hr⟩ := List.append_inj h (by simp)
    exact ⟨Vector.toList_inj.mp hv, hr⟩
  ofBytes := toBytes32
  ofBytes_toBytes := toBytes32_toList
  sha256 := f

/-- A digest that is its own pre-image. -/
structure SymbolicDigest where
  preimage : List UInt8
  deriving DecidableEq

namespace SymbolicDigest

/-- Every byte of the pre-image behind a one, and a closing zero. -/
def toBytes (d : SymbolicDigest) : List UInt8 := d.preimage.flatMap (fun b => [1, b]) ++ [0]

theorem toBytes_append_inj {a b : SymbolicDigest} {r s : List UInt8}
    (h : a.toBytes ++ r = b.toBytes ++ s) : a = b ∧ r = s := by
  obtain ⟨xs⟩ := a
  obtain ⟨ys⟩ := b
  induction xs generalizing ys with
  | nil =>
    cases ys with
    | nil => simpa [toBytes] using h
    | cons y ys => simp [toBytes] at h
  | cons x xs ih =>
    cases ys with
    | nil => simp [toBytes] at h
    | cons y ys =>
      simp only [toBytes, List.flatMap_cons, List.cons_append, List.nil_append,
        List.cons.injEq, true_and] at h
      obtain ⟨hd, hr⟩ := ih ys h.2
      cases hd
      exact ⟨by rw [h.1], hr⟩

/-- The pre-image of a byte image. -/
def unframe : List UInt8 → Option (List UInt8)
  | [0] => some []
  | 1 :: b :: bs => (unframe bs).map (b :: ·)
  | _ => none

theorem unframe_toBytes (d : SymbolicDigest) : unframe d.toBytes = some d.preimage := by
  obtain ⟨xs⟩ := d
  induction xs with
  | nil => rfl
  | cons x xs ih =>
    show (unframe (toBytes ⟨xs⟩)).map (x :: ·) = some (x :: xs)
    rw [ih, Option.map_some]

instance : Hashing SymbolicDigest where
  compare := compareOn preimage
  transOrd := transOrd_compareOn _
  lawfulEqOrd := lawfulEqOrd_compareOn _ fun _ _ h => SymbolicDigest.mk.injEq .. ▸ h
  zero := ⟨[]⟩
  toBytes := toBytes
  toBytes_append_inj := toBytes_append_inj
  ofBytes := fun bs => (unframe bs).map SymbolicDigest.mk
  ofBytes_toBytes := fun d => by rw [unframe_toBytes, Option.map_some]
  sha256 := SymbolicDigest.mk

theorem collisionFree : CollisionFree SymbolicDigest := fun _ _ h => congrArg preimage h

end SymbolicDigest

/-- An IC principal: at most 29 bytes. -/
structure Principal where
  asSlice : List UInt8
  length_le : asSlice.length ≤ 29
  deriving DecidableEq

namespace Principal

instance : Ord Principal := ⟨compareOn asSlice⟩
instance : TransOrd Principal := transOrd_compareOn asSlice
instance : LawfulEqOrd Principal := lawfulEqOrd_compareOn asSlice fun a b h => by
  cases a; cases b; simpa using h

/-! A pair of a caller and a digest, as the maps of the ledger and the engine order it. -/

instance {Digest : Type} [Ord Digest] : Ord (Principal × Digest) := lexOrd
instance {Digest : Type} [Hashing Digest] : TransOrd (Principal × Digest) :=
  inferInstanceAs (@TransOrd (Principal × Digest) lexOrd)
instance {Digest : Type} [Hashing Digest] : LawfulEqOrd (Principal × Digest) :=
  inferInstanceAs (@LawfulEqOrd (Principal × Digest) lexOrd)

def anonymous : Principal := ⟨[4], by decide⟩
def managementCanister : Principal := ⟨[], by decide⟩

theorem ext_asSlice {a b : Principal} (h : a.asSlice = b.asSlice) : a = b := by
  cases a; cases b; simpa using h

end Principal

def asBytes (s : String) : List UInt8 := s.toByteArray.data.toList

theorem asBytes_inj {s t : String} (h : asBytes s = asBytes t) : s = t := by
  apply String.toByteArray_inj.mp
  exact ByteArray.ext (Array.toList_inj.mp h)

@[simp] theorem length_asBytes (s : String) : (asBytes s).length = s.utf8ByteSize := rfl

/-- Length-framed, domain-separated hashing: the bytes written so far. -/
structure Canonical where
  written : List UInt8

namespace Canonical
variable {Digest : Type} [Hashing Digest]

def bytes (h : Canonical) (x : List UInt8) : Canonical := ⟨h.written ++ frame x⟩
def text (h : Canonical) (s : String) : Canonical := h.bytes (asBytes s)
def u64 (h : Canonical) (n : UInt64) : Canonical := ⟨h.written ++ beBytes 8 n.toNat⟩
def u128 (h : Canonical) (n : BitVec 128) : Canonical := ⟨h.written ++ beBytes 16 n.toNat⟩
/-- `bytes` at a digest, whose length is 32. -/
def digest (h : Canonical) (d : Digest) : Canonical :=
  ⟨h.written ++ (beBytes 8 32 ++ Hashing.toBytes d)⟩
def new (domain : String) : Canonical := text ⟨[]⟩ domain
def finish (h : Canonical) : Digest := Hashing.sha256 h.written

end Canonical

/-- `hash(bytes)`. -/
def hash {Digest : Type} [Hashing Digest] (bytes : List UInt8) : Digest := Hashing.sha256 bytes

/-! How a written string is read back, one field at a time. -/
section ReadBack
variable {Digest : Type} [Hashing Digest] {r s : List UInt8}

theorem text_append_inj {a b : String} (ha : a.utf8ByteSize < 2 ^ 64) (hb : b.utf8ByteSize < 2 ^ 64)
    (h : frame (asBytes a) ++ r = frame (asBytes b) ++ s) : a = b ∧ r = s := by
  obtain ⟨he, hr⟩ := frame_append_inj (by simpa using ha) (by simpa using hb) h
  exact ⟨asBytes_inj he, hr⟩

theorem principal_append_inj {a b : Principal}
    (h : frame a.asSlice ++ r = frame b.asSlice ++ s) : a = b ∧ r = s := by
  have hl : ∀ p : Principal, p.asSlice.length < 2 ^ 64 := fun p =>
    p.length_le.trans_lt (by decide)
  obtain ⟨he, hr⟩ := frame_append_inj (hl a) (hl b) h
  exact ⟨Principal.ext_asSlice he, hr⟩

theorem digest_append_inj {a b : Digest}
    (h : beBytes 8 32 ++ Hashing.toBytes a ++ r = beBytes 8 32 ++ Hashing.toBytes b ++ s) :
    a = b ∧ r = s := by
  simp only [List.append_assoc, List.append_cancel_left_eq] at h
  exact Hashing.toBytes_append_inj h

theorem u64_append_inj {a b : UInt64}
    (h : beBytes 8 a.toNat ++ r = beBytes 8 b.toNat ++ s) : a = b ∧ r = s := by
  obtain ⟨he, hr⟩ := beBytes_append_inj (k := 8) (a.toNat_lt.trans_le (by norm_num))
    (b.toNat_lt.trans_le (by norm_num)) h
  exact ⟨UInt64.toNat_inj.mp he, hr⟩

theorem u128_append_inj {a b : BitVec 128}
    (h : beBytes 16 a.toNat ++ r = beBytes 16 b.toNat ++ s) : a = b ∧ r = s := by
  obtain ⟨he, hr⟩ := beBytes_append_inj (k := 16) (a.isLt.trans_le (by norm_num))
    (b.isLt.trans_le (by norm_num)) h
  exact ⟨BitVec.toNat_inj.mp he, hr⟩

end ReadBack

end IcLaya
