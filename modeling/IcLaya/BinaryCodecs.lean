import Mathlib.Algebra.Order.BigOperators.Group.List
import IcLaya.Digests
import IcLaya.OrderedMaps

/-!
# Binary codes that show where they end

A code writes a value and reads it back whatever follows. Numbers have a fixed width, least byte
first; text, lists and maps follow their length in eight bytes; an option or a truth value takes one
byte, and a variant follows its number in four. Codes are put together from these.
-/
namespace IcLaya.BinaryCodecs
open Std (ExtTreeMap TransOrd LawfulEqOrd)
open ByteFrames

/-- `fits` holds of the values whose lengths can be written down. -/
structure Codec (α : Type) where
  encode : α → List UInt8
  decode : List UInt8 → Option (α × List UInt8)
  fits : α → Bool
  decode_encode : ∀ a rest, fits a = true → decode (encode a ++ rest) = some (a, rest)

namespace Codec
variable {α β κ ν : Type}

def size (c : Codec α) (a : α) : ℕ := (c.encode a).length

/-- The value that a text is the image of, with nothing left over. -/
def read (c : Codec α) (bs : List UInt8) : Option α :=
  match c.decode bs with
  | some (a, []) => some a
  | _ => none

theorem read_encode (c : Codec α) {a : α} (h : c.fits a = true) : c.read (c.encode a) = some a := by
  have hdecode := c.decode_encode a [] h
  rw [List.append_nil] at hdecode
  rw [read, hdecode]

section Fixed
variable {k : ℕ} {f : α → List UInt8} {g : List UInt8 → Option α}

/-- An image of `k` bytes. -/
def fixed (k : ℕ) (f : α → List UInt8) (g : List UInt8 → Option α)
    (hlen : ∀ a, (f a).length = k) (hg : ∀ a, g (f a) = some a) : Codec α where
  encode := f
  decode bs := if bs.length < k then none else (g (bs.take k)).map fun a => (a, bs.drop k)
  fits _ := true
  decode_encode a rest _ := by
    rw [if_neg (by rw [List.length_append, hlen]; omega), List.take_left' (hlen a),
      List.drop_left' (hlen a), hg, Option.map_some]

@[simp] theorem size_fixed (hlen : ∀ a, (f a).length = k) (hg : ∀ a, g (f a) = some a) (a : α) :
    (fixed k f g hlen hg).size a = k := hlen a

end Fixed

section Words

def u8 : Codec UInt8 :=
  fixed 1 (fun v => [v]) (fun bs => bs[0]?) (fun _ => rfl) fun _ => rfl

/-- A word of `k` bytes, least byte first. -/
def word (k : ℕ) (f : α → ℕ) (g : ℕ → α) (hlt : ∀ a, f a < 256 ^ k) (hg : ∀ a, g (f a) = a) :
    Codec α :=
  fixed k (fun a => leBytes k (f a)) (fun bs => some (g (ofLeBytes bs)))
    (fun a => length_leBytes k (f a)) fun a => by rw [ofLeBytes_leBytes (hlt a), hg]

def u32 : Codec UInt32 :=
  word 4 UInt32.toNat UInt32.ofNat (fun v => v.toNat_lt) fun _ => UInt32.ofNat_toNat

def u64 : Codec UInt64 :=
  word 8 UInt64.toNat UInt64.ofNat (fun v => v.toNat_lt) fun _ => UInt64.ofNat_toNat

def u128 : Codec (BitVec 128) :=
  word 16 BitVec.toNat (BitVec.ofNat 128) (fun v => v.isLt) fun v => by
    rw [BitVec.ofNat_toNat, BitVec.setWidth_eq]

def bool : Codec Bool where
  encode b := [if b then 1 else 0]
  decode
    | 0 :: rest => some (false, rest)
    | 1 :: rest => some (true, rest)
    | _ => none
  fits _ := true
  decode_encode b rest _ := by cases b <;> rfl

@[simp] theorem size_u64 (v : UInt64) : u64.size v = 8 := length_leBytes _ _
@[simp] theorem size_bool (b : Bool) : bool.size b = 1 := rfl

end Words

section Shapes
variable (c : Codec α) (d : Codec β)

def pair : Codec (α × β) where
  encode x := c.encode x.1 ++ d.encode x.2
  decode bs := do
    let (a, rest) ← c.decode bs
    let (b, rest) ← d.decode rest
    some ((a, b), rest)
  fits x := c.fits x.1 && d.fits x.2
  decode_encode x rest h := by
    obtain ⟨ha, hb⟩ := (Bool.and_eq_true _ _).mp h
    simp [List.append_assoc, c.decode_encode x.1 _ ha, d.decode_encode x.2 _ hb]

/-- A type that is read off another one. -/
def iso (f : β → α) (g : α → Option β) (h : ∀ b, g (f b) = some b) : Codec β where
  encode b := c.encode (f b)
  decode bs := (c.decode bs).bind fun x => (g x.1).map fun b => (b, x.2)
  fits b := c.fits (f b)
  decode_encode b rest hb := by
    rw [c.decode_encode (f b) rest hb, Option.bind_some, h, Option.map_some]

/-- A record with the fields of a tuple. -/
def record (f : β → α) (g : α → β) (h : ∀ b, g (f b) = b) : Codec β :=
  c.iso f (fun a => some (g a)) fun b => congrArg some (h b)

def option : Codec (Option α) where
  encode
    | none => [0]
    | some a => 1 :: c.encode a
  decode
    | 0 :: rest => some (none, rest)
    | 1 :: rest => (c.decode rest).map fun x => (some x.1, x.2)
    | _ => none
  fits x := x.all c.fits
  decode_encode x rest h := by
    cases x with
    | none => rfl
    | some a => exact congrArg (Option.map _) (c.decode_encode a rest h)

/-- `n` values, one behind the other. -/
def readMany : ℕ → List UInt8 → Option (List α × List UInt8)
  | 0, bs => some ([], bs)
  | n + 1, bs => do
    let (a, rest) ← c.decode bs
    let (as, rest) ← readMany n rest
    some (a :: as, rest)

theorem readMany_flatMap (xs : List α) (rest : List UInt8) (h : xs.all c.fits = true) :
    c.readMany xs.length (xs.flatMap c.encode ++ rest) = some (xs, rest) := by
  induction xs with
  | nil => rfl
  | cons x xs ih =>
    rw [List.all_cons, Bool.and_eq_true] at h
    simp [readMany, List.append_assoc, c.decode_encode x _ h.1, ih h.2]

def list : Codec (List α) where
  encode xs := leBytes 8 xs.length ++ xs.flatMap c.encode
  decode bs :=
    if bs.length < 8 then none else c.readMany (ofLeBytes (bs.take 8)) (bs.drop 8)
  fits xs := decide (xs.length < 2 ^ 64) && xs.all c.fits
  decode_encode xs rest h := by
    obtain ⟨hlt, hall⟩ := (Bool.and_eq_true _ _).mp h
    have hlen := length_leBytes 8 xs.length
    have hword : ofLeBytes (leBytes 8 xs.length) = xs.length :=
      ofLeBytes_leBytes (by have := of_decide_eq_true hlt; norm_num; omega)
    rw [List.append_assoc, if_neg (by rw [List.length_append, hlen]; omega), List.take_left' hlen,
      List.drop_left' hlen, hword, c.readMany_flatMap xs rest hall]

/-- Bytes behind their number. -/
def bytes : Codec (List UInt8) where
  encode xs := leBytes 8 xs.length ++ xs
  decode bs :=
    let rest := bs.drop 8
    let n := ofLeBytes (bs.take 8)
    if bs.length < 8 ∨ rest.length < n then none else some (rest.take n, rest.drop n)
  fits xs := decide (xs.length < 2 ^ 64)
  decode_encode xs rest h := by
    have hlen := length_leBytes 8 xs.length
    have hword : ofLeBytes (leBytes 8 xs.length) = xs.length :=
      ofLeBytes_leBytes (by have := of_decide_eq_true h; norm_num; omega)
    simp only [List.append_assoc, List.take_left' hlen, List.drop_left' hlen, hword]
    rw [if_neg (by simp only [List.length_append, hlen]; omega), List.take_left' rfl,
      List.drop_left' rfl]

/-- Text as `UTF-8`. -/
def text : Codec String :=
  bytes.iso asBytes (fun bs => String.fromUTF8? ⟨bs.toArray⟩) fun s => by
    have hbytes : (⟨(asBytes s).toArray⟩ : ByteArray) = s.toByteArray := by
      unfold asBytes
      rw [Array.toArray_toList]
    rw [hbytes, String.fromUTF8?, dif_pos (by simpa using s.isValidUTF8)]
    rfl

end Shapes

section Maps
variable [Ord κ] [TransOrd κ] [LawfulEqOrd κ]

theorem ofList_toList (m : ExtTreeMap κ ν) : ExtTreeMap.ofList m.toList = m := by
  apply ExtTreeMap.ext_getElem?
  intro k
  cases hk : m[k]? with
  | some v =>
    exact ExtTreeMap.getElem?_ofList_of_mem Std.ReflCmp.compare_self
      ExtTreeMap.distinct_keys_toList (ExtTreeMap.mem_toList_iff_getElem?_eq_some.mpr hk)
  | none =>
    classical
    refine ExtTreeMap.getElem?_ofList_of_contains_eq_false ?_
    rw [List.contains_eq_mem, decide_eq_false_iff_not, List.mem_map]
    rintro ⟨⟨a, v⟩, hmem, rfl⟩
    rw [ExtTreeMap.mem_toList_iff_getElem?_eq_some.mp hmem] at hk
    cases hk

/-- A map as the list of its entries, in the order of the keys. -/
def map (c : Codec κ) (d : Codec ν) : Codec (ExtTreeMap κ ν) :=
  (c.pair d).list.record ExtTreeMap.toList (fun xs => ExtTreeMap.ofList xs) ofList_toList

end Maps

section Sizes
variable (c : Codec α) (d : Codec β)

@[simp] theorem size_pair (x : α × β) : (c.pair d).size x = c.size x.1 + d.size x.2 :=
  List.length_append

@[simp] theorem size_record (f : β → α) (g : α → β) (h : ∀ b, g (f b) = b) (b : β) :
    (c.record f g h).size b = c.size (f b) := rfl

@[simp] theorem size_none : c.option.size none = 1 := rfl

@[simp] theorem size_some (a : α) : c.option.size (some a) = 1 + c.size a :=
  (List.length_cons ..).trans (Nat.add_comm ..)

theorem size_list (xs : List α) : c.list.size xs = 8 + (xs.map c.size).sum := by
  simp only [size, list, List.length_append, length_leBytes, List.length_flatMap]
  rfl

@[simp] theorem size_bytes (xs : List UInt8) : bytes.size xs = 8 + xs.length := by
  simp [size, bytes]

@[simp] theorem size_text (s : String) : text.size s = 8 + s.utf8ByteSize :=
  (size_bytes (asBytes s)).trans (by rw [length_asBytes])

theorem size_map [Ord κ] [TransOrd κ] [LawfulEqOrd κ] (c : Codec κ) (d : Codec ν)
    (m : ExtTreeMap κ ν) :
    (c.map d).size m = 8 + (m.toList.map fun x => c.size x.1 + d.size x.2).sum := by
  refine (size_list (c.pair d) m.toList).trans ?_
  rw [List.map_congr_left fun x _ => c.size_pair d x]

end Sizes

section Fits
variable (c : Codec α) (d : Codec β)

@[simp] theorem fits_pair (x : α × β) : (c.pair d).fits x = (c.fits x.1 && d.fits x.2) := rfl

@[simp] theorem fits_record (f : β → α) (g : α → β) (h : ∀ b, g (f b) = b) (b : β) :
    (c.record f g h).fits b = c.fits (f b) := rfl

@[simp] theorem fits_none : c.option.fits none = true := rfl

@[simp] theorem fits_some (a : α) : c.option.fits (some a) = c.fits a := rfl

end Fits

section Mapped
variable [Ord κ] [TransOrd κ] [LawfulEqOrd κ] (c : Codec κ) (d : Codec ν) {m : ExtTreeMap κ ν}
  {f : ν → ν}

/-- A map with other values of images fits as well. -/
theorem fits_map (hf : ∀ v, d.fits v = true → d.fits (f v) = true) (h : (c.map d).fits m = true) :
    (c.map d).fits (m.map fun _ v => f v) = true := by
  obtain ⟨hlen, hall⟩ := (Bool.and_eq_true _ _).mp h
  refine (Bool.and_eq_true _ _).mpr ⟨?_, ?_⟩
  · rw [ExtTreeMap.toList_map, List.length_map]
    exact hlen
  · rw [ExtTreeMap.toList_map, List.all_map]
    refine List.all_eq_true.mpr fun x hx => ?_
    obtain ⟨hk, hv⟩ := (Bool.and_eq_true _ _).mp (List.all_eq_true.mp hall x hx)
    exact (Bool.and_eq_true _ _).mpr ⟨hk, hf _ hv⟩

theorem size_map_le (hf : ∀ (k : κ) v, m[k]? = some v → d.size (f v) ≤ d.size v) :
    (c.map d).size (m.map fun _ v => f v) ≤ (c.map d).size m := by
  rw [size_map, size_map, ExtTreeMap.toList_map, List.map_map]
  refine Nat.add_le_add_left (List.sum_le_sum fun x hx => ?_) 8
  exact Nat.add_le_add_left (hf x.1 x.2 (ExtTreeMap.mem_toList_iff_getElem?_eq_some.mp hx)) _

end Mapped

/-- A type given by its variants: their readers in order, and what is written for a value. -/
structure Variants (α : Type) where
  readers : List (List UInt8 → Option (α × List UInt8))
  tag : α → ℕ
  body : α → List UInt8
  fits : α → Bool
  few : readers.length < 256 ^ 4
  read_body : ∀ a, fits a = true → ∃ r, readers[tag a]? = some r ∧
    ∀ rest, r (body a ++ rest) = some (a, rest)

/-- A variant without fields. -/
def unit (a : α) (bs : List UInt8) : Option (α × List UInt8) := some (a, bs)

/-- A variant with a field. -/
def field (c : Codec α) (f : α → β) (bs : List UInt8) : Option (β × List UInt8) :=
  (c.decode bs).map fun x => (f x.1, x.2)

theorem field_encode (c : Codec α) (f : α → β) {a : α} (h : c.fits a = true) (rest : List UInt8) :
    c.field f (c.encode a ++ rest) = some (f a, rest) := by
  rw [field, c.decode_encode a rest h, Option.map_some]

def variants (v : Variants α) : Codec α where
  encode a := leBytes 4 (v.tag a) ++ v.body a
  decode bs :=
    if bs.length < 4 then none
    else v.readers[ofLeBytes (bs.take 4)]?.bind fun r => r (bs.drop 4)
  fits := v.fits
  decode_encode a rest h := by
    obtain ⟨r, hr, hread⟩ := v.read_body a h
    have hlt : v.tag a < 256 ^ 4 := (List.getElem?_eq_some_iff.mp hr).1.trans v.few
    have hlen := length_leBytes 4 (v.tag a)
    rw [List.append_assoc, if_neg (by rw [List.length_append, hlen]; omega), List.take_left' hlen,
      List.drop_left' hlen, ofLeBytes_leBytes hlt, hr, Option.bind_some, hread rest]

/-- Variants without fields, in order. -/
def enumeration (xs : List α) (tag : α → ℕ) (hfew : xs.length < 256 ^ 4)
    (h : ∀ a, xs[tag a]? = some a) : Codec α :=
  fixed 4 (fun a => leBytes 4 (tag a)) (fun bs => xs[ofLeBytes bs]?)
    (fun a => length_leBytes 4 (tag a)) fun a => by
      have hlt : tag a < 256 ^ 4 := (List.getElem?_eq_some_iff.mp (h a)).1.trans hfew
      rw [ofLeBytes_leBytes hlt, h]

section Results
variable {ε : Type} (c : Codec α) (d : Codec ε)

/-- A value, or what failed. -/
def result : Codec (Except ε α) := variants {
  readers := [c.field Except.ok, d.field Except.error]
  tag := fun | .ok _ => 0 | .error _ => 1
  body := fun | .ok a => c.encode a | .error e => d.encode e
  fits := fun | .ok a => c.fits a | .error e => d.fits e
  few := by simp
  read_body := fun x h => by
    cases x with
    | ok a => exact ⟨_, rfl, c.field_encode Except.ok h⟩
    | error e => exact ⟨_, rfl, d.field_encode Except.error h⟩ }

end Results

end Codec
end IcLaya.BinaryCodecs
