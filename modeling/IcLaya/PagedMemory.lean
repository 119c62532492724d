import IcLaya.PanickingCode

/-!
# Memory grown page by page

Bytes are addressed from zero. A read or a write that leaves the pages grown so far panics.
-/
namespace IcLaya.PagedMemory
open PanickingCode

def pageBytes : ℕ := 65536

structure Memory where
  pages : ℕ
  byte : ℕ → UInt8

namespace Memory

/-- No pages yet. -/
def empty : Memory := ⟨0, fun _ => 0⟩

variable {ε : Type} (m : Memory)

def size : ℕ := m.pages * pageBytes

def bytesAt (a n : ℕ) : List UInt8 := (List.range n).map fun i => m.byte (a + i)

def put (a : ℕ) (bs : List UInt8) : Memory :=
  ⟨m.pages, fun i => if a ≤ i then bs.getD (i - a) (m.byte i) else m.byte i⟩

def grow (n : ℕ) : Memory := ⟨m.pages + n, m.byte⟩

def read (a n : ℕ) : Code ε (List UInt8) :=
  if a + n ≤ m.size then .ok (m.bytesAt a n) else .error .panic

def write (a : ℕ) (bs : List UInt8) : Code ε Memory :=
  if a + bs.length ≤ m.size then .ok (m.put a bs) else .error .panic

variable {m} {m' : Memory} {a b n k i : ℕ} {bs : List UInt8}

@[simp] theorem grow_byte (n : ℕ) : (m.grow n).byte = m.byte := rfl
@[simp] theorem grow_bytesAt (n a k : ℕ) : (m.grow n).bytesAt a k = m.bytesAt a k := rfl
@[simp] theorem size_put (a : ℕ) (bs : List UInt8) : (m.put a bs).size = m.size := rfl
@[simp] theorem length_bytesAt (a n : ℕ) : (m.bytesAt a n).length = n := by simp [bytesAt]

theorem size_grow (n : ℕ) : (m.grow n).size = m.size + n * pageBytes := Nat.add_mul _ _ _

theorem read_eq_ok (h : a + n ≤ m.size) : (m.read a n : Code ε _) = .ok (m.bytesAt a n) := if_pos h

theorem write_eq_ok (h : a + bs.length ≤ m.size) : (m.write a bs : Code ε _) = .ok (m.put a bs) :=
  if_pos h

/-- A write changes nothing outside its range. -/
theorem put_byte_outside (h : i < a ∨ a + bs.length ≤ i) : (m.put a bs).byte i = m.byte i := by
  rcases h with h | h
  · exact if_neg (Nat.not_le.mpr h)
  · refine (if_pos (Nat.le_trans (Nat.le_add_right _ _) h)).trans ?_
    rw [List.getD_eq_getElem?_getD, List.getElem?_eq_none (by omega), Option.getD_none]

/-- Two memories that agree on a range read alike there. -/
theorem bytesAt_congr (h : ∀ i, a ≤ i → i < a + n → m'.byte i = m.byte i) :
    m'.bytesAt a n = m.bytesAt a n :=
  List.map_congr_left fun i hi => h (a + i) (Nat.le_add_right _ _)
    (Nat.add_lt_add_left (List.mem_range.mp hi) _)

/-- What was written is read back. -/
theorem bytesAt_put_self (a : ℕ) (bs : List UInt8) : (m.put a bs).bytesAt a bs.length = bs := by
  apply List.ext_getElem (length_bytesAt _ _)
  intro i hi hb
  simp only [bytesAt, List.getElem_map, List.getElem_range]
  refine (if_pos (Nat.le_add_right a i)).trans ?_
  rw [Nat.add_sub_cancel_left, List.getD_eq_getElem?_getD, List.getElem?_eq_getElem hb,
    Option.getD_some]

/-- A range that a write does not meet is left as it was. -/
theorem bytesAt_put_disjoint (h : b + n ≤ a ∨ a + bs.length ≤ b) :
    (m.put a bs).bytesAt b n = m.bytesAt b n := by
  apply bytesAt_congr
  intro i hb hi
  apply put_byte_outside
  omega

/-- Adjacent ranges are read one after the other. -/
theorem bytesAt_add (a n k : ℕ) : m.bytesAt a (n + k) = m.bytesAt a n ++ m.bytesAt (a + n) k := by
  rw [bytesAt, List.range_add, List.map_append, List.map_map]
  refine congrArg _ (List.map_congr_left fun i _ => ?_)
  rw [Function.comp_apply, Nat.add_assoc]

/-- A range inside a range. -/
theorem bytesAt_of_prefix (h : b + k ≤ n) :
    m.bytesAt (a + b) k = ((m.bytesAt a n).drop b).take k := by
  obtain ⟨r, rfl⟩ := Nat.exists_eq_add_of_le h
  rw [bytesAt_add, bytesAt_add, List.append_assoc, List.drop_left' (length_bytesAt _ _),
    List.take_left' (length_bytesAt _ _)]

end Memory

end IcLaya.PagedMemory
