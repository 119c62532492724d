import IcLaya.ByteFrames

/-!
# Streams of little-endian words

Words of four bytes, one after the other: how a word at an offset and a run of words are read back
from what was written, and written back from what was read.
-/
namespace IcLaya.WordStreams
open ByteFrames

/-- `to_le_bytes`. -/
def le32 (v : UInt32) : List UInt8 := leBytes 4 v.toNat

/-- `from_le_bytes`. -/
def ofLe32 (bs : List UInt8) : UInt32 := UInt32.ofNat (ofLeBytes bs)

@[simp] theorem length_le32 (v : UInt32) : (le32 v).length = 4 := length_leBytes 4 _

@[simp] theorem ofLe32_le32 (v : UInt32) : ofLe32 (le32 v) = v := by
  rw [ofLe32, le32, ofLeBytes_leBytes (v.toNat_lt.trans_le (by norm_num)), UInt32.ofNat_toNat]

theorem le32_ofLe32 {bs : List UInt8} (h : bs.length = 4) : le32 (ofLe32 bs) = bs := by
  have hlt := ofLeBytes_lt bs
  rw [h] at hlt
  have hnat : (ofLe32 bs).toNat = ofLeBytes bs := by
    rw [ofLe32, UInt32.toNat_ofNat']
    exact Nat.mod_eq_of_lt hlt
  rw [le32, hnat, ← h, leBytes_ofLeBytes]

def le32s (vs : List UInt32) : List UInt8 := vs.flatMap le32

@[simp] theorem le32s_nil : le32s [] = [] := rfl

@[simp] theorem le32s_cons (v : UInt32) (vs : List UInt32) : le32s (v :: vs) = le32 v ++ le32s vs :=
  rfl

theorem le32s_append (vs ws : List UInt32) : le32s (vs ++ ws) = le32s vs ++ le32s ws :=
  List.flatMap_append

@[simp] theorem length_le32s (vs : List UInt32) : (le32s vs).length = vs.length * 4 := by
  induction vs with
  | nil => rfl
  | cons v vs ih =>
    rw [le32s_cons, List.length_append, length_le32, ih, List.length_cons]
    omega

/-- The word at an offset. -/
def wordAt (bs : List UInt8) (offset : ℕ) : UInt32 := ofLe32 ((bs.drop offset).take 4)

/-- `chunks_exact`: what is left over at the end is dropped. -/
def chunksExact {α : Type} (k : ℕ) (xs : List α) : List (List α) :=
  (List.range (xs.length / k)).map fun i => (xs.drop (i * k)).take k

theorem length_of_mem_chunksExact {α : Type} {k : ℕ} {xs c : List α} (h : c ∈ chunksExact k xs) :
    c.length = k := by
  obtain ⟨i, hi, rfl⟩ := List.mem_map.mp h
  have hlt : i + 1 ≤ xs.length / k := List.mem_range.mp hi
  have hle : (i + 1) * k ≤ xs.length := (Nat.mul_le_mul_right k hlt).trans (Nat.div_mul_le_self _ _)
  rw [List.length_take, List.length_drop]
  rw [Nat.add_mul, Nat.one_mul] at hle
  omega

/-- A word in front of the rest. -/
theorem drop_eq_word {bs : List UInt8} {offset : ℕ} (h : offset + 4 ≤ bs.length) :
    bs.drop offset = le32 (wordAt bs offset) ++ bs.drop (offset + 4) := by
  have hl : ((bs.drop offset).take 4).length = 4 := by
    rw [List.length_take, List.length_drop]; omega
  rw [wordAt, le32_ofLe32 hl, ← List.drop_drop, List.take_append_drop]

theorem wordAt_append_of_length {pre rest : List UInt8} {v : UInt32} {offset : ℕ}
    (h : pre.length = offset) : wordAt (pre ++ (le32 v ++ rest)) offset = v := by
  rw [wordAt, ← h, List.drop_left, List.take_left' (length_le32 v), ofLe32_le32]

/-- What stands at an offset is read, and the rest stands behind it. -/
theorem read_append {bs x rest : List UInt8} {offset k : ℕ} (h : bs.drop offset = x ++ rest)
    (hx : x.length = k) : (bs.drop offset).take k = x ∧ bs.drop (offset + k) = rest := by
  rw [← List.drop_drop, h]
  exact ⟨List.take_left' hx, List.drop_left' hx⟩

theorem read_word {bs rest : List UInt8} {v : UInt32} {offset : ℕ}
    (h : bs.drop offset = le32 v ++ rest) :
    wordAt bs offset = v ∧ bs.drop (offset + 4) = rest := by
  obtain ⟨hv, hrest⟩ := read_append h (length_le32 v)
  exact ⟨by rw [wordAt, hv, ofLe32_le32], hrest⟩

/-- The run of words read from an offset on is what stands there. -/
theorem le32s_wordAt {bs : List UInt8} {offset n : ℕ} (h : offset + n * 4 ≤ bs.length) :
    le32s ((List.range n).map fun i => wordAt bs (offset + i * 4)) =
      (bs.drop offset).take (n * 4) := by
  induction n with
  | zero => simp
  | succ n ih =>
    have hn : offset + n * 4 + 4 ≤ bs.length := by omega
    have hl : ((bs.drop (offset + n * 4)).take 4).length = 4 := by
      rw [List.length_take, List.length_drop]; omega
    rw [List.range_succ, List.map_append, le32s_append, ih (by omega), List.map_singleton,
      le32s_cons, le32s_nil, List.append_nil, wordAt, le32_ofLe32 hl, ← List.drop_drop,
      Nat.add_mul, Nat.one_mul, List.take_add]

/-- A run of words behind a prefix is read back. -/
theorem wordAt_le32s {pre : List UInt8} (rest : List UInt8) (vs : List UInt32) {offset : ℕ}
    (h : pre.length = offset) :
    ((List.range vs.length).map fun i => wordAt (pre ++ (le32s vs ++ rest)) (offset + i * 4)) =
      vs := by
  induction vs generalizing pre offset with
  | nil => rfl
  | cons v vs ih =>
    have hpre : (pre ++ le32 v).length = offset + 4 := by
      rw [List.length_append, length_le32, h]
    rw [List.length_cons, List.range_succ_eq_map, List.map_cons, List.map_map, le32s_cons,
      List.append_assoc]
    congr 1
    · rw [Nat.zero_mul, Nat.add_zero]
      exact wordAt_append_of_length h
    · refine Eq.trans (List.map_congr_left fun i _ => ?_) (ih hpre)
      rw [Function.comp_apply, List.append_assoc]
      congr 1
      omega

theorem map_chunksExact (bs : List UInt8) :
    (chunksExact 4 bs).map ofLe32 = (List.range (bs.length / 4)).map fun i => wordAt bs (i * 4) := by
  rw [chunksExact, List.map_map]
  rfl

/-- The words of a stream of whole words write it back. -/
theorem le32s_chunksExact {bs : List UInt8} {n : ℕ} (h : bs.length = n * 4) :
    le32s ((chunksExact 4 bs).map ofLe32) = bs := by
  have hn : bs.length / 4 = n := by omega
  have hread := le32s_wordAt (show 0 + n * 4 ≤ bs.length by omega)
  simp only [Nat.zero_add] at hread
  rw [map_chunksExact, hn, hread, List.drop_zero, ← h, List.take_length]

theorem chunksExact_le32s (vs : List UInt32) : (chunksExact 4 (le32s vs)).map ofLe32 = vs := by
  have hn : (le32s vs).length / 4 = vs.length := by rw [length_le32s]; omega
  have hread := wordAt_le32s [] vs (List.length_nil (α := UInt8))
  rw [map_chunksExact, hn]
  simpa only [List.nil_append, List.append_nil, Nat.zero_add] using hread

theorem le32s_inj {vs ws : List UInt32} (h : le32s vs = le32s ws) : vs = ws := by
  rw [← chunksExact_le32s vs, h, chunksExact_le32s]

end IcLaya.WordStreams
