import Mathlib.Tactic.Ring
import Mathlib.Data.List.Basic

/-! Fixed-width byte images of numbers and length-framed byte strings, with the
rules by which a framed concatenation is read back from the left. -/
namespace IcLaya.ByteFrames

/-- The `k` low base-256 digits of a number, least significant first. -/
def leBytes : ℕ → ℕ → List UInt8
  | 0, _ => []
  | k + 1, n => UInt8.ofNat n :: leBytes k (n / 256)

def ofLeBytes : List UInt8 → ℕ
  | [] => 0
  | b :: bs => b.toNat + 256 * ofLeBytes bs

/-- The same digits, most significant first. -/
def beBytes (k n : ℕ) : List UInt8 := (leBytes k n).reverse

@[simp] theorem length_leBytes (k n : ℕ) : (leBytes k n).length = k := by
  induction k generalizing n with
  | zero => rfl
  | succ k ih => simp [leBytes, ih]

@[simp] theorem length_beBytes (k n : ℕ) : (beBytes k n).length = k := by simp [beBytes]

theorem ofLeBytes_leBytes {k n : ℕ} (h : n < 256 ^ k) : ofLeBytes (leBytes k n) = n := by
  induction k generalizing n with
  | zero => simp only [pow_zero] at h; simp [leBytes, ofLeBytes]; omega
  | succ k ih =>
    have hq : n / 256 < 256 ^ k := by
      rw [pow_succ] at h
      exact Nat.div_lt_of_lt_mul (by rwa [Nat.mul_comm])
    simp only [leBytes, ofLeBytes, ih hq, UInt8.toNat_ofNat']
    omega

theorem ofLeBytes_lt (bs : List UInt8) : ofLeBytes bs < 256 ^ bs.length := by
  induction bs with
  | nil => simp [ofLeBytes]
  | cons b bs ih =>
    have hb : b.toNat < 256 := b.toNat_lt
    simp only [ofLeBytes, List.length_cons, pow_succ]
    omega

@[simp] theorem leBytes_ofLeBytes (bs : List UInt8) : leBytes bs.length (ofLeBytes bs) = bs := by
  induction bs with
  | nil => rfl
  | cons b bs ih =>
    have hb : b.toNat < 256 := b.toNat_lt
    have hq : (b.toNat + 256 * ofLeBytes bs) / 256 = ofLeBytes bs := by omega
    have hr : UInt8.ofNat (b.toNat + 256 * ofLeBytes bs) = b := by
      apply UInt8.toNat_inj.mp
      rw [UInt8.toNat_ofNat']
      omega
    simp only [List.length_cons, ofLeBytes, leBytes, hq, hr, ih]

theorem leBytes_inj {k a b : ℕ} (ha : a < 256 ^ k) (hb : b < 256 ^ k)
    (h : leBytes k a = leBytes k b) : a = b := by
  rw [← ofLeBytes_leBytes ha, ← ofLeBytes_leBytes hb, h]

/-- A fixed-width number in front of a string is read back from the left. -/
theorem beBytes_append_inj {k a b : ℕ} {r s : List UInt8} (ha : a < 256 ^ k) (hb : b < 256 ^ k)
    (h : beBytes k a ++ r = beBytes k b ++ s) : a = b ∧ r = s := by
  obtain ⟨hn, hr⟩ := List.append_inj h (by simp)
  exact ⟨leBytes_inj ha hb (List.reverse_injective hn), hr⟩

/-- A byte string behind its length. -/
def frame (x : List UInt8) : List UInt8 := beBytes 8 x.length ++ x

/-- Frames of strings shorter than `2 ^ 64` are read back from the left. -/
theorem frame_append_inj {x y r s : List UInt8} (hx : x.length < 2 ^ 64) (hy : y.length < 2 ^ 64)
    (h : frame x ++ r = frame y ++ s) : x = y ∧ r = s := by
  simp only [frame, List.append_assoc] at h
  obtain ⟨hl, hb⟩ := beBytes_append_inj (by norm_num; omega) (by norm_num; omega) h
  exact List.append_inj hb hl

end IcLaya.ByteFrames
