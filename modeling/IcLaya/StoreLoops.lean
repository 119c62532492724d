import IcLaya.PanickingCode
import Mathlib.Data.List.ProdSigma

/-!
# Loops that copy between buffers

A loop reads one cell of a source and stores it into a cell of a buffer of fixed length. If no
index leaves its buffer the loop does not panic, and if no two rounds store into one cell each
cell ends with what its round read.
-/
namespace IcLaya.StoreLoops
open Fallible PanickingCode

variable {ε ι α : Type}

/-- `buffer[k] = v`. -/
def store (buffer : List α) (k : ℕ) (v : α) : Code ε (List α) :=
  if k < buffer.length then .ok (buffer.set k v) else .error .panic

/-- `for j in js { buffer[dst(j)] = source[src(j)] }`. -/
def copyLoop (source : List α) (src dst : ι → ℕ) (js : List ι) (buffer : List α) :
    Code ε (List α) :=
  js.foldlM (fun buffer j => do
    let v ← unwrap source[src j]?
    store buffer (dst j) v) buffer

theorem copyLoop_eq_ok (source buffer : List α) {src dst : ι → ℕ} {js : List ι}
    (hsrc : ∀ j ∈ js, src j < source.length) (hdst : ∀ j ∈ js, dst j < buffer.length)
    (hinj : ∀ i ∈ js, ∀ j ∈ js, dst i = dst j → i = j) :
    ∃ r, (copyLoop source src dst js buffer : Code ε (List α)) = .ok r ∧
      r.length = buffer.length ∧ (∀ j ∈ js, r[dst j]? = source[src j]?) ∧
      ∀ k, (∀ j ∈ js, dst j ≠ k) → r[k]? = buffer[k]? := by
  induction js generalizing buffer with
  | nil => exact ⟨buffer, rfl, rfl, fun j hj => (nomatch hj), fun k _ => rfl⟩
  | cons a js ih =>
    have ha : src a < source.length := hsrc a List.mem_cons_self
    have hb : dst a < buffer.length := hdst a List.mem_cons_self
    have htail : ∀ j ∈ js, dst j < (buffer.set (dst a) source[src a]).length := fun j hj => by
      rw [List.length_set]
      exact hdst j (List.mem_cons_of_mem a hj)
    obtain ⟨r, hr, hlength, hcopied, hkept⟩ := ih _ (fun j hj => hsrc j (List.mem_cons_of_mem a hj))
      htail fun i hi j hj => hinj i (List.mem_cons_of_mem a hi) j (List.mem_cons_of_mem a hj)
    refine ⟨r, ?_, by rw [hlength, List.length_set], ?_, ?_⟩
    · rw [copyLoop, List.foldlM_cons, List.getElem?_eq_getElem ha]
      show (store buffer (dst a) source[src a] >>= _) = _
      rw [store, if_pos hb, ok_bind]
      exact hr
    · intro j hj
      by_cases hmem : ∃ i ∈ js, dst i = dst j
      · obtain ⟨i, hi, he⟩ := hmem
        obtain rfl := hinj i (List.mem_cons_of_mem a hi) j hj he
        exact hcopied i hi
      · rcases List.mem_cons.mp hj with rfl | hj'
        · rw [hkept (dst j) fun i hi he => hmem ⟨i, hi, he⟩, List.getElem?_set_self hb,
            List.getElem?_eq_getElem ha]
        · exact absurd ⟨j, hj', rfl⟩ hmem
    · intro k hk
      rw [hkept k fun j hj => hk j (List.mem_cons_of_mem a hj),
        List.getElem?_set_ne (hk a List.mem_cons_self)]

/-- Rows of one width do not overlap. -/
theorem row_inj {n a b i j : ℕ} (hi : i < n) (hj : j < n) (h : a * n + i = b * n + j) :
    a = b ∧ i = j := by
  have hn : 0 < n := Nat.lt_of_le_of_lt (Nat.zero_le i) hi
  have hdiv := congrArg (· / n) h
  simp only [Nat.mul_comm _ n, Nat.mul_add_div hn, Nat.div_eq_of_lt hi, Nat.div_eq_of_lt hj,
    Nat.add_zero] at hdiv
  subst hdiv
  exact ⟨rfl, Nat.add_left_cancel h⟩

theorem row_lt {n m a i : ℕ} (ha : a < m) (hi : i < n) : a * n + i < m * n := by
  have hle : (a + 1) * n ≤ m * n := Nat.mul_le_mul_right n ha
  rw [Nat.add_mul, Nat.one_mul] at hle
  omega

end IcLaya.StoreLoops
