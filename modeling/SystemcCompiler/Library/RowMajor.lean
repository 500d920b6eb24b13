import Mathlib.Algebra.BigOperators.Group.List.Basic
import Mathlib.Tactic.Ring

/-! Elements of a multi-dimensional array numbered row by row: the number of an
element and its indices determine each other. -/
namespace SystemcCompiler.RowMajor

/-- The indices of element number `k`, the last dimension first. -/
def indicesFrom (sizes : List Nat) (k : Nat) : List Nat × Nat :=
  sizes.foldr (fun n acc => (acc.2 % n :: acc.1, acc.2 / n)) ([], k)

def indices (sizes : List Nat) (k : Nat) : List Nat := (indicesFrom sizes k).1

/-- The number of the element under the indices, after `k` whole arrays. -/
def numberFrom : Nat → List Nat → List Nat → Nat
  | k, n :: sizes, i :: path => numberFrom (k * n + i) sizes path
  | k, _, _ => k

def number (sizes path : List Nat) : Nat := numberFrom 0 sizes path

def Within (sizes path : List Nat) : Prop := List.Forall₂ (fun i n => i < n) path sizes

variable {sizes path : List Nat} {k : Nat}

theorem indicesFrom_rest (sizes : List Nat) (k : Nat) :
    (indicesFrom sizes k).2 = k / sizes.prod := by
  induction sizes with
  | nil => simp [indicesFrom]
  | cons n sizes ih =>
    change (indicesFrom sizes k).2 / n = k / (n :: sizes).prod
    rw [ih, List.prod_cons, Nat.div_div_eq_div_mul, Nat.mul_comm]

@[simp] theorem indices_nil (k : Nat) : indices [] k = [] := rfl

@[simp] theorem indices_cons (n : Nat) (sizes : List Nat) (k : Nat) :
    indices (n :: sizes) k = k / sizes.prod % n :: indices sizes k := by
  change (indicesFrom sizes k).2 % n :: (indicesFrom sizes k).1 = _
  rw [indicesFrom_rest]
  rfl

@[simp] theorem indices_length (sizes : List Nat) (k : Nat) :
    (indices sizes k).length = sizes.length := by
  induction sizes with
  | nil => rfl
  | cons n sizes ih => simp [ih]

theorem numberFrom_bounds (h : Within sizes path) (k : Nat) :
    k * sizes.prod ≤ numberFrom k sizes path ∧
      numberFrom k sizes path < (k + 1) * sizes.prod := by
  induction h generalizing k with
  | nil => simp [numberFrom]
  | @cons i n path sizes hi _ ih =>
    obtain ⟨hlow, hhigh⟩ := ih (k * n + i)
    have hle : k * (n :: sizes).prod ≤ (k * n + i) * sizes.prod := by
      rw [List.prod_cons, ← Nat.mul_assoc]
      exact Nat.mul_le_mul_right _ (Nat.le_add_right _ _)
    have hnext : (k * n + i + 1) * sizes.prod ≤ (k + 1) * (n :: sizes).prod := by
      rw [List.prod_cons, ← Nat.mul_assoc]
      apply Nat.mul_le_mul_right
      rw [Nat.add_mul, Nat.one_mul]
      omega
    exact ⟨le_trans hle hlow, lt_of_lt_of_le hhigh hnext⟩

theorem numberFrom_concat (h : Within sizes path) (k n i : Nat) :
    numberFrom k (sizes ++ [n]) (path ++ [i]) = numberFrom k sizes path * n + i := by
  induction h generalizing k with
  | nil => rfl
  | cons _ _ ih => exact ih _

theorem number_concat (h : Within sizes path) (n i : Nat) :
    number (sizes ++ [n]) (path ++ [i]) = number sizes path * n + i :=
  numberFrom_concat h 0 n i

theorem number_lt (h : Within sizes path) : number sizes path < sizes.prod := by
  have hbounds := (numberFrom_bounds h 0).2
  rwa [Nat.zero_add, Nat.one_mul] at hbounds

theorem numberFrom_div (h : Within sizes path) (k : Nat) :
    numberFrom k sizes path / sizes.prod = k := by
  obtain ⟨hlow, hhigh⟩ := numberFrom_bounds h k
  exact Nat.div_eq_of_lt_le hlow hhigh

theorem indices_numberFrom (h : Within sizes path) (k : Nat) :
    indices sizes (numberFrom k sizes path) = path := by
  induction h generalizing k with
  | nil => rfl
  | @cons i n path sizes hi htail ih =>
    have hhead : numberFrom (k * n + i) sizes path / sizes.prod % n = i := by
      rw [numberFrom_div htail, Nat.mul_comm, Nat.mul_add_mod, Nat.mod_eq_of_lt hi]
    rw [indices_cons, numberFrom, hhead, ih]

theorem indices_number (h : Within sizes path) : indices sizes (number sizes path) = path :=
  indices_numberFrom h 0

theorem indices_within (h : 0 < sizes.prod) (k : Nat) : Within sizes (indices sizes k) := by
  induction sizes with
  | nil => exact .nil
  | cons n sizes ih =>
    rw [List.prod_cons] at h
    rw [indices_cons]
    exact .cons (Nat.mod_lt _ (Nat.pos_of_mul_pos_right h)) (ih (Nat.pos_of_mul_pos_left h))

theorem numberFrom_indices (sizes : List Nat) (j k : Nat) :
    numberFrom j sizes (indices sizes k) = j * sizes.prod + k % sizes.prod := by
  induction sizes generalizing j with
  | nil => simp [numberFrom, Nat.mod_one]
  | cons n sizes ih =>
    rw [indices_cons, numberFrom, ih, List.prod_cons, Nat.mul_comm n, Nat.mod_mul]
    ring

theorem number_indices (h : k < sizes.prod) : number sizes (indices sizes k) = k := by
  rw [number, numberFrom_indices, Nat.zero_mul, Nat.zero_add, Nat.mod_eq_of_lt h]

theorem indices_inj {j : Nat} (hj : j < sizes.prod) (hk : k < sizes.prod)
    (h : indices sizes j = indices sizes k) : j = k := by
  rw [← number_indices hj, h, number_indices hk]

theorem numberFrom_add (h : Within sizes path) (k : Nat) :
    numberFrom k sizes path = k * sizes.prod + number sizes path := by
  rw [← indices_numberFrom h k, number, numberFrom_indices, numberFrom_indices,
    Nat.zero_mul, Nat.zero_add]

/-- An index counts whole arrays of the dimensions below. -/
theorem number_cons (h : Within sizes path) (n i : Nat) :
    number (n :: sizes) (i :: path) = i * sizes.prod + number sizes path := by
  rw [number, numberFrom, Nat.zero_mul, Nat.zero_add]
  exact numberFrom_add h i

end SystemcCompiler.RowMajor
