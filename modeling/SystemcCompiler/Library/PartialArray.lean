import SystemcCompiler.Library.RowMajor
import Mathlib.Data.List.ReduceOption

/-! Multi-dimensional arrays that are given by nested lists, each at most as long as its
dimension: what is left out has no entry. -/
namespace SystemcCompiler

/-- The leading rows of an array of some size. -/
structure Rows (R : Type) (size : Nat) where
  rows : List R
  length_le : rows.length ≤ size

def PartialArray (E : Type) : List Nat → Type
  | [] => E
  | n :: sizes => Rows (PartialArray E sizes) n

namespace PartialArray
open RowMajor
variable {E : Type} {path : List Nat}

/-- The entry under the indices. -/
def get : (sizes : List Nat) → PartialArray E sizes → List Nat → Option E
  | [], e, _ => some e
  | _ :: sizes, ⟨l, _⟩, i :: path => l[i]?.bind fun row => get sizes row path
  | _ :: _, _, [] => none

def rowNumber {n : Nat} {sizes : List Nat} : PartialArray E (n :: sizes) → Nat
  | ⟨l, _⟩ => l.length

/-- The entries there are, row by row. -/
def explicit : (sizes : List Nat) → PartialArray E sizes → List E
  | [], e => [e]
  | _ :: sizes, ⟨l, _⟩ => (l.map (explicit sizes)).flatten

/-- All places row by row. -/
def entries : (sizes : List Nat) → PartialArray E sizes → List (Option E)
  | [], e => [some e]
  | n :: sizes, ⟨l, _⟩ =>
    (l.map (entries sizes)).flatten ++ List.replicate ((n - l.length) * sizes.prod) none

/-- Lists of one length, one after the other. -/
theorem length_flatten_of {L : List (List E)} {m : Nat} (h : ∀ l ∈ L, l.length = m) :
    L.flatten.length = L.length * m := by
  induction L with
  | nil => rw [List.flatten_nil, List.length_nil, List.length_nil, Nat.zero_mul]
  | cons l L ih =>
    rw [List.flatten_cons, List.length_append, h l List.mem_cons_self,
      ih fun l' hl' => h l' (List.mem_cons_of_mem l hl'), List.length_cons, Nat.succ_mul,
      Nat.add_comm]

theorem getElem?_flatten_of {L : List (List E)} {m i j : Nat} (h : ∀ l ∈ L, l.length = m)
    (hj : j < m) : L.flatten[i * m + j]? = L[i]?.bind fun l => l[j]? := by
  induction L generalizing i with
  | nil => rfl
  | cons l L ih =>
    have hl := h l List.mem_cons_self
    cases i with
    | zero =>
      rw [Nat.zero_mul, Nat.zero_add, List.flatten_cons, List.getElem?_append_left (by omega)]
      rfl
    | succ i =>
      have hskip : (i + 1) * m + j - m = i * m + j := by
        rw [Nat.succ_mul]
        omega
      rw [List.flatten_cons, List.getElem?_append_right (by rw [hl, Nat.succ_mul]; omega), hl,
        hskip, ih fun l' hl' => h l' (List.mem_cons_of_mem l hl')]
      rfl

theorem entries_length (sizes : List Nat) (a : PartialArray E sizes) :
    (entries sizes a).length = sizes.prod := by
  induction sizes with
  | nil => rfl
  | cons n sizes ih =>
    obtain ⟨l, hl⟩ := a
    have hrows : ∀ r ∈ l.map (entries sizes), r.length = sizes.prod := by
      intro r hr
      obtain ⟨row, _, rfl⟩ := List.mem_map.mp hr
      exact ih row
    rw [entries, List.length_append, length_flatten_of hrows, List.length_map,
      List.length_replicate, ← Nat.add_mul, Nat.add_sub_cancel' hl, List.prod_cons]

/-- Without the places left out, what remains are the entries there are. -/
theorem reduceOption_entries (sizes : List Nat) (a : PartialArray E sizes) :
    (entries sizes a).reduceOption = explicit sizes a := by
  induction sizes with
  | nil => rfl
  | cons n sizes ih =>
    obtain ⟨l, hl⟩ := a
    rw [entries, List.reduceOption_append, List.reduceOption_replicate_none, List.append_nil,
      explicit]
    clear hl
    induction l with
    | nil => rfl
    | cons row l ihl =>
      rw [List.map_cons, List.flatten_cons, List.reduceOption_append, ih row, ihl]
      rfl

/-- The place of an entry is its number. -/
theorem getElem?_entries (h : Within sizes path) (a : PartialArray E sizes) :
    (entries sizes a)[number sizes path]? = some (get sizes a path) := by
  induction h with
  | nil => rfl
  | @cons i n path sizes hi hpath ih =>
    obtain ⟨l, hl⟩ := a
    have hrows : ∀ r ∈ l.map (entries sizes), r.length = sizes.prod := by
      intro r hr
      obtain ⟨row, _, rfl⟩ := List.mem_map.mp hr
      exact entries_length sizes row
    have hnumber := number_lt hpath
    have hlength : (l.map (entries sizes)).flatten.length = l.length * sizes.prod := by
      rw [length_flatten_of hrows, List.length_map]
    rw [number_cons hpath, entries, get]
    rcases Nat.lt_or_ge i l.length with hil | hil
    · have hbound : (i + 1) * sizes.prod ≤ l.length * sizes.prod :=
        Nat.mul_le_mul_right _ hil
      rw [Nat.succ_mul] at hbound
      rw [List.getElem?_append_left (by omega), getElem?_flatten_of hrows hnumber,
        List.getElem?_map, List.getElem?_eq_getElem hil]
      exact ih _
    · have hbound : l.length * sizes.prod ≤ i * sizes.prod := Nat.mul_le_mul_right _ hil
      have htop : (i + 1) * sizes.prod ≤ n * sizes.prod := Nat.mul_le_mul_right _ hi
      rw [Nat.succ_mul] at htop
      rw [List.getElem?_append_right (by omega), hlength, List.getElem?_eq_none hil,
        List.getElem?_replicate, if_pos]
      · rfl
      · rw [Nat.sub_mul]
        omega

/-- Where no entry comes after a place left out, the entries are the first ones. -/
theorem eq_reduceOption_append {l : List (Option E)}
    (h : ∀ j k : Nat, j < k → l[j]? = some none → ∀ e, l[k]? ≠ some (some e)) :
    l = l.reduceOption.map some ++ List.replicate (l.length - l.reduceOption.length) none := by
  induction l with
  | nil => rfl
  | cons x l ih =>
    have hl : ∀ j k : Nat, j < k → l[j]? = some none → ∀ e, l[k]? ≠ some (some e) :=
      fun j k hjk => h (j + 1) (k + 1) (Nat.succ_lt_succ hjk)
    cases x with
    | some e =>
      rw [List.reduceOption_cons_of_some, List.map_cons, List.length_cons, List.length_cons,
        Nat.add_sub_add_right, List.cons_append, ← ih hl]
    | none =>
      have hnone : ∀ y ∈ l, y = none := by
        intro y hy
        obtain ⟨k, hk⟩ := List.getElem?_of_mem hy
        cases y with
        | none => rfl
        | some e => exact absurd hk (h 0 (k + 1) (Nat.succ_pos k) rfl e)
      have hreplicate : l = List.replicate l.length none := List.eq_replicate_iff.mpr ⟨rfl, hnone⟩
      rw [List.reduceOption_cons_of_none]
      conv_lhs => rw [hreplicate]
      conv_rhs => rw [hreplicate]
      rw [List.reduceOption_replicate_none]
      simp [List.replicate_succ]

end PartialArray
end SystemcCompiler
