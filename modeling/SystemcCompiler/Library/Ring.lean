import Mathlib.Data.List.Basic
import Mathlib.Logic.Function.Basic

/-! Ring buffers: a memory of `length` cells read from a wrapping index on. -/
namespace SystemcCompiler.Ring
variable {T : Type}

/-- The `num` elements stored from index `pop` on, oldest first. -/
def contents (length : Nat) (buffer : Nat → T) (pop num : Nat) : List T :=
  (List.range num).map fun i => buffer ((pop + i) % length)

@[simp] theorem contents_length (length : Nat) (buffer : Nat → T) (pop num : Nat) :
    (contents length buffer pop num).length = num := by
  simp [contents]

@[simp] theorem contents_zero (length : Nat) (buffer : Nat → T) (pop : Nat) :
    contents length buffer pop 0 = [] := rfl

theorem contents_eq_nil {length : Nat} {buffer : Nat → T} {pop num : Nat} :
    contents length buffer pop num = [] ↔ num = 0 := by
  rw [← List.length_eq_zero_iff, contents_length]

theorem contents_get (length : Nat) (buffer : Nat → T) (pop num i : Nat) (hi : i < num) :
    (contents length buffer pop num)[i]? = some (buffer ((pop + i) % length)) := by
  simp [contents, hi]

theorem contents_none (length : Nat) (buffer : Nat → T) (pop num i : Nat) (hi : num ≤ i) :
    (contents length buffer pop num)[i]? = none := by
  simp [contents, hi]

/-- Two offsets less than a turn apart are different cells. -/
theorem offset_ne {length pop i j : Nat} (hij : i < j) (hj : j < i + length) :
    (pop + i) % length ≠ (pop + j) % length := by
  intro h
  have hd := Nat.dvd_of_mod_eq_zero (Nat.sub_mod_eq_zero_of_mod_eq h.symm)
  have := Nat.le_of_dvd (by omega) hd
  omega

/-- A push stores at the end and a pop moves the start; both at once work even
in a full ring, where the cell written is the one just freed. -/
theorem contents_pushPop {length pop num push popped : Nat} (buffer : Nat → T) (data : T)
    (hpush : push ≤ 1) (hroom : num + push ≤ length + popped) (hhave : popped ≤ num + push) :
    contents length
        (if push = 1 then Function.update buffer ((pop + num) % length) data else buffer)
        ((pop + popped) % length) (num + push - popped) =
      (contents length buffer pop num ++ List.replicate push data).drop popped := by
  apply List.ext_getElem?
  intro i
  rw [List.getElem?_drop]
  by_cases hi : i < num + push - popped
  · rw [contents_get _ _ _ _ _ hi, Nat.mod_add_mod, Nat.add_assoc]
    by_cases hold : popped + i < num
    · rw [List.getElem?_append_left (by simpa using hold), contents_get _ _ _ _ _ hold]
      split
      · have hne : (pop + (popped + i)) % length ≠ (pop + num) % length :=
          offset_ne hold (by omega)
        rw [Function.update_of_ne hne]
      · rfl
    · have hp : push = 1 := by omega
      have hlast : popped + i = num := by omega
      subst hp
      simp [hlast]
  · rw [contents_none _ _ _ _ _ (by omega), eq_comm, List.getElem?_eq_none]
    simp
    omega

theorem contents_push {length pop num : Nat} (buffer : Nat → T) (data : T) (hpop : pop < length)
    (hroom : num + 1 ≤ length) :
    contents length (Function.update buffer ((pop + num) % length) data) pop (num + 1) =
      contents length buffer pop num ++ [data] := by
  have h := @contents_pushPop T length pop num 1 0 buffer data (by omega) (by omega) (by omega)
  simpa [Nat.mod_eq_of_lt hpop] using h

theorem contents_drop {length pop num popped : Nat} (buffer : Nat → T) (hnum : num ≤ length)
    (hhave : popped ≤ num) :
    contents length buffer ((pop + popped) % length) (num - popped) =
      (contents length buffer pop num).drop popped := by
  rcases Nat.eq_zero_or_pos num with hz | hpos
  · simp [hz]
  · have h := @contents_pushPop T length pop num 0 popped buffer (buffer 0) (by omega) (by omega)
      (by omega)
    simpa using h

/-- Wrapping increment of an index below `length`. -/
theorem next_eq {length i : Nat} (hi : i < length) :
    (if i = length - 1 then 0 else i + 1) = (i + 1) % length := by
  split
  · have : i + 1 = length := by omega
    simp [this]
  · rw [Nat.mod_eq_of_lt (by omega)]

/-- A ring of `length` cells that is written once in every cycle: its cells before
cycle `t`. -/
def history (length : Nat) (empty : T) (values : Nat → T) : Nat → Nat → T
  | 0 => fun _ => empty
  | t + 1 => Function.update (history length empty values t) (t % length) (values t)

theorem history_get {length : Nat} (empty : T) (values : Nat → T) {u t : Nat} (hu : u < t)
    (ht : t ≤ u + length) : history length empty values t (u % length) = values u := by
  induction t with
  | zero => omega
  | succ t ih =>
    rw [history]
    rcases Nat.lt_or_ge u t with hlt | hge
    · have hne : (0 + u) % length ≠ (0 + t) % length := offset_ne hlt (by omega)
      rw [Nat.zero_add, Nat.zero_add] at hne
      rw [Function.update_of_ne hne]
      exact ih hlt (by omega)
    · have heq : u = t := by omega
      rw [heq, Function.update_self]

theorem history_empty {length : Nat} (empty : T) (values : Nat → T) {t i : Nat}
    (hi : i < length) (ht : t ≤ i) : history length empty values t i = empty := by
  induction t with
  | zero => rfl
  | succ t ih =>
    have hne : i ≠ t % length := by
      rw [Nat.mod_eq_of_lt (by omega)]
      omega
    rw [history, Function.update_of_ne hne]
    exact ih (by omega)

/-- The cell that is written next holds the value of one turn before. -/
theorem history_oldest {length : Nat} (hpos : 0 < length) (empty : T) (values : Nat → T)
    (t : Nat) : history length empty values t (t % length) =
      if length ≤ t then values (t - length) else empty := by
  split
  · rename_i hle
    have hmod : (t - length) % length = t % length := (Nat.mod_eq_sub_mod hle).symm
    rw [← hmod]
    exact history_get empty values (by omega) (by omega)
  · have hmod : t % length = t := Nat.mod_eq_of_lt (by omega)
    exact history_empty empty values (Nat.mod_lt _ hpos) (Nat.le_of_eq hmod.symm)

/-- What holds of all cells holds of the last `length` values, and of the empty
value while the ring is not yet full. -/
theorem history_forall {length : Nat} (empty : T) (values : Nat → T)
    (t : Nat) (p : T → Prop) :
    (∀ i < length, p (history length empty values t i)) ↔
      (∀ u < t, t ≤ u + length → p (values u)) ∧ (t < length → p empty) := by
  constructor
  · intro h
    refine ⟨fun u hu ht => ?_, fun ht => ?_⟩
    · have hpos : 0 < length := by omega
      rw [← history_get empty values hu ht]
      exact h _ (Nat.mod_lt _ hpos)
    · rw [← history_empty empty values ht (Nat.le_refl t)]
      exact h t ht
  · rintro ⟨hvalues, hempty⟩ i hi
    rcases Nat.lt_or_ge i t with hlt | hge
    · have hpos : 0 < length := by omega
      -- the last cycle that wrote the cell
      have hdiv : length * ((t - 1 - i) / length) ≤ t - 1 - i := Nat.mul_div_le _ _
      have hlast : t - 1 - i < length * ((t - 1 - i) / length) + length :=
        Nat.lt_mul_div_succ _ hpos
      have hcell : (i + length * ((t - 1 - i) / length)) % length = i := by
        rw [Nat.add_mul_mod_self_left, Nat.mod_eq_of_lt hi]
      rw [← hcell, history_get empty values (by omega) (by omega)]
      exact hvalues _ (by omega) (by omega)
    · rw [history_empty empty values hi hge]
      exact hempty (by omega)

end SystemcCompiler.Ring
