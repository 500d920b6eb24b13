import SystemcCompiler.Library.Nesting
import Mathlib.Data.List.TakeWhile

/-! `getBracketNum`, `isTermInBrackets` and `removeBrackets` of `ScVerilogWriter`: the number
of bracket pairs around a whole term is the lowest depth inside of its outer brackets. -/
namespace SystemcCompiler.Brackets
open Nesting

def kind (c : Char) : Kind :=
  if c = '(' then .left else if c = ')' then .right else .other

/-- One step of the scan, with `leadNum` and `minNum`. -/
def scan (nums : Nat × Nat) (c : Char) : Nat × Nat :=
  let leadNum := if c = '(' then nums.1 + 1 else if c = ')' then nums.1 - 1 else nums.1
  (leadNum, if nums.2 > leadNum then leadNum else nums.2)

/-- The assertion fails where there is no number. -/
def getBracketNum (s : List Char) : Option Nat :=
  if s.length < 2 then some 0
  else
    let leadNum := (s.takeWhile (· = '(')).length
    if leadNum = 0 then some 0
    else
      let trailNum := (s.reverse.takeWhile (· = ')')).length
      if trailNum = 0 then some 0
      else
        let minNum := (((s.take (s.length - trailNum)).drop leadNum).foldl scan
          (leadNum, leadNum)).2
        if minNum ≤ trailNum then some minNum else none

def isTermInBrackets (s : List Char) : Option Bool := (getBracketNum s).map (· ≠ 0)

def removeBrackets (s : List Char) : Option (List Char) :=
  (getBracketNum s).map fun bracketNum => (s.drop bracketNum).take (s.length - 2 * bracketNum)

/-- `n` pairs of brackets, which match each other, around a balanced term. -/
def Encloses (n : Nat) (s inner : List Char) : Prop :=
  Balanced kind inner ∧ s = List.replicate n '(' ++ inner ++ List.replicate n ')'

section
variable {s t inner middle : List Char} {m n i j : Nat}

theorem foldl_scan (d m : Nat) (l : List Char) : (l.foldl scan (d, m)).2 = lowest kind d m l := by
  induction l generalizing d m with
  | nil => rfl
  | cons c l ih =>
    have hmin : ∀ a b : Nat, (if a > b then b else a) = min a b := by
      intro a b
      rw [Nat.min_def]
      split_ifs <;> omega
    rw [List.foldl_cons, scan, ih, lowest, kind]
    dsimp only
    rw [hmin]
    split_ifs <;> rfl

theorem takeWhile_run (c : Char) (l : List Char) :
    l.takeWhile (· = c) = List.replicate (l.takeWhile (· = c)).length c :=
  List.eq_replicate_iff.mpr ⟨rfl, fun _ hx => by simpa using List.mem_takeWhile_imp hx⟩

/-- A term between its leading left and its trailing right brackets. -/
theorem exists_middle (hi : (s.takeWhile (· = '(')).length = i)
    (hj : (s.reverse.takeWhile (· = ')')).length = j) :
    ∃ middle, s = List.replicate i '(' ++ middle ++ List.replicate j ')' := by
  have hs : s = List.replicate i '(' ++ s.dropWhile (· = '(') := by
    conv_lhs => rw [← List.takeWhile_append_dropWhile (p := (· = '(')) (l := s), takeWhile_run, hi]
  have hstop : (List.replicate i '(').takeWhile (· = ')') = [] := by
    rw [List.takeWhile_replicate, if_neg (by decide)]
  have hrun : (s.dropWhile (· = '(')).reverse.takeWhile (· = ')') = List.replicate j ')' := by
    have hrev : s.reverse.takeWhile (· = ')') =
        (s.dropWhile (· = '(')).reverse.takeWhile (· = ')') := by
      conv_lhs => rw [hs, List.reverse_append, List.reverse_replicate, List.takeWhile_append, hstop,
        List.append_nil]
      split
      · rename_i hlen
        exact ((List.takeWhile_prefix _).eq_of_length hlen).symm
      · rfl
    rw [← hrev, takeWhile_run, hj]
  refine ⟨((s.dropWhile (· = '(')).reverse.dropWhile (· = ')')).reverse, ?_⟩
  have hrest : s.dropWhile (· = '(') =
      ((s.dropWhile (· = '(')).reverse.dropWhile (· = ')')).reverse ++ List.replicate j ')' := by
    rw [← List.reverse_replicate, ← hrun, ← List.reverse_append,
      List.takeWhile_append_dropWhile, List.reverse_reverse]
  rw [List.append_assoc, ← hrest]
  exact hs

/-- The brackets of a term that is enclosed are runs at its ends. -/
theorem Encloses.le_runs (h : Encloses n s inner) :
    n ≤ (s.takeWhile (· = '(')).length ∧ n ≤ (s.reverse.takeWhile (· = ')')).length := by
  have hrun : ∀ (c : Char) (l : List Char),
      n ≤ ((List.replicate n c ++ l).takeWhile (· = c)).length := by
    intro c l
    have htake : (List.replicate n c).takeWhile (· = c) = List.replicate n c := by
      rw [List.takeWhile_replicate, if_pos (by simp)]
    rw [List.takeWhile_append, htake, if_pos rfl, List.length_append, List.length_replicate]
    exact Nat.le_add_right n _
  obtain ⟨-, rfl⟩ := h
  constructor
  · rw [List.append_assoc]
    exact hrun '(' _
  · rw [List.reverse_append, List.reverse_replicate]
    exact hrun ')' _

/-- Taking off fewer brackets than there are in the runs. -/
theorem encloses_middle_iff (hi : n ≤ i) (hj : n ≤ j) :
    Encloses n (List.replicate i '(' ++ middle ++ List.replicate j ')') inner ↔
      inner = List.replicate (i - n) '(' ++ middle ++ List.replicate (j - n) ')' ∧
        Balanced kind inner := by
  have hsplit : List.replicate i '(' ++ middle ++ List.replicate j ')' = List.replicate n '(' ++
      (List.replicate (i - n) '(' ++ middle ++ List.replicate (j - n) ')') ++
        List.replicate n ')' := by
    have hleft : List.replicate i '(' = List.replicate n '(' ++ List.replicate (i - n) '(' := by
      rw [List.replicate_append_replicate, Nat.add_sub_cancel' hi]
    have hright : List.replicate j ')' = List.replicate (j - n) ')' ++ List.replicate n ')' := by
      rw [List.replicate_append_replicate, Nat.sub_add_cancel hj]
    rw [hleft, hright]
    simp only [List.append_assoc]
  unfold Encloses
  rw [hsplit, and_comm]
  refine and_congr_left fun _ => ⟨fun h => ?_, fun h => by rw [h]⟩
  exact (List.append_cancel_left (List.append_cancel_right h)).symm

theorem encloses_zero (h : Balanced kind s) : Encloses 0 s s := by
  refine ⟨h, ?_⟩
  rw [List.replicate_zero, List.nil_append, List.replicate_zero, List.append_nil]

theorem Encloses.trans (h : Encloses n s t) (h' : Encloses m t inner) :
    Encloses (n + m) s inner := by
  obtain ⟨-, rfl⟩ := h
  obtain ⟨hinner, rfl⟩ := h'
  refine ⟨hinner, ?_⟩
  rw [Nat.add_comm n m, List.replicate_add (a := ')'), Nat.add_comm m n, List.replicate_add]
  simp only [List.append_assoc]

/-- Inside of a pair of brackets stands what one pair less encloses. -/
theorem Encloses.of_le (h : Encloses n s inner) (hm : m ≤ n) : ∃ t, Encloses m s t := by
  obtain ⟨hinner, rfl⟩ := h
  exact ⟨_, (encloses_middle_iff hm hm).mpr ⟨rfl, hinner.wrap (by decide) (by decide) _⟩⟩

theorem Encloses.length (h : Encloses n s inner) : s.length = inner.length + 2 * n := by
  rw [h.2, List.length_append, List.length_append, List.length_replicate, List.length_replicate]
  omega

/-- The number of brackets is found, and is the greatest that enclose the term. -/
theorem getBracketNum_spec (h : Balanced kind s) : ∃ n inner, getBracketNum s = some n ∧
    Encloses n s inner ∧ ∀ m t, Encloses m s t → m ≤ n := by
  unfold getBracketNum
  split
  · rename_i hshort
    refine ⟨0, s, rfl, encloses_zero h, fun m t hm => ?_⟩
    have := hm.length
    omega
  dsimp only
  split
  · rename_i hlead
    exact ⟨0, s, rfl, encloses_zero h, fun m t hm => hlead ▸ hm.le_runs.1⟩
  split
  · rename_i htrail
    exact ⟨0, s, rfl, encloses_zero h, fun m t hm => htrail ▸ hm.le_runs.2⟩
  generalize hi : (s.takeWhile (· = '(')).length = i
  generalize hj : (s.reverse.takeWhile (· = ')')).length = j
  obtain ⟨middle, hs⟩ := exists_middle hi hj
  have hmiddle : (s.take (s.length - j)).drop i = middle := by
    have hleft : (List.replicate i '(' ++ middle).length = s.length - j := by
      rw [hs, List.length_append, List.length_append, List.length_replicate,
        List.length_replicate, List.length_append, List.length_replicate]
      omega
    rw [← hleft]
    conv_lhs => rw [hs]
    rw [List.take_left, List.drop_left' List.length_replicate]
  have hdepth : nesting kind i middle = some j := by
    rw [hs] at h
    exact h.middle (by decide) (by decide)
  have hlowest := fun k => le_lowest_iff_balanced (k := k) (a := '(') (b := ')') (by decide)
    (by decide) hdepth
  obtain ⟨hle, hle', hbalanced⟩ := (hlowest _).mp (Nat.le_refl _)
  rw [hmiddle, foldl_scan, if_pos hle']
  have hencloses := (encloses_middle_iff hle hle').mpr ⟨rfl, hbalanced⟩
  rw [← hs] at hencloses
  refine ⟨_, _, rfl, hencloses, fun m t hm => ?_⟩
  obtain ⟨hmi, hmj⟩ := hm.le_runs
  rw [hi] at hmi
  rw [hj] at hmj
  rw [hs] at hm
  obtain ⟨rfl, hbal⟩ := (encloses_middle_iff hmi hmj).mp hm
  exact (hlowest m).mpr ⟨hmi, hmj, hbal⟩

theorem removeBrackets_of (hnum : getBracketNum s = some n) (h : Encloses n s inner) :
    removeBrackets s = some inner := by
  unfold removeBrackets
  rw [hnum, Option.map_some, h.length, Nat.add_sub_cancel]
  conv_lhs => rw [h.2]
  rw [List.append_assoc, List.drop_left' List.length_replicate, List.take_left]

/-- Of a balanced term just the bracket pairs around all of it are taken off, and no
assertion fails. -/
theorem removeBrackets_exact (s : List Char) (h : Balanced kind s) :
    ∃ n inner, getBracketNum s = some n ∧ Encloses n s inner ∧
      (∀ m t, Encloses m s t → m ≤ n) ∧
      removeBrackets s = some inner ∧ removeBrackets inner = some inner ∧
      ∃ inBrackets, isTermInBrackets s = some inBrackets ∧
        (inBrackets = true ↔ ∃ t, Encloses 1 s t) := by
  obtain ⟨n, inner, hnum, hn, hmax⟩ := getBracketNum_spec h
  refine ⟨n, inner, hnum, hn, hmax, removeBrackets_of hnum hn, ?_, decide (n ≠ 0), ?_, ?_⟩
  · obtain ⟨m, t, hm, ht, -⟩ := getBracketNum_spec hn.1
    have hzero := hmax _ _ (hn.trans ht)
    have hm0 : m = 0 := by omega
    exact removeBrackets_of (hm0 ▸ hm) (encloses_zero hn.1)
  · rw [isTermInBrackets, hnum]
    rfl
  · rw [decide_eq_true_eq]
    exact ⟨fun hne => hn.of_le (Nat.one_le_iff_ne_zero.mpr hne),
      fun ⟨t, ht⟩ => Nat.one_le_iff_ne_zero.mp (hmax 1 t ht)⟩

theorem removeBrackets_exact_sum :
    let s := "(((a)+(b)))".toList
    Balanced kind s ∧ removeBrackets s = some "(a)+(b)".toList ∧
      removeBrackets "(a)+(b)".toList = some "(a)+(b)".toList := by
  intro s
  have hbalanced : Balanced kind s := by decide
  have hremoved : removeBrackets s = some "(a)+(b)".toList := by decide
  obtain ⟨n, inner, -, -, -, hinner, hagain, -⟩ := removeBrackets_exact s hbalanced
  obtain rfl := Option.some.inj (hinner.symm.trans hremoved)
  exact ⟨hbalanced, hremoved, hagain⟩

end

end SystemcCompiler.Brackets
