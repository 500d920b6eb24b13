import SystemcCompiler.Library.PartialArray

/-! Initializer lists of arrays. All initializers are taken in order, and assigned to the
elements in their order. -/
namespace SystemcCompiler.InitList
open RowMajor

/-- Initializers as Clang has them, a list with the size of its type and whether it has an
array filler. -/
inductive InitExpr (E : Type) where
  | expr (e : E)
  | list (arraySize : Nat) (arrayFiller : Bool) (inits : List (InitExpr E))

/-- A C array or a `std::array`, with the sizes of all dimensions. -/
structure ArrayType where
  isStd : Bool
  size : Nat
  inner : List Nat
  pos : ∀ n ∈ size :: inner, 0 < n

def ArrayType.arraySizes (t : ArrayType) : List Nat := t.size :: t.inner

variable {E V : Type}

/-- Clang's form of a list. The list of a `std::array` contains that of its C array. -/
def semantic (isStd : Bool) : (sizes : List Nat) → PartialArray E sizes → InitExpr E
  | [], e => .expr e
  | n :: sizes, ⟨l, _⟩ =>
    let list := .list n (l.length < n) (l.map (semantic isStd sizes))
    if isStd then .list n false [list] else list

mutual

/-- The initializers, and whether `SYNTH_ARRAY_INIT_LIST` is reported. -/
def getAllInitExpr : InitExpr E → Bool → List E × Bool
  | .expr e, _ => ([e], false)
  | .list arrSize _ [.list _ _ inits], innerArray =>
    let (res, reported) := getAllInitExprs inits
    (res, (innerArray && arrSize != inits.length) || reported)
  | .list arrSize _ inits, innerArray =>
    let (res, reported) := getAllInitExprs inits
    (res, (innerArray && arrSize != inits.length) || reported)

def getAllInitExprs : List (InitExpr E) → List E × Bool
  | [] => ([], false)
  | init :: inits =>
    let (res, reported) := getAllInitExpr init true
    let (rest, restReported) := getAllInitExprs inits
    (res ++ rest, reported || restReported)

end

def getArrayFiller : InitExpr E → Bool
  | .list _ arrayFiller _ => arrayFiller
  | .expr _ => false

def getArrayElementNumber (t : ArrayType) : Nat := t.arraySizes.prod

def getArrayIndices (t : ArrayType) (indx : Nat) : List Nat := indices t.arraySizes indx

/-- The assignments generated for a declaration: of initializers, and of zeros. -/
def parseDeclStmt (t : ArrayType) (init : InitExpr E) : List (List Nat × Option E) :=
  let subexpr := (getAllInitExpr init false).1
  let inits := subexpr.zipIdx.map fun (e, i) => (getArrayIndices t i, some e)
  let zeros :=
    if getArrayFiller init then
      (List.range' subexpr.length (getArrayElementNumber t - subexpr.length)).map
        fun i => (getArrayIndices t i, none)
    else []
  inits ++ zeros

/-- The values that a declaration puts into the state, and the list of all of them. -/
def parseValueDecl (t : ArrayType) (init : InitExpr E) (checkConst isConst : Bool)
    (evaluate : E → V) (zero : V) : List (List Nat × V) × List V :=
  let subexpr := (getAllInitExpr init false).1
  let zeros :=
    if getArrayFiller init then
      List.range' subexpr.length (getArrayElementNumber t - subexpr.length)
    else []
  let puts := (subexpr.zipIdx.map fun (e, i) => (getArrayIndices t i, evaluate e)) ++
    zeros.map fun i => (getArrayIndices t i, zero)
  (if !checkConst || isConst then puts else [], subexpr.map evaluate ++ zeros.map fun _ => zero)

/-- What an element has after the assignments. -/
def assigned (puts : List (List Nat × V)) (path : List Nat) : Option V :=
  puts.reverse.lookup path

/-- A nested list has as many initializers as its array has elements. Where it has only one,
a list itself, that of the inner array is counted. The outermost list is not counted. -/
def Accepted (isStd : Bool) : Bool → (sizes : List Nat) → PartialArray E sizes → Prop
  | _, [], _ => True
  | innerArray, [n], ⟨l, _⟩ => innerArray = true → l.length = n
  | innerArray, n :: m :: sizes, ⟨l, _⟩ =>
    match isStd, l with
    | false, [⟨l, _⟩] =>
      (innerArray = true → l.length = n) ∧ ∀ row ∈ l, Accepted isStd true sizes row
    | _, l =>
      (innerArray = true → l.length = n) ∧ ∀ row ∈ l, Accepted isStd true (m :: sizes) row

/-- The generated code and the state have each initializer at its element, and zero at every
other one. -/
structure Initializes (t : ArrayType) (a : PartialArray E t.arraySizes) : Prop where
  code : ∀ path, Within t.arraySizes path →
    assigned (parseDeclStmt t (semantic t.isStd _ a)) path = some (a.get _ path)
  state : ∀ (V : Type) (evaluate : E → V) (zero : V) (checkConst isConst : Bool),
    (!checkConst || isConst) = true → ∀ path, Within t.arraySizes path →
      assigned (parseValueDecl t (semantic t.isStd _ a) checkConst isConst evaluate zero).1 path =
        some ((a.get _ path).elim zero evaluate)

/-- No initializer comes after an element without one. -/
def Leading (sizes : List Nat) (a : PartialArray E sizes) : Prop :=
  ∀ path path', Within sizes path → Within sizes path' → number sizes path < number sizes path' →
    a.get sizes path = none → a.get sizes path' = none

def Complete (sizes : List Nat) (a : PartialArray E sizes) : Prop :=
  ∀ path, Within sizes path → a.get sizes path ≠ none

/-- The outermost list of a C array has fewer initializers than the array has elements. -/
def Filled (t : ArrayType) (a : PartialArray E t.arraySizes) : Prop :=
  t.isStd = false ∧ PartialArray.rowNumber a < t.size

variable {isStd : Bool} {sizes path : List Nat}

/-- What is iterated in a list. -/
def unwrap : List (InitExpr E) → List (InitExpr E)
  | [.list _ _ inits] => inits
  | inits => inits

theorem getAllInitExpr_list (n : Nat) (filler : Bool) (inits : List (InitExpr E))
    (innerArray : Bool) : getAllInitExpr (.list n filler inits) innerArray =
      ((getAllInitExprs (unwrap inits)).1,
        (innerArray && n != (unwrap inits).length) || (getAllInitExprs (unwrap inits)).2) := by
  unfold unwrap
  split
  · rfl
  · rename_i hnot
    rw [getAllInitExpr]
    exact hnot

theorem getAllInitExprs_cons (init : InitExpr E) (inits : List (InitExpr E)) :
    getAllInitExprs (init :: inits) =
      ((getAllInitExpr init true).1 ++ (getAllInitExprs inits).1,
        (getAllInitExpr init true).2 || (getAllInitExprs inits).2) := rfl

/-- What is found in an array: its initializers, and whether it is accepted. -/
def Flattens (isStd innerArray : Bool) (sizes : List Nat) (a : PartialArray E sizes) : Prop :=
  (getAllInitExpr (semantic isStd sizes a) innerArray).1 = a.explicit sizes ∧
    ((getAllInitExpr (semantic isStd sizes a) innerArray).2 = false ↔
      Accepted isStd innerArray sizes a)

theorem getAllInitExprs_rows (rows : List (PartialArray E sizes))
    (h : ∀ row : PartialArray E sizes, Flattens isStd true sizes row) :
    (getAllInitExprs (rows.map (semantic isStd sizes))).1 =
        (rows.map (PartialArray.explicit sizes)).flatten ∧
      ((getAllInitExprs (rows.map (semantic isStd sizes))).2 = false ↔
        ∀ row ∈ rows, Accepted isStd true sizes row) := by
  induction rows with
  | nil => exact ⟨rfl, fun _ _ hrow => absurd hrow List.not_mem_nil, fun _ => rfl⟩
  | cons row rows ih =>
    rw [List.map_cons, getAllInitExprs_cons, List.map_cons, List.flatten_cons,
      List.forall_mem_cons, ← ih.2, ← (h row).2, ← ih.1, ← (h row).1, Bool.or_eq_false_iff]
    exact ⟨rfl, Iff.rfl⟩

/-- A list whose rows are iterated. -/
theorem getAllInitExpr_rows {n : Nat} {filler innerArray : Bool} {inits : List (InitExpr E)}
    {rows : List (PartialArray E sizes)} (hinits : unwrap inits = rows.map (semantic isStd sizes))
    (h : ∀ row : PartialArray E sizes, Flattens isStd true sizes row) :
    (getAllInitExpr (.list n filler inits) innerArray).1 =
        (rows.map (PartialArray.explicit sizes)).flatten ∧
      ((getAllInitExpr (.list n filler inits) innerArray).2 = false ↔
        (innerArray = true → rows.length = n) ∧ ∀ row ∈ rows, Accepted isStd true sizes row) := by
  have hrows := getAllInitExprs_rows rows h
  have hcount : (innerArray && n != rows.length) = false ↔
      (innerArray = true → rows.length = n) := by
    cases innerArray with
    | false => exact ⟨fun _ h => Bool.noConfusion h, fun _ => rfl⟩
    | true =>
      rw [Bool.true_and, bne_eq_false_iff_eq]
      exact ⟨fun h _ => h.symm, fun h => (h rfl).symm⟩
  rw [getAllInitExpr_list, hinits, List.length_map, ← hrows.1, ← hrows.2, ← hcount,
    Bool.or_eq_false_iff]
  exact ⟨rfl, Iff.rfl⟩

theorem unwrap_of_ne_one {inits : List (InitExpr E)} (h : inits.length ≠ 1) :
    unwrap inits = inits := by
  unfold unwrap
  split
  · exact absurd rfl h
  · rfl

theorem unwrap_elements (l : List (PartialArray E [])) :
    unwrap (l.map (semantic isStd [])) = l.map (semantic isStd []) := by
  match l with
  | [] => rfl
  | [_] => rfl
  | _ :: _ :: _ => rfl

theorem flattens (isStd : Bool) : (innerArray : Bool) → (sizes : List Nat) →
    (a : PartialArray E sizes) → Flattens isStd innerArray sizes a
  | innerArray, [], e => ⟨rfl, fun _ => trivial, fun _ => rfl⟩
  | innerArray, [n], ⟨l, hl⟩ => by
    have hrow : ∀ e : PartialArray E [], Flattens isStd true [] e := flattens isStd true []
    have haccepted : Accepted isStd innerArray [n] (⟨l, hl⟩ : PartialArray E [n]) ↔
        (innerArray = true → l.length = n) ∧ ∀ row ∈ l, Accepted isStd true [] row :=
      ⟨fun h => ⟨h, fun _ _ => trivial⟩, fun h => h.1⟩
    unfold Flattens
    rw [haccepted]
    cases isStd with
    | false => exact getAllInitExpr_rows (unwrap_elements l) hrow
    | true => exact getAllInitExpr_rows rfl hrow
  | innerArray, n :: m :: sizes, ⟨l, hl⟩ => by
    have hrow : ∀ row : PartialArray E (m :: sizes), Flattens isStd true (m :: sizes) row :=
      flattens isStd true (m :: sizes)
    cases isStd with
    | true => exact getAllInitExpr_rows rfl hrow
    | false =>
      match l, hl with
      | [], hl => exact getAllInitExpr_rows rfl hrow
      | [⟨rows, hrows⟩], hl =>
        have hinner : ∀ row : PartialArray E sizes, Flattens false true sizes row :=
          flattens false true sizes
        have hexplicit : PartialArray.explicit (n :: m :: sizes) (⟨[⟨rows, hrows⟩], hl⟩ :
            PartialArray E (n :: m :: sizes)) =
            (rows.map (PartialArray.explicit sizes)).flatten := List.append_nil _
        unfold Flattens
        rw [hexplicit]
        exact getAllInitExpr_rows rfl hinner
      | row :: row' :: l, hl =>
        have hlength : ((row :: row' :: l).map (semantic false (m :: sizes))).length ≠ 1 := by
          rw [List.length_map, List.length_cons, List.length_cons]
          omega
        exact getAllInitExpr_rows (unwrap_of_ne_one hlength) hrow

theorem assigned_range {len : Nat} (h : Within sizes path) (hlen : len ≤ sizes.prod) (f : Nat → V) :
    assigned ((List.range len).map fun i => (indices sizes i, f i)) path =
      if number sizes path < len then some (f (number sizes path)) else none := by
  induction len with
  | zero => rfl
  | succ len ih =>
    have hlast : assigned ((List.range (len + 1)).map fun i => (indices sizes i, f i)) path =
        if path == indices sizes len then some (f len)
        else assigned ((List.range len).map fun i => (indices sizes i, f i)) path := by
      unfold assigned
      rw [List.range_succ, List.map_append, List.reverse_append]
      change List.lookup path ((indices sizes len, f len) :: _) = _
      rw [List.lookup_cons]
      split <;> simp_all
    rw [hlast]
    by_cases hpath : path = indices sizes len
    · rw [if_pos (beq_iff_eq.mpr hpath), hpath, number_indices hlen, if_pos (Nat.lt_succ_self len)]
    · have hne : number sizes path ≠ len := fun heq => hpath (heq ▸ (indices_number h).symm)
      rw [if_neg (fun hbeq => hpath (beq_iff_eq.mp hbeq)), ih (Nat.le_of_succ_le hlen)]
      by_cases hlt : number sizes path < len
      · rw [if_pos hlt, if_pos (Nat.lt_succ_of_lt hlt)]
      · rw [if_neg hlt, if_neg (by omega)]

/-- The assignments of initializers and of zeros, as one list. -/
theorem puts_eq (sizes : List Nat) {sub : List E} {total : Nat} (hsub : sub.length ≤ total)
    (value : Option E → V) :
    (sub.zipIdx.map fun (e, i) => (indices sizes i, value (some e))) ++
        (List.range' sub.length (total - sub.length)).map (fun i => (indices sizes i, value none)) =
      (List.range total).map fun i => (indices sizes i, value sub[i]?) := by
  have hrange : List.range total =
      List.range sub.length ++ List.range' sub.length (total - sub.length) := by
    have happend := List.range'_append_1 (s := 0) (m := sub.length) (n := total - sub.length)
    rw [Nat.zero_add, Nat.add_sub_cancel' hsub] at happend
    rw [List.range_eq_range', List.range_eq_range', happend]
  rw [hrange, List.map_append]
  congr 1
  · apply List.ext_getElem
    · rw [List.length_map, List.length_map, List.length_zipIdx, List.length_range]
    · intro i hi _
      rw [List.length_map, List.length_zipIdx] at hi
      simp [hi]
  · apply List.map_congr_left
    intro i hi
    rw [List.getElem?_eq_none (List.mem_range'_1.mp hi).1]

/-- How many elements are assigned. -/
def total (filler : Bool) (sizes : List Nat) (sub : List E) : Nat :=
  if filler then sizes.prod else sub.length

theorem assigned_puts {sub : List E} (filler : Bool) (h : Within sizes path)
    (hsub : sub.length ≤ sizes.prod) (value : Option E → V) :
    assigned ((sub.zipIdx.map fun (e, i) => (indices sizes i, value (some e))) ++
      (if filler then List.range' sub.length (sizes.prod - sub.length) else []).map
        fun i => (indices sizes i, value none)) path =
      if number sizes path < total filler sizes sub then some (value sub[number sizes path]?)
      else none := by
  have hputs : ((sub.zipIdx.map fun (e, i) => (indices sizes i, value (some e))) ++
      (if filler then List.range' sub.length (sizes.prod - sub.length) else []).map
        fun i => (indices sizes i, value none)) =
      (List.range (total filler sizes sub)).map fun i => (indices sizes i, value sub[i]?) := by
    cases filler with
    | true => exact puts_eq sizes hsub value
    | false =>
      have hnone := puts_eq sizes (Nat.le_refl sub.length) value
      rwa [Nat.sub_self] at hnone
  have htotal : total filler sizes sub ≤ sizes.prod := by
    unfold total
    split
    · exact Nat.le_refl _
    · exact hsub
  rw [hputs, assigned_range h htotal]

theorem explicit_length_le (a : PartialArray E sizes) :
    (a.explicit sizes).length ≤ sizes.prod := by
  rw [← PartialArray.reduceOption_entries, ← PartialArray.entries_length sizes a]
  exact List.reduceOption_length_le _

/-- The initializers, counted, are those of the elements with the same numbers, and all
elements are assigned. -/
def Placed (filler : Bool) (sizes : List Nat) (a : PartialArray E sizes) : Prop :=
  ∀ path, Within sizes path → number sizes path < total filler sizes (a.explicit sizes) ∧
    (a.explicit sizes)[number sizes path]? = a.get sizes path

/-- Without an initializer after an element that has none, the initializers are those of the
first elements. -/
theorem explicit_getElem? {a : PartialArray E sizes} (hlead : Leading sizes a)
    (h : Within sizes path) : (a.explicit sizes)[number sizes path]? = a.get sizes path := by
  have hplace : ∀ j e, (a.entries sizes)[j]? = some e →
      Within sizes (indices sizes j) ∧ number sizes (indices sizes j) = j ∧
        a.get sizes (indices sizes j) = e := by
    intro j e hj
    have hlt : j < sizes.prod := by
      obtain ⟨hlt, _⟩ := List.getElem?_eq_some_iff.mp hj
      rwa [PartialArray.entries_length] at hlt
    have hwithin := indices_within (Nat.zero_lt_of_lt hlt) j
    have hget := PartialArray.getElem?_entries hwithin a
    rw [number_indices hlt, hj] at hget
    exact ⟨hwithin, number_indices hlt, (Option.some.inj hget).symm⟩
  have hentries := PartialArray.eq_reduceOption_append (l := a.entries sizes) (by
    intro j k hjk hj e hk
    obtain ⟨hpathj, hnumberj, hgetj⟩ := hplace j none hj
    obtain ⟨hpathk, hnumberk, hgetk⟩ := hplace k (some e) hk
    have hnone := hlead _ _ hpathj hpathk (by rwa [hnumberj, hnumberk]) hgetj
    rw [hgetk] at hnone
    cases hnone)
  rw [PartialArray.reduceOption_entries, PartialArray.entries_length] at hentries
  have hget := PartialArray.getElem?_entries h a
  rw [hentries] at hget
  have hnumber := number_lt h
  rcases Nat.lt_or_ge (number sizes path) (a.explicit sizes).length with hlt | hge
  · rw [List.getElem?_append_left (by rwa [List.length_map]), List.getElem?_map,
      List.getElem?_eq_getElem hlt] at hget
    rw [List.getElem?_eq_getElem hlt]
    exact Option.some.inj hget
  · rw [List.getElem?_append_right (by rwa [List.length_map]), List.length_map,
      List.getElem?_replicate, if_pos (Nat.sub_lt_sub_right hge hnumber)] at hget
    rw [List.getElem?_eq_none hge]
    exact Option.some.inj hget

theorem placed_iff (filler : Bool) (a : PartialArray E sizes) :
    Placed filler sizes a ↔ Leading sizes a ∧ (Complete sizes a ∨ filler = true) := by
  constructor
  · intro h
    apply And.intro
    · intro path path' hpath hpath' hlt hnone
      rw [← (h path hpath).2, List.getElem?_eq_none_iff] at hnone
      rw [← (h path' hpath').2]
      exact List.getElem?_eq_none (Nat.le_trans hnone (Nat.le_of_lt hlt))
    · cases filler with
      | true => exact .inr rfl
      | false =>
        apply Or.inl
        intro path hpath hnone
        rw [← (h path hpath).2, List.getElem?_eq_none_iff] at hnone
        exact absurd (h path hpath).1 (Nat.not_lt.mpr hnone)
  · rintro ⟨hlead, hall⟩ path hpath
    have hget := explicit_getElem? hlead hpath
    apply And.intro _ hget
    unfold total
    split
    · exact number_lt hpath
    · rename_i hfiller
      have hsome := hall.resolve_right hfiller path hpath
      rw [← hget] at hsome
      exact Nat.lt_of_not_le fun hle => hsome (List.getElem?_eq_none hle)

/-- Whether the outermost list has a filler. -/
theorem getArrayFiller_semantic (t : ArrayType) (a : PartialArray E t.arraySizes) :
    getArrayFiller (semantic t.isStd _ a) = true ↔ Filled t a := by
  obtain ⟨isStd, size, inner, hpos⟩ := t
  obtain ⟨l, hl⟩ := a
  unfold Filled
  cases isStd with
  | true => exact ⟨fun h => Bool.noConfusion h, fun h => Bool.noConfusion h.1⟩
  | false => exact ⟨fun h => ⟨rfl, of_decide_eq_true h⟩, fun h => decide_eq_true h.2⟩

/-- What the generated code assigns to an element. -/
theorem assigned_code (t : ArrayType) (a : PartialArray E t.arraySizes)
    (h : Within t.arraySizes path) :
    assigned (parseDeclStmt t (semantic t.isStd _ a)) path =
      if number t.arraySizes path <
          total (getArrayFiller (semantic t.isStd _ a)) t.arraySizes (a.explicit _) then
        some (a.explicit _)[number t.arraySizes path]?
      else none := by
  have hputs := assigned_puts (getArrayFiller (semantic t.isStd _ a)) h (explicit_length_le a) id
  unfold parseDeclStmt
  rw [(flattens t.isStd false _ a).1]
  cases hfiller : getArrayFiller (semantic t.isStd _ a) with
  | true =>
    rw [hfiller] at hputs
    exact hputs
  | false =>
    rw [hfiller] at hputs
    exact hputs

/-- What an element has in the state. -/
theorem assigned_state (t : ArrayType) (a : PartialArray E t.arraySizes)
    (h : Within t.arraySizes path) {checkConst isConst : Bool}
    (hconst : (!checkConst || isConst) = true) (evaluate : E → V) (zero : V) :
    assigned (parseValueDecl t (semantic t.isStd _ a) checkConst isConst evaluate zero).1 path =
      if number t.arraySizes path <
          total (getArrayFiller (semantic t.isStd _ a)) t.arraySizes (a.explicit _) then
        some ((a.explicit _)[number t.arraySizes path]?.elim zero evaluate)
      else none := by
  have hputs := assigned_puts (getArrayFiller (semantic t.isStd _ a)) h (explicit_length_le a)
    fun e => e.elim zero evaluate
  unfold parseValueDecl
  rw [(flattens t.isStd false _ a).1]
  dsimp only
  rw [if_pos hconst]
  exact hputs

theorem initializes_iff (t : ArrayType) (a : PartialArray E t.arraySizes) :
    Initializes t a ↔ Leading _ a ∧ (Complete _ a ∨ Filled t a) := by
  rw [← getArrayFiller_semantic, ← placed_iff]
  constructor
  · intro h path hpath
    have hcode := h.code path hpath
    rw [assigned_code t a hpath] at hcode
    split at hcode
    · rename_i hlt
      exact ⟨hlt, Option.some.inj hcode⟩
    · cases hcode
  · intro h
    constructor
    · intro path hpath
      rw [assigned_code t a hpath, if_pos (h path hpath).1, (h path hpath).2]
    · intro V evaluate zero checkConst isConst hconst path hpath
      rw [assigned_state t a hpath hconst, if_pos (h path hpath).1, (h path hpath).2]

/-- Each element gets its initializer, and zero without one, or the initializer is reported,
exactly where a nested list is not as long as what its array is compared with, or no
initializer follows an element without one and the rest, if any, is left out of the outermost
list of a C array. -/
theorem reported_or_initializes_iff (t : ArrayType) (a : PartialArray E t.arraySizes) :
    (getAllInitExpr (semantic t.isStd _ a) false).2 = true ∨ Initializes t a ↔
      ¬Accepted t.isStd false _ a ∨ Leading _ a ∧ (Complete _ a ∨ Filled t a) := by
  rw [initializes_iff, ← (flattens t.isStd false _ a).2, Bool.not_eq_false]

/-- `int a[2][1][3] = {{{1}}, {{2}}}` is accepted, and the second initializer is assigned to
the second element. In `std::array<int, 3> a = {1}` no zeros are assigned. -/
theorem initializer_misplaced :
    (let t : ArrayType := ⟨false, 2, [1, 3], by decide⟩
     let a : PartialArray Int t.arraySizes :=
       ⟨[⟨[⟨[(1 : Int)], by decide⟩], by decide⟩, ⟨[⟨[(2 : Int)], by decide⟩], by decide⟩],
         by decide⟩
     ¬((getAllInitExpr (semantic t.isStd t.arraySizes a) false).2 = true ∨ Initializes t a) ∧
       assigned (parseDeclStmt t (semantic t.isStd t.arraySizes a)) [0, 0, 1] = some (some 2)) ∧
    (let t : ArrayType := ⟨true, 3, [], by decide⟩
     let a : PartialArray Int t.arraySizes := ⟨[(1 : Int)], by decide⟩
     ¬((getAllInitExpr (semantic t.isStd t.arraySizes a) false).2 = true ∨ Initializes t a) ∧
       assigned (parseDeclStmt t (semantic t.isStd t.arraySizes a)) [1] = none) := by
  dsimp only
  have hwithin : Within [2, 1, 3] [0, 0, 1] := by simp [Within]
  have hwithin' : Within [3] [1] := by simp [Within]
  apply And.intro
  · apply And.intro _ rfl
    rintro (h | h)
    · cases h
    · cases h.code [0, 0, 1] hwithin
  · apply And.intro _ rfl
    rintro (h | h)
    · cases h
    · cases h.code [1] hwithin'

end SystemcCompiler.InitList
