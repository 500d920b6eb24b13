import SystemcCompiler.Cfg.StateStore

/-! What the operations of `ScState` do to the tuples: the integers below a value are
forgotten, and nothing else changes. -/
namespace SystemcCompiler.StateValues
open RowMajor

namespace State
open SValue
variable {s s' s'' : State} {k v : SValue}

theorem find_put (s : State) (k r j : SValue) :
    (s.put k r).find j = if j = k then r else s.find j := by
  unfold find put
  split
  · next h => rw [h, AList.lookup_insert]; rfl
  · next h => rw [AList.lookup_insert_ne h]

theorem find_erase (s : State) (k j : SValue) :
    (s.erase k).find j = if j = k then .noValue else s.find j := by
  unfold find erase
  split
  · next h => rw [h, AList.lookup_erase]; rfl
  · next h => rw [AList.lookup_erase_ne h]

@[simp] theorem find_setValueLevel (s : State) (k j : SValue) (level : Nat) :
    (s.setValueLevel k level).find j = s.find j := rfl

/-- Keys have no unknown offset, and neither have the arrays inside arrays. -/
structure Known (s : State) : Prop where
  key : ∀ k, s.find k ≠ .noValue → k.known = true
  value : ∀ k, k.isArray = true → (s.find k).known = true

theorem isArrayUnknown_known (hs : s.Known) (hv : v.known = true) (fuel : Nat) :
    isArrayUnknown fuel s v = false := by
  induction fuel generalizing v with
  | zero => cases v <;> rfl
  | succ fuel ih =>
    cases v with
    | array id owner size offset =>
      simp only [known, Bool.and_eq_true] at hv
      simp [isArrayUnknown, hv.1, ih (hs.value (.array id owner size offset) rfl),
        Option.isNone_eq_false_iff]
    | _ => rfl

theorem find_findOwner {D : Decl → VarDecl} (h : findOwner D s v = some k) : s.find k = v := by
  obtain ⟨e, he, rfl⟩ := Option.map_eq_some_iff.mp h
  have hmem : e ∈ s.tuples.entries := List.mem_of_find?_eq_some he
  have hval := List.find?_some he
  simp only [Bool.and_eq_true, decide_eq_true_eq] at hval
  have hlookup : s.tuples.lookup e.1 = some e.2 := AList.mem_lookup_iff.mpr hmem
  rw [find, hlookup, ← hval.1]
  rfl

theorem parseValueHierarchy_known {D : Decl → VarDecl} (hs : s.Known) (hv : v.known = true)
    (fuel : Nat) : ∀ w ∈ parseValueHierarchy D fuel s v, w.known = true := by
  induction fuel generalizing v with
  | zero => simp [parseValueHierarchy]
  | succ fuel ih =>
    cases v with
    | noValue => simp [parseValueHierarchy]
    | integer z => simp [parseValueHierarchy]
    | var x => simp [parseValueHierarchy, known]
    | field f parent =>
      simp only [parseValueHierarchy, List.mem_cons, forall_eq_or_imp]
      exact ⟨hv, ih hv⟩
    | array id owner size offset =>
      simp only [parseValueHierarchy, List.mem_cons, forall_eq_or_imp]
      refine ⟨hv, ?_⟩
      split
      · next w hw =>
        apply ih (hs.key w _)
        rw [find_findOwner hw]
        simp
      · simp
    | record owner index =>
      simp only [parseValueHierarchy, List.mem_cons, forall_eq_or_imp]
      refine ⟨hv, ?_⟩
      split
      · next w hw =>
        apply ih (hs.key w _)
        rw [find_findOwner hw]
        simp
      · simp

theorem isUnknownElement_known (h : v.known = true) : v.isUnknownElement = false := by
  cases v with
  | array id owner size offset =>
    cases offset with
    | none => simp [known] at h
    | some i => rfl
  | _ => rfl

theorem hasUnknownArray_known {D : Decl → VarDecl} (hs : s.Known) (hv : v.known = true) :
    hasUnknownArray D s v = false := by
  rw [hasUnknownArray, List.any_eq_false]
  intro w hw
  simp [isUnknownElement_known (parseValueHierarchy_known hs hv _ w hw)]

theorem isUnknownIndex_known {D : Decl → VarDecl} (hs : s.Known) (hv : v.known = true) :
    isUnknownIndex D s v = false := by
  rw [isUnknownIndex, isArrayUnknown_known hs hv, hasUnknownArray_known hs hv, ite_self]

theorem getDerefVariable_self {D : Decl → VarDecl} (h : v.isReference D = false) :
    s.getDerefVariable D v = v := by
  simp [getDerefVariable, h]

theorem getDerefVariable_cases (D : Decl → VarDecl) (s : State) (v : SValue) :
    s.getDerefVariable D v = v ∨
      v.isReference D = true ∧ s.find v ≠ .noValue ∧ s.getDerefVariable D v = s.find v := by
  cases href : v.isReference D with
  | false => exact .inl (getDerefVariable_self href)
  | true =>
    unfold getDerefVariable
    rw [if_pos href]
    split
    · exact .inl rfl
    · exact .inl rfl
    · next hnone _ => exact .inr ⟨rfl, hnone, rfl⟩

theorem getValue_known {D : Decl → VarDecl} (hs : s.Known) (hv : v.known = true)
    (href : v.isReference D = false) (deref : Bool) (mode : ArrayUnkwnMode) :
    getValue D s v deref mode = (s.find v, false) := by
  simp [getValue, getDerefVariable_self href, isUnknownIndex_known hs hv]

theorem putValue_known {D : Decl → VarDecl} (hs : s.Known) (hv : v.known = true)
    (href : v.isReference D = false) (r : SValue) (deref : Bool) :
    putValue D s v r deref =
      let rrval := castValue D v (if deref then s.getDerefVariable D r else r)
      if rrval = .noValue then s.erase v else s.put v rrval := by
  simp [putValue, getDerefVariable_self href, isArrayUnknown_known hs hv,
    hasUnknownArray_known hs hv, href]

/-- Integers are forgotten and nothing else changes. -/
structure Erased (s s' : State) : Prop where
  levels : s'.levels = s.levels
  find : ∀ k, s'.find k = s.find k ∨ (∃ v, s.find k = .integer v) ∧ s'.find k = .noValue

theorem Erased.refl (s : State) : Erased s s := ⟨rfl, fun _ => .inl rfl⟩

theorem Erased.trans (h : Erased s s') (h' : Erased s' s'') : Erased s s'' where
  levels := h'.levels.trans h.levels
  find k := by
    rcases h.find k with hk | ⟨hint, hk⟩ <;> rcases h'.find k with hk' | ⟨⟨v, hint'⟩, hk'⟩
    · exact .inl (hk'.trans hk)
    · exact .inr ⟨⟨v, hk ▸ hint'⟩, hk'⟩
    · exact .inr ⟨hint, hk'.trans hk⟩
    · exact .inr ⟨hint, hk'⟩

theorem Erased.noValue (h : Erased s s') (hk : s.find k = .noValue) : s'.find k = .noValue := by
  rcases h.find k with hk' | ⟨-, hk'⟩
  · exact hk'.trans hk
  · exact hk'

theorem Erased.object (h : Erased s s') (hk : ∀ v, s.find k ≠ .integer v) :
    s'.find k = s.find k := by
  rcases h.find k with hk' | ⟨⟨v, hv⟩, -⟩
  · exact hk'
  · exact absurd hv (hk v)

theorem erased_erase {z : Int} (h : s.find k = .integer z) : Erased s (s.erase k) where
  levels := rfl
  find j := by
    rw [find_erase]
    split
    · next hj => exact .inr ⟨⟨z, hj ▸ h⟩, rfl⟩
    · exact .inl rfl

theorem Known.erased (hs : s.Known) (h : Erased s s') : s'.Known where
  key k hk := by
    apply hs.key k
    intro hnone
    exact hk (h.noValue hnone)
  value k hk := by
    rcases h.find k with hk' | ⟨-, hk'⟩
    · rw [hk']
      exact hs.value k hk
    · rw [hk']
      rfl

end State

namespace Ty

theorem height_field {n f : Nat} {field : Nat → Ty} (h : f < n) :
    (field f).height < (Ty.record n field).height := by
  have hmem : (field f).height ∈ (List.range n).map fun f => (field f).height :=
    List.mem_map.mpr ⟨f, List.mem_range.mpr h, rfl⟩
  have hle := List.le_max_of_le' 0 hmem le_rfl
  exact Nat.lt_succ_of_le hle

end Ty

namespace Cursor
variable {P : Program} {x : Decl} {id : Nat} {s s' : State} {c d : Cursor} {p : List Nat}

/-- The tuple of a place: a scalar may have an integer, the others their object. -/
def Stored (id : Nat) (s : State) (c : Cursor) : Prop :=
  match c.type with
  | .scalar _ => s.find c.key = .noValue ∨ ∃ v, s.find c.key = .integer v
  | _ => s.find c.key = c.object id

/-- All places from here down have their tuples. -/
def StoredBelow (id : Nat) (s : State) (c : Cursor) : Prop :=
  ∀ q d, c.walk id q = some d → d.Stored id s

/-- No scalar from here down has an integer. -/
def Cleared (id : Nat) (s : State) (c : Cursor) : Prop :=
  ∀ q d t, c.walk id q = some d → d.type = .scalar t → s.find d.key = .noValue

theorem Stored.erased (h : c.Stored id s) (he : s.Erased s') : c.Stored id s' := by
  unfold Stored at h ⊢
  split
  · next t ht =>
    rw [ht] at h
    rcases he.find c.key with hk | ⟨-, hk⟩
    · rwa [hk]
    · exact .inl hk
  · next hne =>
    have hobj : s.find c.key = c.object id := by
      cases ht : c.type with
      | scalar t => exact absurd ht (hne t)
      | _ => simpa [ht] using h
    rw [he.object (fun v hv => ?_), hobj]
    rw [hobj] at hv
    unfold object at hv
    split at hv <;> simp at hv

theorem StoredBelow.erased (h : c.StoredBelow id s) (he : s.Erased s') : c.StoredBelow id s' :=
  fun q d hd => (h q d hd).erased he

theorem Cleared.erased (h : c.Cleared id s) (he : s.Erased s') : c.Cleared id s' :=
  fun q d t hd ht => he.noValue (h q d t hd ht)

theorem StoredBelow.self (h : c.StoredBelow id s) : c.Stored id s := h [] c rfl

theorem StoredBelow.child {i : Nat} (h : c.StoredBelow id s) (hd : c.child id i = some d) :
    d.StoredBelow id s := by
  intro q e he
  refine h (i :: q) e ?_
  rw [walk, hd]
  exact he

/-- Clearing the children of an array or a record clears it. -/
theorem cleared_of_children (hne : ∀ t, c.type ≠ .scalar t)
    (h : ∀ i d, c.child id i = some d → d.Cleared id s) : c.Cleared id s := by
  intro q d t hd ht
  cases q with
  | nil =>
    cases hd
    exact absurd ht (hne t)
  | cons i q =>
    obtain ⟨e, he, hd⟩ := Option.bind_eq_some_iff.mp hd
    exact h i e he q d t hd ht

theorem Located.isReference_key (h : c.Located P x p) (hx : P.isReference x = false) :
    c.key.isReference P.decl = false := by
  have hroot := h.root_key
  cases hkey : c.key with
  | var y =>
    rw [hkey] at hroot
    cases hroot
    exact hx
  | _ => rfl

theorem Located.typeHeight_key (h : c.Located P x p) :
    c.key.typeHeight P.decl = c.type.height := by
  simp [SValue.typeHeight, h.type_key]

theorem Located.scalarType_key (h : c.Located P x p) :
    c.key.scalarType P.decl = c.type.scalar? := by
  simp [SValue.scalarType, h.type_key]

theorem Located.type_record {n : Nat} {field : Nat → Ty} (h : c.Located P x p)
    (ht : c.type = .record n field) :
    (SValue.record c.owner c.index).type P.decl = some (.record n field) := by
  obtain ⟨-, -, t, -, htype, -, helem, -, -⟩ := h.below_owner
  simp [SValue.type, htype, helem, ht, Ty.elementType]

end Cursor

namespace State
open Cursor
variable {P : Program} {x : Decl} {id : Nat} {s : State} {c : Cursor} {p : List Nat}

/-- The places below a cursor can be forgotten with this much fuel. -/
structure Forgettable (P : Program) (id : Nat) (s : State) (fuel : Nat) (c : Cursor) : Prop where
  located : ∃ x p, P.isReference x = false ∧ c.Located P x p
  stored : c.StoredBelow id s
  fuel : c.type.height < fuel

theorem Forgettable.erased {s' : State} {fuel : Nat} (h : Forgettable P id s fuel c)
    (he : s.Erased s') : Forgettable P id s' fuel c :=
  ⟨h.located, h.stored.erased he, h.fuel⟩

/-- Forgetting one value after another. -/
theorem foldl_removeIntSubValues {ι : Type} (fuel : ι → Nat) (cursor : ι → Cursor) (l : List ι)
    (hremove : ∀ i ∈ l, ∀ s, s.Known → Forgettable P id s (fuel i) (cursor i) →
      s.Erased (removeIntSubValues P.decl (fuel i) s (cursor i).key) ∧
        (cursor i).Cleared id (removeIntSubValues P.decl (fuel i) s (cursor i).key))
    (hs : s.Known) (hl : ∀ i ∈ l, Forgettable P id s (fuel i) (cursor i)) :
    let s' := l.foldl (fun s i => removeIntSubValues P.decl (fuel i) s (cursor i).key) s
    s.Erased s' ∧ ∀ i ∈ l, (cursor i).Cleared id s' := by
  induction l generalizing s with
  | nil => exact ⟨.refl s, by simp⟩
  | cons i l ih =>
    simp only [List.mem_cons, forall_eq_or_imp] at hremove hl
    obtain ⟨he, hclear⟩ := hremove.1 s hs hl.1
    obtain ⟨he', hclear'⟩ := ih hremove.2 (hs.erased he) fun j hj => (hl.2 j hj).erased he
    simp only [List.foldl_cons, List.mem_cons, forall_eq_or_imp]
    exact ⟨he.trans he', hclear.erased he', hclear'⟩

theorem removeIntSubValues_spec (fuel : Nat) (hs : s.Known) (hc : Forgettable P id s fuel c) :
    s.Erased (removeIntSubValues P.decl fuel s c.key) ∧
      c.Cleared id (removeIntSubValues P.decl fuel s c.key) := by
  induction fuel generalizing s c with
  | zero => exact absurd hc.fuel (Nat.not_lt_zero _)
  | succ fuel ih =>
    obtain ⟨⟨x, p, hx, hloc⟩, hstored, hfuel⟩ := hc
    have hself := hstored.self
    have hvalue : (getValue P.decl s c.key true .amNoValue).1 = s.find c.key := by
      rw [getValue_known hs hloc.known_key (hloc.isReference_key hx)]
    unfold removeIntSubValues
    rw [hvalue]
    obtain ⟨key, owner, index, t⟩ := c
    cases t with
    | scalar t =>
      have hwalk : ∀ q d, (Cursor.mk key owner index (.scalar t)).walk id q = some d →
          d.key = key := by
        intro q d hd
        cases q with
        | nil => cases hd; rfl
        | cons i q => simp [walk, child] at hd
      rcases hself with hnone | ⟨v, hint⟩
      · dsimp only at hnone ⊢
        rw [hnone]
        exact ⟨.refl s, fun q d t hd _ => hwalk q d hd ▸ hnone⟩
      · dsimp only at hint ⊢
        rw [hint]
        refine ⟨erased_erase hint, fun q d t hd _ => ?_⟩
        rw [hwalk q d hd, find_erase, if_pos rfl]
    | array n elem =>
      have hobj : s.find key = .array id key n (some 0) := hself
      rw [hobj]
      have hchild : ∀ i < n, (Cursor.mk key owner index (.array n elem)).child id i =
          some ⟨.array id key n (some i), owner, index * n + i, elem⟩ := by
        intro i hi
        simp [child, hi]
      obtain ⟨he, hclear⟩ := foldl_removeIntSubValues (fun _ => fuel)
        (fun i => ⟨.array id key n (some i), owner, index * n + i, elem⟩) (List.range n)
        (fun i _ s hs hi => ih hs hi) hs fun i hi =>
          have hd := hchild i (List.mem_range.mp hi)
          ⟨⟨x, p ++ [i], hx, hloc.child hd⟩, hstored.child hd, Nat.lt_of_succ_lt_succ hfuel⟩
      refine ⟨he, cleared_of_children (by simp) fun i d hd => ?_⟩
      simp only [child, Option.ite_none_right_eq_some, Option.some.injEq] at hd
      obtain ⟨hi, rfl⟩ := hd
      exact hclear i (List.mem_range.mpr hi)
    | record n field =>
      have hobj : s.find key = .record owner index := hself
      rw [hobj]
      have hchild : ∀ f < n, (Cursor.mk key owner index (.record n field)).child id f =
          some ⟨.field f (.record owner index), .field f (.record owner index), 0, field f⟩ := by
        intro f hf
        simp [child, hf]
      obtain ⟨he, hclear⟩ := foldl_removeIntSubValues (fun _ => fuel)
        (fun f => ⟨.field f (.record owner index), .field f (.record owner index), 0, field f⟩)
        (List.range n) (fun f _ s hs hf => ih hs hf) hs fun f hf =>
          have hf := List.mem_range.mp hf
          have hd := hchild f hf
          ⟨⟨x, p ++ [f], hx, hloc.child hd⟩, hstored.child hd,
            lt_of_lt_of_le (Ty.height_field hf) (Nat.le_of_lt_succ hfuel)⟩
      have htype : (SValue.record owner index).type P.decl = some (.record n field) :=
        hloc.type_record rfl
      simp only [htype, Option.map_some, Ty.fieldNum, Option.getD_some]
      refine ⟨he, cleared_of_children (by simp) fun i d hd => ?_⟩
      simp only [child, Option.ite_none_right_eq_some, Option.some.injEq] at hd
      obtain ⟨hi, rfl⟩ := hd
      exact hclear i (List.mem_range.mpr hi)

/-- A write to the array at an unknown index forgets all its elements. -/
theorem setArrayNoValue_spec {n : Nat} {t : Ty} (offset : Option Nat) (hs : s.Known)
    (hx : P.isReference x = false) (hloc : c.Located P x p) (hstored : c.StoredBelow id s)
    (ht : c.type = .array n t) :
    s.Erased (setArrayNoValue P.decl s (.array id c.key n offset)) ∧
      c.Cleared id (setArrayNoValue P.decl s (.array id c.key n offset)) := by
  obtain ⟨key, owner, index, type⟩ := c
  cases ht
  have hheight : (SValue.array id key n offset).typeHeight P.decl = t.height := by
    simp [SValue.typeHeight, SValue.type, hloc.type_key, Ty.directElementType]
  unfold setArrayNoValue
  rw [hheight]
  obtain ⟨he, hclear⟩ := foldl_removeIntSubValues (fun _ => t.height + 1)
    (fun i => ⟨.array id key n (some i), owner, index * n + i, t⟩) (List.range n)
    (fun i _ s hs hi => removeIntSubValues_spec _ hs hi) hs fun i hi =>
      have hd : (Cursor.mk key owner index (.array n t)).child id i =
          some ⟨.array id key n (some i), owner, index * n + i, t⟩ := by
        simp [child, List.mem_range.mp hi]
      ⟨⟨x, p ++ [i], hx, hloc.child hd⟩, hstored.child hd, Nat.lt_succ_self _⟩
  refine ⟨he, cleared_of_children (by simp) fun i d hd => ?_⟩
  simp only [child, Option.ite_none_right_eq_some, Option.some.injEq] at hd
  obtain ⟨hi, rfl⟩ := hd
  exact hclear i (List.mem_range.mpr hi)

end State

/-- The way down from a type to another one through all fields of a list, over any indices. -/
inductive Ty.Through : List Nat → Ty → List Nat → Ty → Prop where
  | stop {t : Ty} : Through [] t [] t
  | elem {fs q : List Nat} {t u : Ty} {n i : Nat} :
    i < n → Through fs t q u → Through fs (.array n t) (i :: q) u
  | field {fs q : List Nat} {u : Ty} {n f : Nat} {field : Nat → Ty} :
    f < n → Through fs (field f) q u → Through (f :: fs) (.record n field) (f :: q) u

namespace Ty.Through
variable {fs q : List Nat} {t u : Ty}

theorem subAt (h : Through fs t q u) : t.subAt q = some u := by
  induction h with
  | stop => rfl
  | elem hi _ ih => simpa [Ty.subAt, Ty.sub, hi] using ih
  | field hf _ ih => simpa [Ty.subAt, Ty.sub, hf] using ih

theorem concat_elem {n i : Nat} (h : Through fs t q (.array n u)) (hi : i < n) :
    Through fs t (q ++ [i]) u := by
  generalize hv : Ty.array n u = v at h
  induction h with
  | stop =>
    subst hv
    exact .elem hi .stop
  | elem hj _ ih => exact .elem hj (ih hv)
  | field hf _ ih => exact .field hf (ih hv)

theorem concat_field {n f : Nat} {field : Nat → Ty} (h : Through fs t q (.record n field))
    (hf : f < n) : Through (fs ++ [f]) t (q ++ [f]) (field f) := by
  generalize hv : Ty.record n field = v at h
  induction h with
  | stop =>
    subst hv
    exact .field hf .stop
  | elem hj _ ih => exact .elem hj (ih hv)
  | field hg _ ih => exact .field hg (ih hv)

end Ty.Through

/-- The fields exist one below the other. -/
def Ty.HasFields : List Nat → Ty → Prop
  | [], _ => True
  | f :: fs, t => ∃ u, t.elementType.fieldType f = some u ∧ u.HasFields fs

theorem Ty.Through.hasFields {fs q : List Nat} {t u : Ty} (h : Through fs t q u) :
    t.HasFields fs := by
  induction h with
  | stop => trivial
  | @elem fs _ _ _ _ _ _ _ ih => cases fs <;> exact ih
  | field hf _ ih => exact ⟨_, if_pos hf, ih⟩

namespace State
open Cursor
variable {P : Program} {x : Decl} {id : Nat} {s : State} {c : Cursor} {p : List Nat}

/-- What `getRecordArrayElements` finds below a place. -/
structure Collected (id : Nat) (c : Cursor) (fs : List Nat) (found : List SValue × Bool) :
    Prop where
  scalar : ∀ t, c.type = .scalar t → found = ([], true)
  all : ∀ q d t, q ≠ [] → c.type.Through fs q (.scalar t) → c.walk id q = some d →
    d.key ∈ found.1
  only : c.type.HasFields fs → ∀ k ∈ found.1, ∃ q d, c.walk id q = some d ∧ d.key = k

/-- The elements found below a child, with its own key where it holds a scalar. -/
theorem Collected.child {fs : List Nat} {i : Nat} {d : Cursor} {found : List SValue × Bool}
    (hd : c.child id i = some d) (h : Collected id d fs found) :
    let keys := if found.2 then found.1 ++ [d.key] else found.1
    (∀ q e t, d.type.Through fs q (.scalar t) → d.walk id q = some e → e.key ∈ keys) ∧
      (d.type.HasFields fs → ∀ k ∈ keys, ∃ q e, c.walk id q = some e ∧ e.key = k) := by
  have hwalk : ∀ q e, d.walk id q = some e → c.walk id (i :: q) = some e := by
    intro q e he
    rw [walk, hd]
    exact he
  constructor
  · intro q e t hthrough he
    cases q with
    | nil =>
      cases he
      have htype : d.type = .scalar t := Option.some.inj hthrough.subAt
      simp [h.scalar t htype]
    | cons j q =>
      have hmem := h.all (j :: q) e t (by simp) hthrough he
      split
      · exact List.mem_append_left _ hmem
      · exact hmem
  · intro hfields k hk
    have hcases : k ∈ found.1 ∨ k = d.key := by
      split at hk
      · simpa using hk
      · exact .inl hk
    rcases hcases with hk | rfl
    · obtain ⟨q, e, he, hkey⟩ := h.only hfields k hk
      exact ⟨i :: q, e, hwalk q e he, hkey⟩
    · exact ⟨[i], d, hwalk [] d rfl, rfl⟩

theorem getRecordArrayElements_spec (hs : s.Known) {fuel : Nat} (fs : List Nat)
    (hloc : c.Located P x p) (hstored : c.StoredBelow id s)
    (hfuel : 2 * c.type.height < fuel) :
    Collected id c fs (getRecordArrayElements P.decl fuel s (s.find c.key) fs) := by
  obtain ⟨key, owner, index, t⟩ := c
  obtain ⟨fuel, rfl⟩ := Nat.exists_eq_add_one_of_ne_zero (Nat.ne_zero_of_lt hfuel)
  have hself := hstored.self
  induction t generalizing key owner index p fuel fs with
  | scalar t =>
    have hfound : getRecordArrayElements P.decl (fuel + 1) s (s.find key) fs = ([], true) := by
      rcases hself with hnone | ⟨v, hint⟩
      · rw [show s.find key = .noValue from hnone]
        rfl
      · rw [show s.find key = .integer v from hint]
        rfl
    dsimp only
    rw [hfound]
    refine ⟨fun _ _ => rfl, fun q d t' hq _ hd => ?_, by simp⟩
    obtain ⟨i, q, rfl⟩ := List.exists_cons_of_ne_nil hq
    simp [walk, child] at hd
  | array n elem ih =>
    have hobj : s.find key = .array id key n (some 0) := hself
    dsimp only
    rw [hobj]
    have hchild : ∀ i < n, (Cursor.mk key owner index (.array n elem)).child id i =
        some ⟨.array id key n (some i), owner, index * n + i, elem⟩ := by
      intro i hi
      simp [child, hi]
    have hbelow : ∀ i < n, Collected id ⟨.array id key n (some i), owner, index * n + i, elem⟩ fs
        (getRecordArrayElements P.decl fuel s
          (getValue P.decl s (.array id key n (some i)) false .amNoValue).1 fs) := by
      intro i hi
      have hd := hchild i hi
      have hl := hloc.child hd
      rw [getValue_known hs hl.known_key rfl]
      dsimp only [Ty.height] at hfuel
      obtain ⟨fuel, rfl⟩ := Nat.exists_eq_add_one_of_ne_zero (n := fuel) (by omega)
      exact ih fs _ _ _ hl (hstored.child hd) fuel (by dsimp only; omega) (hstored.child hd).self
    simp only [getRecordArrayElements]
    refine ⟨by simp, fun q d t hq hthrough hd => ?_, fun hfields k hk => ?_⟩
    · cases hthrough with
      | elem hi hthrough =>
        rw [walk, hchild _ hi] at hd
        exact List.mem_flatMap.mpr ⟨_, List.mem_range.mpr hi,
          ((hbelow _ hi).child (hchild _ hi)).1 _ d t hthrough hd⟩
    · obtain ⟨i, hi, hk⟩ := List.mem_flatMap.mp hk
      have hi := List.mem_range.mp hi
      exact ((hbelow i hi).child (hchild i hi)).2 (by cases fs <;> exact hfields) k hk
  | record n field ih =>
    have hobj : s.find key = .record owner index := hself
    dsimp only
    rw [hobj]
    cases fs with
    | nil =>
      refine ⟨by simp, fun q d t hq hthrough hd => ?_, by simp [getRecordArrayElements]⟩
      cases hthrough
    | cons f fs =>
      by_cases hf : f < n
      · have hd : (Cursor.mk key owner index (.record n field)).child id f =
            some ⟨.field f (.record owner index), .field f (.record owner index), 0, field f⟩ := by
          simp [child, hf]
        have hl := hloc.child hd
        have hheight := @Ty.height_field n f field hf
        dsimp only at hfuel
        obtain ⟨fuel, rfl⟩ := Nat.exists_eq_add_one_of_ne_zero (n := fuel) (by omega)
        obtain ⟨fuel, rfl⟩ := Nat.exists_eq_add_one_of_ne_zero (n := fuel) (by omega)
        have hbelow := ih f fs _ _ _ hl (hstored.child hd) fuel (by dsimp only; omega)
          (hstored.child hd).self
        have hcollect := hbelow.child hd
        dsimp only at hcollect
        rw [show s.find (.field f (.record owner index)) =
          (getValue P.decl s (.field f (.record owner index)) false .amNoValue).1 from by
            rw [getValue_known hs hl.known_key rfl]] at hcollect
        simp only [getRecordArrayElements]
        refine ⟨by simp, fun q e t hq hthrough he => ?_, fun hfields k hk => ?_⟩
        · cases hthrough with
          | field _ hthrough =>
            rw [walk, hd] at he
            exact hcollect.1 _ e t hthrough he
        · obtain ⟨u, hu, hfields⟩ := hfields
          simp only [Ty.elementType, Ty.fieldType, hf, if_true, Option.some.injEq] at hu
          exact hcollect.2 (hu ▸ hfields) k hk
      · refine ⟨by simp, fun q e t hq hthrough he => ?_, fun hfields k hk => ?_⟩
        · cases hthrough with
          | field hlt => exact absurd hlt hf
        · obtain ⟨u, hu, -⟩ := hfields
          simp [Ty.elementType, Ty.fieldType, hf] at hu

end State

namespace SValue

/-- The fields one below the other, from the top. -/
def under (v : SValue) (fs : List Nat) : SValue := fs.foldl (fun v f => .field f v) v

theorem under_concat (v : SValue) (fs : List Nat) (f : Nat) :
    v.under (fs ++ [f]) = .field f (v.under fs) := by
  simp [under]

theorem depth_under (v : SValue) (fs : List Nat) : (v.under fs).depth = v.depth + fs.length := by
  induction fs using List.reverseRecOn with
  | nil => rfl
  | append_singleton fs f ih =>
    rw [under_concat, depth, ih, List.length_append]
    rfl

end SValue

namespace State
open Cursor
variable {P : Program} {x : Decl} {id : Nat} {s : State} {c : Cursor} {p : List Nat}

/-- The only unknown array above a field is the one its fields lead up to. -/
theorem parseValueHierarchy_under {D : Decl → VarDecl} (hs : s.Known) (key : SValue)
    (n m : Nat) (fs : List Nat) :
    ∃ front rest,
      parseValueHierarchy D (m + 1 + fs.length) s ((SValue.array id key n none).under fs) =
        front ++ .array id key n none :: rest ∧
      front.filterMap SValue.fieldDecl? = fs.reverse ∧
      (∀ w ∈ front, w.isUnknownElement = false) ∧ ∀ w ∈ rest, w.known = true := by
  induction fs using List.reverseRecOn with
  | nil =>
    refine ⟨[], _, rfl, rfl, by simp, ?_⟩
    split
    · next w hw =>
      refine parseValueHierarchy_known hs (hs.key w ?_) m
      rw [find_findOwner hw]
      nofun
    · simp
  | append_singleton fs f ih =>
    obtain ⟨front, rest, hstack, hdecls, hfront, hrest⟩ := ih
    refine ⟨.field f ((SValue.array id key n none).under fs) :: front, rest, ?_, ?_, ?_, hrest⟩
    · rw [SValue.under_concat, List.length_append, List.length_singleton, ← Nat.add_assoc,
        parseValueHierarchy, hstack, List.cons_append]
    · simp [SValue.fieldDecl?, hdecls]
    · simpa [SValue.isUnknownElement] using hfront

theorem hierarchy_under (D : Decl → VarDecl) (id : Nat) (hs : s.Known) (key : SValue)
    (n : Nat) (fs : List Nat) :
    ∃ front rest, hierarchy D s ((SValue.array id key n none).under fs) =
        front ++ .array id key n none :: rest ∧
      front.filterMap SValue.fieldDecl? = fs.reverse ∧
      (∀ w ∈ front, w.isUnknownElement = false) ∧ ∀ w ∈ rest, w.known = true := by
  rw [hierarchy, SValue.depth_under, ← Nat.add_assoc]
  exact parseValueHierarchy_under hs key n s.tuples.entries.length fs

theorem hasUnknownArray_under {D : Decl → VarDecl} (hs : s.Known) (key : SValue) (n : Nat)
    (fs : List Nat) : hasUnknownArray D s ((SValue.array id key n none).under fs) = true := by
  obtain ⟨front, rest, hstack, -⟩ := hierarchy_under D id hs key n fs
  simp [hasUnknownArray, hstack, SValue.isUnknownElement]

theorem getAllRecordArrayElementsForAny_under {D : Decl → VarDecl} (hs : s.Known) (key : SValue)
    (n : Nat) (fs : List Nat) :
    getAllRecordArrayElementsForAny D s ((SValue.array id key n none).under fs) =
      (getRecordArrayElements D (2 * (SValue.array id key n none).typeHeight D + 3) s
        (.array id key n none) fs).1 := by
  obtain ⟨front, rest, hstack, hdecls, hfront, hrest⟩ := hierarchy_under D id hs key n fs
  have hfilter : (front ++ SValue.array id key n none :: rest).filter SValue.isUnknownElement =
      [.array id key n none] := by
    have hnone : front.filter SValue.isUnknownElement = [] := by simpa using hfront
    have hnone' : rest.filter SValue.isUnknownElement = [] := by
      simpa using fun w hw => isUnknownElement_known (hrest w hw)
    rw [List.filter_append, List.filter_cons, hnone, hnone']
    rfl
  have htake : (front ++ SValue.array id key n none :: rest).takeWhile
      (· ≠ .array id key n none) = front := by
    rw [List.takeWhile_append_of_pos]
    · simp
    · intro w hw
      have hne : w ≠ .array id key n none := by
        rintro rfl
        exact absurd (hfront _ hw) (by simp [SValue.isUnknownElement])
      simpa using hne
  unfold getAllRecordArrayElementsForAny
  simp only [hstack, hfilter, htake, hdecls, List.getLast?_singleton, List.reverse_reverse]

/-- A write to a field below an unknown index forgets the field in all elements. -/
theorem setArrayRecordNoValue_spec {n : Nat} {t : Ty} {fs : List Nat} (hs : s.Known)
    (hx : P.isReference x = false) (hloc : c.Located P x p) (hstored : c.StoredBelow id s)
    (ht : c.type = .array n t) (hfields : t.HasFields fs) :
    let s' := setArrayRecordNoValue P.decl s ((SValue.array id c.key n none).under fs)
    s.Erased s' ∧ ∀ i q d u, i < n → t.Through fs q (.scalar u) →
      c.walk id (i :: q) = some d → s'.find d.key = .noValue := by
  have hheight : (SValue.array id c.key n none).typeHeight P.decl = t.height := by
    simp [SValue.typeHeight, SValue.type, hloc.type_key, ht, Ty.directElementType]
  have hself : s.find c.key = .array id c.key n (some 0) := by
    have hself := hstored.self
    rw [Stored, ht] at hself
    rw [hself, object, ht]
  have hcollect : Collected id c fs
      (getRecordArrayElements P.decl (2 * t.height + 3) s (.array id c.key n none) fs) := by
    have hspec := getRecordArrayElements_spec hs fs hloc hstored
      (show 2 * c.type.height < 2 * t.height + 3 by rw [ht, Ty.height]; omega)
    rwa [hself] at hspec
  have hall : c.type.HasFields fs := by
    rw [ht]
    cases fs <;> exact hfields
  have : Nonempty Cursor := ⟨c⟩
  choose! cursor hcursor using fun k hk => exists_comm.mp (hcollect.only hall k hk)
  unfold setArrayRecordNoValue
  rw [getAllRecordArrayElementsForAny_under hs, hheight]
  generalize getRecordArrayElements P.decl (2 * t.height + 3) s (.array id c.key n none) fs =
    found at hcollect hcursor
  have hforget : ∀ k ∈ found.1, Forgettable P id s (k.typeHeight P.decl + 1) (cursor k) := by
    intro k hk
    obtain ⟨q, hd, hkey⟩ := hcursor k hk
    have hl := hloc.walk hd
    refine ⟨⟨x, p ++ q, hx, hl⟩, fun q' e he => hstored (q ++ q') e ?_, ?_⟩
    · rw [walk_append, hd]
      exact he
    · rw [← hl.typeHeight_key, hkey]
      exact Nat.lt_succ_self _
  have hfold := List.foldl_ext
    (fun s v => removeIntSubValues P.decl (v.typeHeight P.decl + 1) s v)
    (fun s k => removeIntSubValues P.decl (k.typeHeight P.decl + 1) s (cursor k).key) s
    (fun s k hk => by rw [(hcursor k hk).choose_spec.2])
  obtain ⟨he, hclear⟩ := foldl_removeIntSubValues (fun k => k.typeHeight P.decl + 1) cursor
    found.1 (fun k _ s hs hk => removeIntSubValues_spec _ hs hk) hs hforget
  rw [hfold]
  refine ⟨he, fun i q d u hi hthrough hd => ?_⟩
  have hmem := hcollect.all (i :: q) d u (by simp) (ht ▸ .elem hi hthrough) hd
  obtain ⟨q', hd', hkey⟩ := hcursor d.key hmem
  -- the key found is that of the same place
  have hsame : q' = i :: q := by
    have hl := (hloc.walk hd).path_key
    have hl' := (hloc.walk hd').path_key
    rw [hkey, hl] at hl'
    exact (List.append_cancel_left hl').symm
  subst hsame
  rw [hd] at hd'
  have htype : d.type = .scalar u := by
    have hsub := subAt_of_walk hd
    rw [ht, (Ty.Through.elem hi hthrough).subAt] at hsub
    exact (Option.some.inj hsub).symm
  have hcleared := hclear d.key hmem
  rw [← Option.some.inj hd'] at hcleared
  exact hcleared [] d u rfl htype

end State
end SystemcCompiler.StateValues
