import SystemcCompiler.Cfg.StateFrame

/-! A declaration creates the arrays and records of all places of its variable, and
registers their keys at its level. -/
namespace SystemcCompiler.StateValues
open RowMajor

theorem Ty.elementType_ne_array (t : Ty) (n : Nat) (u : Ty) : t.elementType ≠ .array n u := by
  induction t with
  | scalar t => nofun
  | array k t ih => exact ih
  | record k field _ => nofun

namespace Cursor
variable {id : Nat} {c d : Cursor} {q : List Nat}

/-- The element under full indices. -/
theorem exists_element (id : Nat) (h : Within c.type.sizes q) :
    ∃ d, c.walk id q = some d ∧ d.type = c.type.elementType ∧ d.owner = c.owner ∧
      d.index = numberFrom c.index c.type.sizes q := by
  obtain ⟨key, owner, index, t⟩ := c
  induction t generalizing key owner index q with
  | scalar t =>
    cases h
    exact ⟨_, rfl, rfl, rfl, rfl⟩
  | array n t ih =>
    cases h with
    | cons hi hq =>
      obtain ⟨d, hd, hrest⟩ := ih _ owner _ hq
      refine ⟨d, ?_, hrest⟩
      rw [walk, child]
      dsimp only
      rw [if_pos hi]
      exact hd
  | record n field ih =>
    cases h
    exact ⟨_, rfl, rfl, rfl, rfl⟩

/-- Fewer indices than dimensions lead to an array. -/
theorem type_of_short (hd : c.walk id q = some d) (hq : q.length < c.type.sizes.length) :
    ∃ n t, d.type = .array n t := by
  induction q generalizing c with
  | nil =>
    cases hd
    cases ht : d.type with
    | array n t => exact ⟨n, t, rfl⟩
    | _ => simp [ht, Ty.sizes] at hq
  | cons i q ih =>
    obtain ⟨e, he, hd⟩ := Option.bind_eq_some_iff.mp hd
    refine ih hd ?_
    cases ht : c.type with
    | array n t =>
      simp only [child, ht, Option.ite_none_right_eq_some, Option.some.injEq] at he
      rw [← he.2]
      simpa [ht, Ty.sizes] using hq
    | _ => simp [ht, Ty.sizes] at hq

/-- As many indices as dimensions are within the sizes. -/
theorem within_of_length (hd : c.walk id q = some d) (hq : q.length = c.type.sizes.length) :
    Within c.type.sizes q := by
  obtain ⟨key, owner, index, t⟩ := c
  induction t generalizing key owner index q with
  | array n t ih =>
    cases q with
    | nil => simp [Ty.sizes] at hq
    | cons i q =>
      obtain ⟨e, he, hd⟩ := Option.bind_eq_some_iff.mp hd
      simp only [child, Option.ite_none_right_eq_some, Option.some.injEq] at he
      obtain ⟨hi, rfl⟩ := he
      exact .cons hi (ih _ _ _ hd (by simpa [Ty.sizes] using hq))
  | _ =>
    rw [List.length_eq_zero_iff.mp hq]
    exact .nil

/-- Longer ways go through an element. -/
theorem through_element (hd : c.walk id q = some d) (hq : c.type.sizes.length ≤ q.length) :
    ∃ done rest e, q = done ++ rest ∧ Within c.type.sizes done ∧ c.walk id done = some e ∧
      e.walk id rest = some d := by
  obtain ⟨done, rest, rfl, hlen⟩ : ∃ done rest, q = done ++ rest ∧
      done.length = c.type.sizes.length :=
    ⟨q.take _, q.drop _, (List.take_append_drop _ q).symm, List.length_take_of_le hq⟩
  rw [walk_append] at hd
  obtain ⟨e, he, hd⟩ := Option.bind_eq_some_iff.mp hd
  exact ⟨done, rest, e, rfl, within_of_length he hlen, he, hd⟩

end Cursor

namespace State
variable {P : Program} {x : Decl} {id level : Nat} {A A' B B' : List Nat → Prop}
variable {s s' s'' : State}

/-- No tuple at the places. -/
def Clear (P : Program) (x : Decl) (id : Nat) (A : List Nat → Prop) (s : State) : Prop :=
  ∀ p d, A p → (Place.mk x p).cursor P id = some d → s.find d.key = .noValue

/-- The objects of the places `A` are added and the keys of the places `B` are registered. -/
structure Grown (P : Program) (x : Decl) (id level : Nat) (A B : List Nat → Prop)
    (s s' : State) : Prop where
  find : ∀ k v, v ≠ .noValue → (s'.find k = v ↔
    (∃ p d, A p ∧ (Place.mk x p).cursor P id = some d ∧ d.key = k ∧ d.object id = v) ∨
      s.find k = v)
  levels : ∀ e, e ∈ s'.levels ↔
    (∃ p d, B p ∧ (Place.mk x p).cursor P id = some d ∧ e = (level, d.key)) ∨ e ∈ s.levels
  idGen : s'.idGen = s.idGen

namespace Grown

theorem trans (h : Grown P x id level A B s s') (h' : Grown P x id level A' B' s' s'') :
    Grown P x id level (fun p => A p ∨ A' p) (fun p => B p ∨ B' p) s s'' where
  find k v hv := by
    rw [h'.find k v hv, h.find k v hv]
    constructor
    · rintro (⟨p, d, hp, hd⟩ | ⟨p, d, hp, hd⟩ | hk)
      · exact .inl ⟨p, d, .inr hp, hd⟩
      · exact .inl ⟨p, d, .inl hp, hd⟩
      · exact .inr hk
    · rintro (⟨p, d, hp | hp, hd⟩ | hk)
      · exact .inr (.inl ⟨p, d, hp, hd⟩)
      · exact .inl ⟨p, d, hp, hd⟩
      · exact .inr (.inr hk)
  levels e := by
    rw [h'.levels e, h.levels e]
    constructor
    · rintro (⟨p, d, hp, hd⟩ | ⟨p, d, hp, hd⟩ | hk)
      · exact .inl ⟨p, d, .inr hp, hd⟩
      · exact .inl ⟨p, d, .inl hp, hd⟩
      · exact .inr hk
    · rintro (⟨p, d, hp | hp, hd⟩ | hk)
      · exact .inr (.inl ⟨p, d, hp, hd⟩)
      · exact .inl ⟨p, d, hp, hd⟩
      · exact .inr (.inr hk)
  idGen := h'.idGen.trans h.idGen

/-- Only the places with an object matter for the tuples. -/
theorem congr (h : Grown P x id level A B s s')
    (hA : ∀ p d, (Place.mk x p).cursor P id = some d → d.object id ≠ .noValue → (A p ↔ A' p))
    (hB : ∀ p d, (Place.mk x p).cursor P id = some d → (B p ↔ B' p)) :
    Grown P x id level A' B' s s' where
  find k v hv := by
    rw [h.find k v hv]
    refine or_congr_left (exists_congr fun p => exists_congr fun d => ?_)
    constructor
    · rintro ⟨hp, hd, hk, hobj⟩
      exact ⟨(hA p d hd (hobj ▸ hv)).mp hp, hd, hk, hobj⟩
    · rintro ⟨hp, hd, hk, hobj⟩
      exact ⟨(hA p d hd (hobj ▸ hv)).mpr hp, hd, hk, hobj⟩
  levels e := by
    rw [h.levels e]
    refine or_congr_left (exists_congr fun p => exists_congr fun d => ?_)
    constructor
    · rintro ⟨hp, hd, he⟩
      exact ⟨(hB p d hd).mp hp, hd, he⟩
    · rintro ⟨hp, hd, he⟩
      exact ⟨(hB p d hd).mpr hp, hd, he⟩
  idGen := h.idGen

/-- The key of a place that gets no object has its old tuple. -/
theorem find_other {k : SValue} (h : Grown P x id level A B s s')
    (hk : ∀ p d, A p → (Place.mk x p).cursor P id = some d → d.key ≠ k) :
    s'.find k = s.find k := by
  by_cases hnew : s'.find k = .noValue
  · by_contra hne
    have hold : s.find k ≠ .noValue := fun hold => hne (hnew.trans hold.symm)
    exact hne ((h.find k _ hold).mpr (.inr rfl))
  · rcases (h.find k _ hnew).mp rfl with ⟨p, d, hp, hd, hkey, -⟩ | hold
    · exact absurd hkey (hk p d hp hd)
    · exact hold.symm

theorem clear {C : List Nat → Prop} (h : Grown P x id level A B s s') (hC : Clear P x id C s)
    (hdisj : ∀ p, C p → ¬A p) : Clear P x id C s' := by
  intro p d hp hd
  rw [h.find_other, hC p d hp hd]
  intro q e hq he hkey
  cases Place.eq_of_key_eq he hd hkey
  exact hdisj p hp hq

theorem known (h : Grown P x id level A B s s') (hs : s.Known) : s'.Known where
  key k hk := by
    rcases (h.find k _ hk).mp rfl with ⟨p, d, -, hd, rfl, -⟩ | hold
    · exact (Place.cursor_located hd).known_key
    · exact hs.key k fun hnone => hk (hold.symm.trans hnone)
  value k hk := by
    by_cases hnone : s'.find k = .noValue
    · rw [hnone]
      rfl
    · rcases (h.find k _ hnone).mp rfl with ⟨p, d, -, hd, rfl, hobj⟩ | hold
      · have hl := Place.cursor_located hd
        rw [← hobj, Cursor.object]
        split
        · rfl
        · simpa [SValue.known] using hl.known_key
        · exact hl.known_owner
      · rw [← hold]
        exact hs.value k hk

theorem none (P : Program) (x : Decl) (id level : Nat) (s : State) :
    Grown P x id level (fun _ => False) (fun _ => False) s s where
  find := by simp
  levels := by simp
  idGen := rfl

theorem registered {p : List Nat} {d : Cursor} (level : Nat)
    (hd : (Place.mk x p).cursor P id = some d) :
    Grown P x id level (fun _ => False) (· = p) s (s.setValueLevel d.key level) where
  find := by simp
  levels e := by
    simp only [setValueLevel, List.mem_cons]
    refine or_congr_left ⟨fun he => ⟨p, d, rfl, hd, he⟩, ?_⟩
    rintro ⟨_, d', rfl, hd', he⟩
    rw [hd] at hd'
    cases hd'
    exact he
  idGen := rfl

/-- The value of a place is put into its fresh key. -/
theorem putObject {p : List Nat} {d : Cursor} (level : Nat) (hx : P.isReference x = false)
    (hs : s.Known) (hd : (Place.mk x p).cursor P id = some d) (hfresh : s.find d.key = .noValue)
    (hobj : d.object id ≠ .noValue) (deref : Bool) :
    Grown P x id level (· = p) (fun _ => False) s
      (putValue P.decl s d.key (d.object id) deref) := by
  have hl := Place.cursor_located hd
  have hcast : castValue P.decl d.key
      (if deref then s.getDerefVariable P.decl (d.object id) else d.object id) =
        d.object id := by
    have hderef : s.getDerefVariable P.decl (d.object id) = d.object id := by
      apply getDerefVariable_self
      unfold Cursor.object
      split <;> rfl
    rw [hderef, ite_self]
    unfold Cursor.object
    split <;> rfl
  rw [putValue_known hs hl.known_key (hl.isReference_key hx), hcast]
  dsimp only
  rw [if_neg hobj]
  refine ⟨fun k v hv => ?_, by simp [put], rfl⟩
  rw [find_put]
  constructor
  · intro hk
    split at hk
    · next heq => exact .inl ⟨p, d, rfl, hd, heq.symm, hk⟩
    · exact .inr hk
  · rintro (⟨_, d', rfl, hd', rfl, hv'⟩ | hk)
    · rw [hd] at hd'
      cases hd'
      rw [if_pos rfl, hv']
    · rw [if_neg ?_, hk]
      rintro rfl
      exact hv (hk.symm.trans hfresh)

theorem putNothing {p : List Nat} {d : Cursor} (level : Nat) (hx : P.isReference x = false)
    (hs : s.Known) (hd : (Place.mk x p).cursor P id = some d) (hfresh : s.find d.key = .noValue) :
    Grown P x id level (fun _ => False) (fun _ => False) s
      (putValue P.decl s d.key .noValue false) := by
  have hl := Place.cursor_located hd
  rw [putValue_known hs hl.known_key (hl.isReference_key hx)]
  refine ⟨fun k v hv => ?_, by simp [castValue, erase], rfl⟩
  simp only [castValue, Bool.false_eq_true, if_false, if_true, find_erase]
  constructor
  · intro hk
    split at hk
    · exact absurd hk.symm hv
    · exact .inr hk
  · rintro (⟨_, _, hfalse, -⟩ | hk)
    · exact hfalse.elim
    · rw [if_neg ?_, hk]
      rintro rfl
      exact hv (hk.symm.trans hfresh)

theorem keeps {k v : SValue} (h : Grown P x id level A B s s') (hv : v ≠ .noValue)
    (hk : s.find k = v) : s'.find k = v := (h.find k v hv).mpr (.inr hk)

/-- Objects of places that do not overlap are created one after the other. -/
theorem foldl {ι : Type} {f : State → ι → State} {A B C : ι → List Nat → Prop} (l : List ι)
    (hstep : ∀ i ∈ l, ∀ s', s'.Known → s'.idGen = id →
      (∀ k v, v ≠ .noValue → s.find k = v → s'.find k = v) → Clear P x id (C i) s' →
      Grown P x id level (A i) (B i) s' (f s' i))
    (hdisj : l.Pairwise fun i j => ∀ p, C j p → ¬A i p)
    (hs : s.Known) (hid : s.idGen = id) (hclear : ∀ i ∈ l, Clear P x id (C i) s) :
    Grown P x id level (fun p => ∃ i ∈ l, A i p) (fun p => ∃ i ∈ l, B i p) s (l.foldl f s) := by
  induction l generalizing s with
  | nil =>
    simp only [List.foldl_nil, List.not_mem_nil, false_and, exists_false]
    exact none P x id level s
  | cons i l ih =>
    simp only [List.mem_cons, forall_eq_or_imp] at hstep hclear
    obtain ⟨hhead, htail⟩ := List.pairwise_cons.mp hdisj
    have hfirst := hstep.1 s hs hid (fun _ _ _ hk => hk) hclear.1
    have hrest := ih
      (fun j hj s' hs' hid' hkeep => hstep.2 j hj s' hs' hid'
        fun k v hv hk => hkeep k v hv (hfirst.keeps hv hk))
      htail (hfirst.known hs) (hfirst.idGen.trans hid)
      fun j hj => hfirst.clear (hclear.2 j hj) (hhead j hj)
    simpa only [List.foldl_cons, List.mem_cons, exists_eq_or_imp] using hfirst.trans hrest

end Grown
end State

namespace Place
variable {P : Program} {x : Decl} {id : Nat} {p q : List Nat} {c d : Cursor}

theorem cursor_append (hc : (Place.mk x p).cursor P id = some c) (q : List Nat) :
    (Place.mk x (p ++ q)).cursor P id = c.walk id q := by
  change (Cursor.start (.var x) (P.type x)).walk id p = some c at hc
  change (Cursor.start (.var x) (P.type x)).walk id (p ++ q) = c.walk id q
  rw [Cursor.walk_append, hc]
  rfl

theorem cursor_concat {i : Nat} (hc : (Place.mk x p).cursor P id = some c)
    (hd : c.child id i = some d) : (Place.mk x (p ++ [i])).cursor P id = some d := by
  rw [cursor_append hc, Cursor.walk, hd]
  rfl

end Place

namespace State
variable {P : Program} {x : Decl} {id level : Nat} {s : State} {p : List Nat} {c : Cursor}

theorem createArrayInState_value (P : Program) (level : Nat) (t : Ty) (key : SValue)
    (hid : s.idGen = id) :
    (createArrayInState P level t key s).1 =
      match t with
      | .array n _ => .array id key n (some 0)
      | _ => .noValue := by
  subst hid
  cases t <;> rfl

theorem not_mem_of_index_ne {p q r : List Nat} {i j : Nat} (h : i ≠ j) :
    p ++ i :: q ≠ p ++ j :: r := by
  intro heq
  have hcons := List.append_cancel_left heq
  exact h (List.cons.inj hcons).1

/-- The ways below an element, and the element itself. -/
theorem exists_path_or {p r : List Nat} {i : Nat} (S : List Nat → Prop) :
    ((∃ q, q ≠ [] ∧ S q ∧ r = p ++ [i] ++ q) ∨ r = p ++ [i] ∧ S []) ↔
      ∃ q, S q ∧ r = p ++ i :: q := by
  constructor
  · rintro (⟨q, -, hq, rfl⟩ | ⟨rfl, hnil⟩)
    · exact ⟨q, hq, by simp⟩
    · exact ⟨[], hnil, rfl⟩
  · rintro ⟨q, hq, rfl⟩
    by_cases hne : q = []
    · subst hne
      exact .inr ⟨rfl, hq⟩
    · exact .inl ⟨q, hne, hq, by simp⟩

/-- An element gets its array, and is registered. -/
theorem putElement_grown {v : SValue} (level : Nat) (hx : P.isReference x = false)
    (hs : s.Known) (hc : (Place.mk x p).cursor P id = some c) (hfresh : s.find c.key = .noValue)
    (hv : v = match c.type with
      | .array n _ => .array id c.key n (some 0)
      | _ => .noValue) :
    Grown P x id level (fun r => r = p ∧ 0 < c.type.sizes.length) (· = p) s
      ((putValue P.decl s c.key v false).setValueLevel c.key level) := by
  cases ht : c.type with
  | array n t =>
    have hobj : v = c.object id := by rw [hv, Cursor.object, ht]
    have hput := Grown.putObject level hx hs hc hfresh
      (by rw [Cursor.object, ht]; simp) false
    rw [hobj]
    refine (hput.trans (Grown.registered level hc)).congr ?_ ?_ <;> simp [Ty.sizes]
  | _ =>
    have hput := Grown.putNothing level hx hs hc hfresh
    rw [hv, ht]
    refine (hput.trans (Grown.registered level hc)).congr ?_ ?_ <;> simp [Ty.sizes]

/-- All arrays inside the array are created. -/
theorem createArrayInState_grown (level : Nat) (hx : P.isReference x = false)
    (hc : (Place.mk x p).cursor P id = some c) (hs : s.Known) (hid : s.idGen = id)
    (hclear : Clear P x id (fun r => ∃ q, q ≠ [] ∧ r = p ++ q) s) :
    Grown P x id level
      (fun r => ∃ q, q ≠ [] ∧ q.length < c.type.sizes.length ∧ r = p ++ q)
      (fun r => ∃ q, q ≠ [] ∧ q.length ≤ c.type.sizes.length ∧ r = p ++ q) s
      (createArrayInState P level c.type c.key s).2 := by
  obtain ⟨key, owner, index, t⟩ := c
  induction t generalizing key owner index p s with
  | scalar t =>
    refine (Grown.none P x id level s).congr ?_ ?_ <;> simp [Ty.sizes]
  | record n field ih =>
    refine (Grown.none P x id level s).congr ?_ ?_ <;> simp [Ty.sizes]
  | array n elem ih =>
    have hchild : ∀ i < n, (Cursor.mk key owner index (.array n elem)).child id i =
        some ⟨.array id key n (some i), owner, index * n + i, elem⟩ := by
      intro i hi
      simp [Cursor.child, hi]
    have hbound : ∀ i q d, (Place.mk x (p ++ i :: q)).cursor P id = some d → i < n := by
      intro i q d hd
      rw [Place.cursor_append hc] at hd
      obtain ⟨e, he, -⟩ := Option.bind_eq_some_iff.mp hd
      simp only [Cursor.child, Option.ite_none_right_eq_some] at he
      exact he.1
    have hfold : Grown P x id level
        (fun r => ∃ i ∈ List.range n, ∃ q, q.length < elem.sizes.length ∧ r = p ++ i :: q)
        (fun r => ∃ i ∈ List.range n, ∃ q, q.length ≤ elem.sizes.length ∧ r = p ++ i :: q) s
        (createArrayInState P level (.array n elem) key s).2 := by
      rw [createArrayInState, hid]
      refine Grown.foldl (C := fun i r => ∃ q, r = p ++ i :: q) _
        (fun i hi s hs hid _ hclear => ?_) ?_ hs hid ?_
      · have hd := Place.cursor_concat hc (hchild i (List.mem_range.mp hi))
        have hsub := ih hs hid (by
          rintro _ e ⟨q, -, rfl⟩ he
          exact hclear _ e ⟨q, by simp⟩ he) _ _ _ hd
        have hfresh : Clear P x id (· = p ++ [i])
            (createArrayInState P level elem (.array id key n (some i)) s).2 := by
          refine hsub.clear (fun r e hr he => hclear r e ⟨[], hr⟩ he) ?_
          rintro _ rfl ⟨q, hq, -, heq⟩
          exact hq (List.append_cancel_left (heq.symm.trans (List.append_nil _).symm))
        have hput := putElement_grown level hx (hsub.known hs) hd (hfresh _ _ rfl hd)
          (createArrayInState_value P level elem _ hid)
        refine (hsub.trans hput).congr (fun r e _ _ => ?_) (fun r e _ => ?_)
        · exact exists_path_or fun q => q.length < elem.sizes.length
        · simpa using exists_path_or fun q => q.length ≤ elem.sizes.length
      · refine List.pairwise_lt_range.imp fun {i j} hij r => ?_
        rintro ⟨q, rfl⟩ ⟨q', -, heq⟩
        exact not_mem_of_index_ne (Nat.ne_of_gt hij) heq
      · rintro i - r d ⟨q, rfl⟩ hd
        exact hclear _ d ⟨i :: q, by simp, rfl⟩ hd
    refine hfold.congr (fun r d hd _ => ?_) (fun r d hd => ?_)
    · constructor
      · rintro ⟨i, -, q, hq, rfl⟩
        exact ⟨i :: q, by simp, by simpa [Ty.sizes] using hq, rfl⟩
      · rintro ⟨q, hne, hq, rfl⟩
        obtain ⟨i, q, rfl⟩ := List.exists_cons_of_ne_nil hne
        exact ⟨i, List.mem_range.mpr (hbound i q d hd), q, by simpa [Ty.sizes] using hq, rfl⟩
    · constructor
      · rintro ⟨i, -, q, hq, rfl⟩
        exact ⟨i :: q, by simp, by simpa [Ty.sizes] using hq, rfl⟩
      · rintro ⟨q, hne, hq, rfl⟩
        obtain ⟨i, q, rfl⟩ := List.exists_cons_of_ne_nil hne
        exact ⟨i, List.mem_range.mpr (hbound i q d hd), q, by simpa [Ty.sizes] using hq, rfl⟩

theorem getArrElmByIndx_key {q : List Nat} {d : Cursor} (hs : s.Known)
    (hloc : c.Located P x p) (hwithin : Within c.type.sizes q) (hq : q ≠ [])
    (harrays : ∀ q d, q.length < c.type.sizes.length → c.walk id q = some d →
      s.find d.key = d.object id)
    (hd : c.walk id q = some d) : getArrElmByIndx P s (c.object id) q = d.key := by
  induction q generalizing c p with
  | nil => exact absurd rfl hq
  | cons i q ih =>
    obtain ⟨key, owner, index, t⟩ := c
    cases t with
    | array n elem =>
      obtain ⟨hi, hrest⟩ := List.forall₂_cons.mp hwithin
      have hchild : (Cursor.mk key owner index (.array n elem)).child id i =
          some ⟨.array id key n (some i), owner, index * n + i, elem⟩ := by
        simp [Cursor.child, hi]
      rw [Cursor.walk, hchild] at hd
      cases q with
      | nil =>
        cases hd
        rfl
      | cons j q =>
        have hl := hloc.child hchild
        have hobj := harrays [i] ⟨.array id key n (some i), owner, index * n + i, elem⟩
          (by have := hrest.length_eq; simp [Ty.sizes] at this ⊢; omega)
          (by rw [Cursor.walk, hchild]; rfl)
        change getArrElmByIndx P s
          (getValue P.decl s (.array id key n (some i)) true .amNoValue).1 (j :: q) = d.key
        rw [getValue_known hs hl.known_key rfl]
        dsimp only at hobj ⊢
        rw [hobj]
        refine ih hl hrest (by simp) (fun q' e hlen he => ?_) hd
        refine harrays (i :: q') e (by simpa [Ty.sizes] using hlen) ?_
        rw [Cursor.walk, hchild]
        exact he
    | _ => simp [Within, Ty.sizes] at hwithin

/-- Declaring a variable or field of the type creates all objects below it. -/
def DeclGrown (P : Program) (x : Decl) (id level : Nat) (t : Ty) : Prop :=
  ∀ p key s, (Place.mk x p).cursor P id = some (Cursor.start key t) → s.Known → s.idGen = id →
    Clear P x id (fun r => ∃ q, r = p ++ q) s →
    Grown P x id level (fun r => ∃ q, r = p ++ q) (fun r => ∃ q, r = p ++ q) s
      (parseValueDecl P level t key s)

/-- The fields of a record are declared one after the other. -/
theorem foldl_fields_grown {n : Nat} {fields : Nat → Ty}
    (hfields : ∀ f, DeclGrown P x id level (fields f))
    (hc : (Place.mk x p).cursor P id = some c) (ht : c.type = .record n fields)
    (hs : s.Known) (hid : s.idGen = id)
    (hclear : Clear P x id (fun r => ∃ q, q ≠ [] ∧ r = p ++ q) s) :
    Grown P x id level (fun r => ∃ q, q ≠ [] ∧ r = p ++ q) (fun r => ∃ q, q ≠ [] ∧ r = p ++ q) s
      ((List.range n).foldl (fun s f =>
        parseValueDecl P level (fields f) (.field f (.record c.owner c.index)) s) s) := by
  have hbound : ∀ f q d, (Place.mk x (p ++ f :: q)).cursor P id = some d → f < n := by
    intro f q d hd
    rw [Place.cursor_append hc] at hd
    obtain ⟨e, he, -⟩ := Option.bind_eq_some_iff.mp hd
    simp only [Cursor.child, ht, Option.ite_none_right_eq_some] at he
    exact he.1
  have hfold := Grown.foldl (P := P) (x := x) (s := s)
    (A := fun f r => ∃ q, r = p ++ f :: q) (B := fun f r => ∃ q, r = p ++ f :: q)
    (C := fun f r => ∃ q, r = p ++ f :: q) (List.range n)
    (f := fun s f => parseValueDecl P level (fields f) (.field f (.record c.owner c.index)) s)
    (fun f hf s hs hid _ hclear => by
      have hd : (Place.mk x (p ++ [f])).cursor P id =
          some (Cursor.start (.field f (.record c.owner c.index)) (fields f)) :=
        Place.cursor_concat hc (by simp [Cursor.child, ht, List.mem_range.mp hf, Cursor.start])
      have hdecl := hfields f (p ++ [f]) _ s hd hs hid (by simpa using hclear)
      simpa using hdecl)
    (by
      refine List.pairwise_lt_range.imp fun {i j} hij r => ?_
      rintro ⟨q, rfl⟩ ⟨q', heq⟩
      exact not_mem_of_index_ne (Nat.ne_of_gt hij) heq)
    hs hid
    (by
      rintro f - r d ⟨q, rfl⟩ hd
      exact hclear _ d ⟨f :: q, by simp, rfl⟩ hd)
  have hpaths : ∀ r d, (Place.mk x r).cursor P id = some d →
      ((∃ f ∈ List.range n, ∃ q, r = p ++ f :: q) ↔ ∃ q, q ≠ [] ∧ r = p ++ q) := by
    intro r d hd
    constructor
    · rintro ⟨f, -, q, rfl⟩
      exact ⟨f :: q, by simp, rfl⟩
    · rintro ⟨q, hne, rfl⟩
      obtain ⟨f, q, rfl⟩ := List.exists_cons_of_ne_nil hne
      exact ⟨f, List.mem_range.mpr (hbound f q d hd), q, rfl⟩
  exact hfold.congr (fun r d hd _ => hpaths r d hd) hpaths

theorem declGrown_record {n : Nat} {fields : Nat → Ty} (hx : P.isReference x = false)
    (hfields : ∀ f, DeclGrown P x id level (fields f)) :
    DeclGrown P x id level (.record n fields) := by
  intro p key s hc hs hid hclear
  have hlevel := Grown.registered (s := s) level hc
  have hput := Grown.putObject level hx (hlevel.known hs) hc
    (hclear p _ ⟨[], by simp⟩ hc) nofun true
  have hsofar := hlevel.trans hput
  have hrest := foldl_fields_grown hfields hc rfl (hsofar.known hs) (hsofar.idGen.trans hid)
    (hsofar.clear (fun r d hr hd => hclear r d (hr.imp fun _ hq => hq.2) hd) (by
      rintro r ⟨q, hq, rfl⟩ (hfalse | heq)
      · exact hfalse
      · exact hq (List.append_right_eq_self.mp heq)))
  have hpaths : ∀ r, ((False ∨ r = p) ∨ ∃ q, q ≠ [] ∧ r = p ++ q) ↔ ∃ q, r = p ++ q := by
    intro r
    constructor
    · rintro ((hfalse | rfl) | ⟨q, -, rfl⟩)
      · exact hfalse.elim
      · exact ⟨[], by simp⟩
      · exact ⟨q, rfl⟩
    · rintro ⟨q, rfl⟩
      by_cases hq : q = []
      · exact .inl (.inr (by simp [hq]))
      · exact .inr ⟨q, hq, rfl⟩
  exact (hsofar.trans hrest).congr (fun r _ _ _ => hpaths r) fun r _ _ => by
    simpa [or_comm] using hpaths r

/-- The fields of an element of an array of records are created. -/
def RecGrown (P : Program) (x : Decl) (id level : Nat) (t : Ty) : Prop :=
  ∀ p c s n fields, (Place.mk x p).cursor P id = some c → c.type = .record n fields →
    t.elementType = .record n fields → s.Known → s.idGen = id →
    Clear P x id (fun r => ∃ q, q ≠ [] ∧ r = p ++ q) s →
    Grown P x id level (fun r => ∃ q, q ≠ [] ∧ r = p ++ q) (fun r => ∃ q, q ≠ [] ∧ r = p ++ q) s
      (createRecValue P level t (.record c.owner c.index) s)

/-- One element of an array of records: its fields, then the record itself. -/
theorem recordElement_grown {n m i : Nat} {elem : Ty} {fields : Nat → Ty} {key : SValue}
    (hx : P.isReference x = false) (hrec : RecGrown P x id level elem)
    (hc : (Place.mk x p).cursor P id = some (Cursor.start key (.array n elem)))
    (helem : elem.elementType = .record m fields) (hi : i < n * elem.sizes.prod)
    (harrays : ∀ q d, q.length < (Ty.array n elem).sizes.length →
      (Cursor.start key (.array n elem)).walk id q = some d → s.find d.key = d.object id)
    (hs : s.Known) (hid : s.idGen = id)
    (hclear : Clear P x id (fun r => ∃ q, r = p ++ (indices (n :: elem.sizes) i ++ q)) s) :
    Grown P x id level (fun r => ∃ q, r = p ++ (indices (n :: elem.sizes) i ++ q))
      (fun r => ∃ q, q ≠ [] ∧ r = p ++ (indices (n :: elem.sizes) i ++ q)) s
      (setArrayElement P (createRecValue P level elem (.record key i) s) (.array n elem) i
        ((Cursor.start key (.array n elem)).object id) (.record key i)) := by
  have hwithin : Within (n :: elem.sizes) (indices (n :: elem.sizes) i) :=
    indices_within (Nat.zero_lt_of_lt hi) i
  obtain ⟨e, hwalk, htype, howner, hindex⟩ :=
    Cursor.exists_element (c := Cursor.start key (.array n elem)) id hwithin
  have hindex : e.index = i := by
    rw [hindex]
    exact @number_indices (n :: elem.sizes) i hi
  have htype : e.type = .record m fields := htype.trans helem
  have he : (Place.mk x (p ++ indices (n :: elem.sizes) i)).cursor P id = some e := by
    rw [Place.cursor_append hc]
    exact hwalk
  have hobj : e.object id = .record key i := by
    rw [Cursor.object, htype, howner, hindex]
    rfl
  have hfields := hrec _ e s m fields he htype helem hs hid (by
    rintro _ d ⟨q, -, rfl⟩ hd
    exact hclear _ d ⟨q, by simp⟩ hd)
  rw [howner, hindex] at hfields
  change Grown P x id level _ _ s (createRecValue P level elem (.record key i) s) at hfields
  have hfresh := hfields.clear (C := (· = p ++ indices (n :: elem.sizes) i))
    (fun r d hr hd => hclear r d ⟨[], by simpa using hr⟩ hd) (by
      rintro _ rfl ⟨q, hq, heq⟩
      exact hq (List.self_eq_append_right.mp heq))
  have hkey : getArrElmByIndx P (createRecValue P level elem (.record key i) s)
      ((Cursor.start key (.array n elem)).object id) (indices (n :: elem.sizes) i) = e.key := by
    refine getArrElmByIndx_key (hfields.known hs) (Place.cursor_located hc) hwithin (by simp)
      (fun q d hq hd => ?_) hwalk
    have hstored := harrays q d hq hd
    obtain ⟨k, t, ht⟩ := Cursor.type_of_short hd hq
    exact hfields.keeps (by rw [Cursor.object, ht]; simp) hstored
  have hput := Grown.putObject level hx (hfields.known hs) he (hfresh _ _ rfl he)
    (by rw [hobj]; simp) true
  have hset : setArrayElement P (createRecValue P level elem (.record key i) s) (.array n elem) i
      ((Cursor.start key (.array n elem)).object id) (.record key i) =
        putValue P.decl (createRecValue P level elem (.record key i) s) e.key (e.object id)
          true := by
    rw [setArrayElement, Ty.sizes, hkey, hobj]
    rfl
  rw [hset]
  refine (hfields.trans hput).congr (fun r d _ _ => ?_) (fun r d _ => ?_)
  · constructor
    · rintro (⟨q, -, rfl⟩ | rfl)
      · exact ⟨q, by simp⟩
      · exact ⟨[], by simp⟩
    · rintro ⟨q, rfl⟩
      by_cases hq : q = []
      · exact .inr (by simp [hq])
      · exact .inl ⟨q, hq, by simp⟩
  · simp

/-- The ways below an array that are no longer than its dimensions, and the ways through its
elements, are all there are. -/
theorem array_paths {r : List Nat} {d : Cursor} {sizes : List Nat}
    (hc : (Place.mk x p).cursor P id = some c) (hsizes : c.type.sizes = sizes)
    (hd : (Place.mk x r).cursor P id = some d) :
    (∃ q, r = p ++ q) ↔ (∃ q, q.length < sizes.length ∧ r = p ++ q) ∨
      ∃ i < sizes.prod, ∃ q, r = p ++ (indices sizes i ++ q) := by
  constructor
  · rintro ⟨q, rfl⟩
    rw [Place.cursor_append hc] at hd
    rcases Nat.lt_or_ge q.length sizes.length with hq | hq
    · exact .inl ⟨q, hq, rfl⟩
    · obtain ⟨done, rest, e, rfl, hwithin, -, -⟩ := Cursor.through_element hd (hsizes ▸ hq)
      rw [hsizes] at hwithin
      exact .inr ⟨number sizes done, number_lt hwithin, rest, by rw [indices_number hwithin]⟩
  · rintro (⟨q, -, rfl⟩ | ⟨i, -, q, rfl⟩)
    · exact ⟨q, rfl⟩
    · exact ⟨_, rfl⟩

/-- The array of a variable with all arrays inside it, before the elements are filled. -/
theorem arrays_grown {n : Nat} {elem : Ty} {key : SValue} (level : Nat)
    (hx : P.isReference x = false)
    (hc : (Place.mk x p).cursor P id = some (Cursor.start key (.array n elem)))
    (hs : s.Known) (hid : s.idGen = id) (hclear : Clear P x id (fun r => ∃ q, r = p ++ q) s) :
    Grown P x id level (fun r => ∃ q, q.length < (Ty.array n elem).sizes.length ∧ r = p ++ q)
      (fun r => ∃ q, q.length ≤ (Ty.array n elem).sizes.length ∧ r = p ++ q) s
      (putValue P.decl
        (createArrayInState P level (.array n elem) key (s.setValueLevel key level)).2 key
        ((Cursor.start key (.array n elem)).object id) false) := by
  have hlevel := Grown.registered (s := s) level hc
  have harr := createArrayInState_grown level hx hc (hlevel.known hs)
    (hlevel.idGen.trans hid)
    (hlevel.clear (fun r d hr hd => hclear r d (hr.imp fun _ hq => hq.2) hd) (by simp))
  have hfresh := (hlevel.trans harr).clear (C := (· = p))
    (fun r d hr hd => hclear r d ⟨[], by simpa using hr⟩ hd) (by
      rintro _ rfl (hfalse | ⟨q, hq, -, heq⟩)
      · exact hfalse
      · exact hq (List.self_eq_append_right.mp heq))
  have hput := Grown.putObject level hx ((hlevel.trans harr).known hs) hc (hfresh _ _ rfl hc)
    nofun false
  refine ((hlevel.trans harr).trans hput).congr (fun r d _ _ => ?_) (fun r d _ => ?_)
  · constructor
    · rintro ((hfalse | ⟨q, -, hq, rfl⟩) | rfl)
      · exact hfalse.elim
      · exact ⟨q, hq, rfl⟩
      · exact ⟨[], by simp [Ty.sizes], by simp⟩
    · rintro ⟨q, hq, rfl⟩
      by_cases hnil : q = []
      · exact .inr (by simp [hnil])
      · exact .inl (.inr ⟨q, hnil, hq, rfl⟩)
  · constructor
    · rintro ((rfl | ⟨q, -, hq, rfl⟩) | hfalse)
      · exact ⟨[], by simp, by simp⟩
      · exact ⟨q, hq, rfl⟩
      · exact hfalse.elim
    · rintro ⟨q, hq, rfl⟩
      by_cases hnil : q = []
      · exact .inl (.inl (by simp [hnil]))
      · exact .inl (.inr ⟨q, hnil, hq, rfl⟩)

theorem declGrown_array {n : Nat} {elem : Ty} (hx : P.isReference x = false)
    (hrec : RecGrown P x id level elem) : DeclGrown P x id level (.array n elem) := by
  intro p key s hc hs hid hclear
  have hbase := arrays_grown level hx hc hs hid hclear
  have hvalue : (createArrayInState P level (.array n elem) key (s.setValueLevel key level)).1 =
      (Cursor.start key (.array n elem)).object id :=
    createArrayInState_value P level (.array n elem) key hid
  rw [parseValueDecl, hvalue]
  cases helem : elem.elementType with
  | array k t => exact absurd helem (Ty.elementType_ne_array elem k t)
  | scalar t =>
    -- no object below the arrays
    have hlast : ∀ i < (Ty.array n elem).sizes.prod, ∀ q d,
        (Place.mk x (p ++ (indices (Ty.array n elem).sizes i ++ q))).cursor P id = some d →
          q = [] ∧ d.type = .scalar t := by
      intro i hi q d hd
      obtain ⟨e, hwalk, htype, -, -⟩ :=
        Cursor.exists_element (c := Cursor.start key (.array n elem)) id
          (indices_within (Nat.zero_lt_of_lt hi) i)
      have htype : e.type = .scalar t := htype.trans helem
      rw [Place.cursor_append hc, Cursor.walk_append] at hd
      obtain ⟨e', he', hd⟩ := Option.bind_eq_some_iff.mp hd
      cases hwalk.symm.trans he'
      cases q with
      | nil =>
        cases hd
        exact ⟨rfl, htype⟩
      | cons j q => simp [Cursor.walk, Cursor.child, htype] at hd
    rw [if_neg (by simp [Ty.isRecord] : ¬(Ty.scalar t).isRecord = true)]
    refine hbase.congr (fun r d hd hobj => ?_) (fun r d hd => ?_)
    · refine ⟨fun hr => hr.imp fun q hq => hq.2, fun hr => ?_⟩
      rcases (array_paths hc rfl hd).mp hr with hshort | ⟨i, hi, q, rfl⟩
      · exact hshort
      · refine absurd ?_ hobj
        rw [Cursor.object, (hlast i hi q d hd).2]
    · refine ⟨fun hr => hr.imp fun q hq => hq.2, fun hr => ?_⟩
      rcases (array_paths hc rfl hd).mp hr with ⟨q, hq, hr⟩ | ⟨i, hi, q, rfl⟩
      · exact ⟨q, hq.le, hr⟩
      · obtain ⟨rfl, -⟩ := hlast i hi q d hd
        exact ⟨indices (Ty.array n elem).sizes i, by simp, by rw [List.append_nil]; rfl⟩
  | record m fields =>
    rw [if_pos (show (Ty.record m fields).isRecord = true from rfl)]
    have hfold := Grown.foldl
      (A := fun i r => ∃ q, r = p ++ (indices (n :: elem.sizes) i ++ q))
      (B := fun i r => ∃ q, q ≠ [] ∧ r = p ++ (indices (n :: elem.sizes) i ++ q))
      (C := fun i r => ∃ q, r = p ++ (indices (n :: elem.sizes) i ++ q))
      (f := fun s i => setArrayElement P (createRecValue P level elem (.record key i) s)
        (.array n elem) i ((Cursor.start key (.array n elem)).object id) (.record key i))
      (List.range (n * elem.sizes.prod))
      (fun i hi s' hs' hid' hkeep hclear' =>
        recordElement_grown hx hrec hc helem (List.mem_range.mp hi) (fun q d hq hd => by
          obtain ⟨k, t, ht⟩ := Cursor.type_of_short hd hq
          have hne : d.object id ≠ .noValue := by rw [Cursor.object, ht]; simp
          have hcursor : (Place.mk x (p ++ q)).cursor P id = some d := by
            rw [Place.cursor_append hc, hd]
          exact hkeep _ _ hne ((hbase.find _ _ hne).mpr
            (.inl ⟨_, d, ⟨q, hq, rfl⟩, hcursor, rfl, rfl⟩))) hs' hid' hclear')
      (by
        refine List.pairwise_lt_range.imp_of_mem fun {i j} hi hj hij r => ?_
        rintro ⟨q, rfl⟩ ⟨q', heq⟩
        have hsame := (List.append_inj (List.append_cancel_left heq) (by simp)).1
        exact absurd (@indices_inj (n :: elem.sizes) i j (List.mem_range.mp hj)
          (List.mem_range.mp hi) hsame) (Nat.ne_of_gt hij))
      (hbase.known hs) (hbase.idGen.trans hid)
      (fun i hi => hbase.clear
        (by
          rintro _ d ⟨q, rfl⟩ hd
          exact hclear _ d ⟨_, rfl⟩ hd)
        (by
          rintro _ ⟨q, rfl⟩ ⟨q', hq', heq⟩
          have hlen := congrArg List.length (List.append_cancel_left heq)
          simp [Ty.sizes] at hlen hq'
          omega))
    refine (hbase.trans hfold).congr (fun r d hd _ => ?_) (fun r d hd => ?_)
    · rw [array_paths hc rfl hd]
      simp [Cursor.start, Ty.sizes]
    · constructor
      · rintro (⟨q, -, rfl⟩ | ⟨i, -, q, -, rfl⟩)
        · exact ⟨q, rfl⟩
        · exact ⟨_, rfl⟩
      · intro hr
        rcases (array_paths hc rfl hd).mp hr with ⟨q, hq, rfl⟩ | ⟨i, hi, q, rfl⟩
        · exact .inl ⟨q, hq.le, rfl⟩
        · by_cases hq : q = []
          · exact .inl ⟨_, (by simp [hq, Cursor.start]), rfl⟩
          · exact .inr ⟨i, List.mem_range.mpr hi, q, hq, rfl⟩

theorem declGrown_scalar (t : Scalar) : DeclGrown P x id level (.scalar t) := by
  intro p key s hc hs hid hclear
  have hpath : ∀ r d, (Place.mk x r).cursor P id = some d → (∃ q, r = p ++ q) →
      r = p ∧ d.type = .scalar t := by
    rintro _ d hd ⟨q, rfl⟩
    rw [Place.cursor_append hc] at hd
    cases q with
    | nil =>
      cases hd
      exact ⟨by simp, rfl⟩
    | cons i q => simp [Cursor.walk, Cursor.child, Cursor.start] at hd
  refine (Grown.registered level hc).congr (fun r d hd hobj => ?_) (fun r d hd => ?_)
  · refine ⟨False.elim, fun hr => hobj ?_⟩
    rw [Cursor.object, (hpath r d hd hr).2]
  · exact ⟨fun hr => ⟨[], by simpa using hr⟩, fun hr => (hpath r d hd hr).1⟩

theorem declGrown (hx : P.isReference x = false) (t : Ty) :
    DeclGrown P x id level t ∧ RecGrown P x id level t := by
  induction t with
  | scalar t =>
    refine ⟨declGrown_scalar t, ?_⟩
    intro p c s n fields _ _ helem
    cases helem
  | array n t ih =>
    refine ⟨declGrown_array hx ih.2, ?_⟩
    intro p c s m fields hc ht helem hs hid hclear
    exact ih.2 p c s m fields hc ht helem hs hid hclear
  | record n fields ih =>
    refine ⟨declGrown_record hx fun f => (ih f).1, ?_⟩
    intro p c s m fields' hc ht helem hs hid hclear
    cases helem
    exact foldl_fields_grown (fun f => (ih f).1) hc ht hs hid hclear

/-- A declaration creates the objects of all places of the variable. -/
theorem parseValueDecl_grown (level : Nat) (hx : P.isReference x = false) (hs : s.Known)
    (hclear : ∀ k, k.root = some x → s.find k = .noValue) :
    Grown P x s.idGen level (fun _ => True) (fun _ => True) s
      (parseValueDecl P level (P.type x) (.var x) s) := by
  have hdecl : DeclGrown P x s.idGen level (P.type x) := (declGrown hx (P.type x)).1
  have hgrown := hdecl [] (.var x) s rfl hs rfl fun r d _ hd =>
    hclear d.key (Place.cursor_located hd).root_key
  simpa using hgrown

end State
end SystemcCompiler.StateValues
