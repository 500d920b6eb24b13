import SystemcCompiler.Cfg.StateDeclare

/-! When the values of `ScState` describe a C++ store: an integer is what its place holds, an
array or record is in its tuple, a reference is bound to the place it refers to or, below an
unknown index, to one that may be it. Writes keep that, reads follow from it. -/
namespace SystemcCompiler.StateValues
open RowMajor

namespace Cursor
variable {id : Nat} {s s' : State} {m : Int} {c : Cursor}

/-- The tuple of a place whose scalar holds `m`. -/
def Holds (id : Nat) (s : State) (m : Int) (c : Cursor) : Prop :=
  match c.type with
  | .scalar _ => s.find c.key = .noValue ∨ s.find c.key = .integer m
  | _ => s.find c.key = c.object id

theorem Holds.stored (h : c.Holds id s m) : c.Stored id s := by
  unfold Holds at h
  unfold Stored
  split
  · next t ht =>
    rw [ht] at h
    exact h.imp_right fun hint => ⟨m, hint⟩
  · next hne =>
    cases ht : c.type with
    | scalar t => exact absurd ht (hne t)
    | _ => simpa [ht] using h

/-- A tuple that is the same, or an integer that is gone. -/
theorem Holds.of_find (h : c.Holds id s m)
    (hfind : s'.find c.key = s.find c.key ∨
      (∃ v, s.find c.key = .integer v) ∧ s'.find c.key = .noValue) : c.Holds id s' m := by
  unfold Holds at h ⊢
  rcases hfind with hsame | ⟨⟨v, hint⟩, hgone⟩
  · rwa [hsame]
  · split
    · exact .inl hgone
    · next hne =>
      have hobj : s.find c.key = c.object id := by
        cases ht : c.type with
        | scalar t => exact absurd ht (hne t)
        | _ => simpa [ht] using h
      rw [hobj, object] at hint
      split at hint <;> simp at hint

end Cursor

/-- An lvalue below an unknown index may be any of these places. -/
def Covers (P : Program) (id : Nat) (v : SValue) (p : Place) : Prop :=
  ∃ base c n t fs i q u, (Place.mk p.root base).cursor P id = some c ∧ c.type = .array n t ∧
    v = (SValue.array id c.key n none).under fs ∧ i < n ∧ t.Through fs q u ∧
    p.path = base ++ i :: q

namespace Covers
variable {P : Program} {id : Nat} {v : SValue} {p : Place}

/-- The way down ends at the type of the place. -/
theorem through {w : Ty} (h : Covers P id v p) (hw : p.type P = some w) :
    ∃ base c n t fs i q, (Place.mk p.root base).cursor P id = some c ∧ c.type = .array n t ∧
      v = (SValue.array id c.key n none).under fs ∧ i < n ∧ t.Through fs q w ∧
      p.path = base ++ i :: q := by
  obtain ⟨base, c, n, t, fs, i, q, u, hc, hct, hv, hi, hthrough, hpath⟩ := h
  have hsub : (P.type p.root).subAt (base ++ i :: q) = some w := hpath ▸ hw
  obtain ⟨d, hd, hdt⟩ := Place.exists_cursor (p := ⟨p.root, base ++ i :: q⟩) id hsub
  rw [Place.cursor_append hc] at hd
  have hwalk := Cursor.subAt_of_walk hd
  rw [hct, (Ty.Through.elem hi hthrough).subAt, hdt] at hwalk
  cases hwalk
  exact ⟨base, c, n, t, fs, i, q, hc, hct, hv, hi, hthrough, hpath⟩

theorem index {n j : Nat} {elem : Ty} (h : Covers P id v p)
    (hp : p.type P = some (.array n elem)) (hj : j < n) : Covers P id v (p.down j) := by
  obtain ⟨base, c, m, t, fs, i, q, hc, hct, hv, hi, hthrough, hpath⟩ := h.through hp
  exact ⟨base, c, m, t, fs, i, q ++ [j], elem, hc, hct, hv, hi, hthrough.concat_elem hj,
    by simp [Place.down, hpath]⟩

theorem field {n f : Nat} {fields : Nat → Ty} (h : Covers P id v p)
    (hp : p.type P = some (.record n fields)) (hf : f < n) :
    Covers P id (.field f v) (p.down f) := by
  obtain ⟨base, c, m, t, fs, i, q, hc, hct, hv, hi, hthrough, hpath⟩ := h.through hp
  exact ⟨base, c, m, t, fs ++ [f], i, q ++ [f], fields f, hc, hct,
    by rw [SValue.under_concat, hv], hi, hthrough.concat_field hf, by simp [Place.down, hpath]⟩

end Covers

def Denotes (P : Program) (id : Nat) (v : SValue) (p : Place) : Prop :=
  (∃ c, p.cursor P id = some c ∧ v = c.key) ∨ Covers P id v p

theorem SValue.under_cases (v : SValue) (fs : List Nat) :
    v.under fs = v ∨ ∃ f w, v.under fs = .field f w := by
  induction fs using List.reverseRecOn with
  | nil => exact .inl rfl
  | append_singleton fs f _ => exact .inr ⟨f, _, v.under_concat fs f⟩

/-- An array at an unknown index, or a field below one. -/
theorem Covers.shape {P : Program} {id : Nat} {v : SValue} {p : Place} (h : Covers P id v p) :
    (∃ owner n, v = .array id owner n none) ∨ ∃ f w, v = .field f w := by
  obtain ⟨base, c, n, t, fs, i, q, u, -, -, rfl, -⟩ := h
  exact (SValue.under_cases (.array id c.key n none) fs).imp_left fun heq => ⟨c.key, n, heq⟩

/-- What denotes a place is a variable, a field or an array element. -/
theorem Denotes.lvalue {P : Program} {id : Nat} {v : SValue} {p : Place} (h : Denotes P id v p) :
    v.isVariable = true ∨ v.isArray = true := by
  rcases h with ⟨c, hc, rfl⟩ | hcov
  · exact (Place.cursor_located hc).lvalue_key
  · rcases hcov.shape with ⟨owner, n, rfl⟩ | ⟨f, w, rfl⟩
    · exact .inr rfl
    · exact .inl rfl

/-- The state describes the store; `ids` numbers the declarations that created the arrays. -/
structure Describes (P : Program) (ids : Decl → Nat) (s : State) (c : Store) : Prop where
  holds : ∀ x path d, c.Live x → P.isReference x = false →
    (Place.mk x path).cursor P (ids x) = some d → d.Holds (ids x) s (c.mem ⟨x, path⟩)
  closed : ∀ k, s.find k ≠ .noValue → k.isReference P.decl = true ∨
    ∃ x path d, c.Live x ∧ P.isReference x = false ∧
      (Place.mk x path).cursor P (ids x) = some d ∧ d.key = k
  refs : ∀ r, c.Live r → P.isReference r = true →
    Denotes P (ids (c.refs r).root) (s.find (.var r)) (c.refs r)
  target : ∀ r, c.Live r → P.isReference r = true → P.isReference (c.refs r).root = false ∧
    (c.refs r).scalarType P = (P.type r).scalar?
  scope : ∀ r l, (r, l) ∈ c.live → P.isReference r = true →
    ∃ l' ≤ l, ((c.refs r).root, l') ∈ c.live
  registered : ∀ x l path d, (x, l) ∈ c.live → P.isReference x = false →
    (Place.mk x path).cursor P (ids x) = some d → (l, d.key) ∈ s.levels
  levels : ∀ l k, (l, k) ∈ s.levels → k.isReference P.decl = true ∨
    ∃ x path d, (x, l) ∈ c.live ∧ P.isReference x = false ∧
      (Place.mk x path).cursor P (ids x) = some d ∧ d.key = k
  nodup : (c.live.map Prod.fst).Nodup

namespace Describes
variable {P : Program} {ids : Decl → Nat} {s : State} {c : Store}

theorem empty (P : Program) (ids : Decl → Nat) : Describes P ids .empty .empty where
  holds x _ _ hx := by simp [Store.Live, Store.empty] at hx
  closed k hk := absurd rfl hk
  refs r hr := by simp [Store.Live, Store.empty] at hr
  target r hr := by simp [Store.Live, Store.empty] at hr
  scope r l hr := by simp [Store.empty] at hr
  registered x l _ _ hx := by simp [Store.empty] at hx
  levels l k hk := by simp [State.empty] at hk
  nodup := by simp [Store.empty]

theorem known (h : Describes P ids s c) : s.Known where
  key k hk := by
    rcases h.closed k hk with href | ⟨x, path, d, -, -, hd, rfl⟩
    · cases k with
      | var r => rfl
      | _ => simp [SValue.isReference] at href
    · exact (Place.cursor_located hd).known_key
  value k hk := by
    by_cases hnone : s.find k = .noValue
    · rw [hnone]
      rfl
    · rcases h.closed k hnone with href | ⟨x, path, d, hx, href, hd, rfl⟩
      · cases k with
        | var r => simp [SValue.isArray] at hk
        | _ => simp [SValue.isReference] at href
      · have hl := Place.cursor_located hd
        have hholds := h.holds x path d hx href hd
        unfold Cursor.Holds at hholds
        split at hholds
        · rcases hholds with hfind | hfind
          · exact absurd hfind hnone
          · rw [hfind]
            rfl
        · rw [hholds, Cursor.object]
          split
          · rfl
          · simpa [SValue.known] using hl.known_key
          · exact hl.known_owner

theorem storedBelow {x : Decl} {path : List Nat} {d : Cursor} (h : Describes P ids s c)
    (hx : c.Live x) (href : P.isReference x = false)
    (hd : (Place.mk x path).cursor P (ids x) = some d) : d.StoredBelow (ids x) s := by
  intro q e he
  refine (h.holds x (path ++ q) e hx href ?_).stored
  rw [Place.cursor_append hd, he]

/-- Nothing is stored at a key that belongs to a variable that is not live. -/
theorem clear {x : Decl} (h : Describes P ids s c) (hx : ¬c.Live x)
    (href : P.isReference x = false) {k : SValue} (hk : k.root = some x) :
    s.find k = .noValue := by
  by_contra hne
  rcases h.closed k hne with hr | ⟨y, path, d, hy, -, hd, rfl⟩
  · cases k with
    | var r =>
      cases hk
      exact absurd hr (by simp [SValue.isReference, Program.decl, href])
    | _ => simp [SValue.isReference] at hr
  · rw [(Place.cursor_located hd).root_key] at hk
    cases hk
    exact hx hy

/-- A write to the place `p`: its key gets the value or none, and integers elsewhere may be
forgotten. -/
theorem write {p : Place} {d : Cursor} {t : Scalar} {s' : State} {m : Int}
    (h : Describes P ids s c) (hx : c.Live p.root) (href : P.isReference p.root = false)
    (hd : p.cursor P (ids p.root) = some d) (ht : d.type = .scalar t)
    (hlevels : s'.levels = s.levels)
    (hfind : ∀ k, k ≠ d.key → s'.find k = s.find k ∨
      (∃ v, s.find k = .integer v) ∧ s'.find k = .noValue)
    (hkey : s'.find d.key = .noValue ∨ s'.find d.key = .integer m) :
    Describes P ids s' (c.write p m) where
  holds x path e hx hxref he := by
    by_cases hp : Place.mk x path = p
    · subst hp
      cases hd.symm.trans he
      rw [Cursor.Holds, ht]
      simpa [Store.write] using hkey
    · have hne : e.key ≠ d.key := fun heq => hp (Place.eq_of_key_eq he hd heq)
      have hholds := (h.holds x path e hx hxref he).of_find (hfind e.key hne)
      simpa [Store.write, Function.update_of_ne hp] using hholds
  closed k hk := by
    by_cases hkd : k = d.key
    · exact .inr ⟨p.root, p.path, d, hx, href, hd, hkd.symm⟩
    · refine h.closed k fun hnone => hk ?_
      rcases hfind k hkd with hsame | ⟨-, hgone⟩
      · exact hsame.trans hnone
      · exact hgone
  refs r hr hrref := by
    have hden := h.refs r hr hrref
    have hne : SValue.var r ≠ d.key := by
      intro heq
      have hroot := (Place.cursor_located hd).root_key
      rw [← heq] at hroot
      cases hroot
      simp [hrref] at href
    rcases hfind (.var r) hne with hsame | ⟨⟨v, hint⟩, -⟩
    · rw [hsame]
      exact hden
    · rw [hint] at hden
      simpa [SValue.isVariable, SValue.isArray] using hden.lvalue
  target := h.target
  scope := h.scope
  registered x l path e hx hxref he := hlevels ▸ h.registered x l path e hx hxref he
  levels l k hk := h.levels l k (hlevels ▸ hk)
  nodup := h.nodup

end Describes

theorem Place.type_of_scalarType {P : Program} {p : Place} {t : Scalar}
    (h : p.scalarType P = some t) : p.type P = some (.scalar t) := by
  obtain ⟨u, hu, ht⟩ := Option.bind_eq_some_iff.mp h
  cases u with
  | scalar t' =>
    cases ht
    exact hu
  | _ => cases ht

namespace Describes
open State
variable {P : Program} {ids : Decl → Nat} {s : State} {c : Store} {p : Place} {t : Scalar}

/-- Putting a value below an unknown index forgets all places it may be. -/
theorem putValue_covers {lval : SValue} (h : Describes P ids s c) (hx : c.Live p.root)
    (href : P.isReference p.root = false) (htype : p.scalarType P = some t)
    (hcov : Covers P (ids p.root) (s.getDerefVariable P.decl lval) p) (r : SValue) (m : Int) :
    Describes P ids (putValue P.decl s lval r true) (c.write p m) := by
  have hptype := Place.type_of_scalarType htype
  obtain ⟨base, b, n, elem, fs, i, q, hb, hbt, hv, hi, hthrough, hpath⟩ := hcov.through hptype
  have hp : p = ⟨p.root, base ++ i :: q⟩ := by rw [← hpath]
  obtain ⟨d, hd, hdt⟩ := Place.exists_cursor (ids p.root) hptype
  have hwalk : b.walk (ids p.root) (i :: q) = some d := by
    rw [hp] at hd
    rwa [Place.cursor_append hb] at hd
  have hbloc := Place.cursor_located hb
  have hstored := h.storedBelow hx href hb
  have hs := h.known
  -- either way the integers are erased, the one of `p` among them
  suffices ∃ s', putValue P.decl s lval r true = s' ∧ s.Erased s' ∧ s'.find d.key = .noValue by
    obtain ⟨s', hput, he, hnone⟩ := this
    rw [hput]
    exact h.write hx href hd hdt he.levels (fun k _ => he.find k) (.inl hnone)
  unfold putValue
  simp only [if_true, hv]
  cases fs with
  | nil =>
    have hunknown : isArrayUnknown s.arrayFuel s (.array (ids p.root) b.key n none) = true := rfl
    obtain ⟨he, hclear⟩ := setArrayNoValue_spec none hs href hbloc hstored hbt
    refine ⟨_, if_pos (by simp [SValue.under, SValue.isArray, hunknown]), he, ?_⟩
    exact hclear (i :: q) d t hwalk hdt
  | cons f fs =>
    obtain ⟨he, hclear⟩ := setArrayRecordNoValue_spec hs href hbloc hstored hbt hthrough.hasFields
    have hnotArray :
        ((SValue.array (ids p.root) b.key n none).under (f :: fs)).isArray = false := by
      rcases SValue.under_cases (.field f (.array (ids p.root) b.key n none)) fs with
        heq | ⟨g, w, heq⟩
      · exact (congrArg SValue.isArray heq).trans rfl
      · exact (congrArg SValue.isArray heq).trans rfl
    rw [if_neg (by simp [hnotArray]), if_pos (hasUnknownArray_under hs _ _ _)]
    exact ⟨_, rfl, he, hclear i q d t hi hthrough hwalk⟩

/-- Putting a value into a key known exactly. -/
theorem putValue_exact {lval r : SValue} {d : Cursor} {v : Int} (h : Describes P ids s c)
    (hx : c.Live p.root) (href : P.isReference p.root = false)
    (htype : p.scalarType P = some t) (hd : p.cursor P (ids p.root) = some d)
    (hderef : s.getDerefVariable P.decl lval = d.key)
    (hcast : lval.isReference P.decl = true → lval.scalarType P.decl = some t)
    (hr : r = .noValue ∨ r = .integer v) :
    Describes P ids (putValue P.decl s lval r true) (c.write p (t.cast v)) := by
  have hl := Place.cursor_located hd
  have hs := h.known
  have hdt : d.type = .scalar t := by
    have hdtype := Place.cursor_type hd
    rw [Place.type_of_scalarType htype] at hdtype
    exact (Option.some.inj hdtype).symm
  have hself : lval.isReference P.decl = false → lval = d.key := by
    intro hfalse
    rw [← hderef, getDerefVariable_self hfalse]
  have hlval : lval.scalarType P.decl = some t := by
    cases hlref : lval.isReference P.decl with
    | true => exact hcast hlref
    | false => rw [hself hlref, hl.scalarType_key, hdt, Ty.scalar?]
  have hput : putValue P.decl s lval r true = s.erase d.key ∨
      putValue P.decl s lval r true = s.put d.key (.integer (t.cast v)) := by
    unfold putValue
    simp only [if_true, hderef, isArrayUnknown_known hs hl.known_key, Bool.and_false,
      hasUnknownArray_known hs hl.known_key, Bool.false_eq_true, if_false]
    rcases hr with rfl | rfl
    · left
      rfl
    · right
      have hrr : castValue P.decl lval (s.getDerefVariable P.decl (.integer v)) =
          .integer (t.cast v) := by
        simp [castValue, getDerefVariable, SValue.isReference, hlval]
      rw [hrr, if_neg (by simp)]
      rcases getDerefVariable_cases P.decl s lval with heq | ⟨hlref, hnone, heq⟩
      · have hlref : lval.isReference P.decl = false := by
          rw [← heq, hderef, hl.isReference_key href]
        rw [if_neg (by simp [hlref]), hself hlref]
      · rw [if_pos (by simp [hlref, hnone]), ← heq, hderef]
  rcases hput with hput | hput <;> rw [hput]
  · refine h.write hx href hd hdt rfl (fun k hk => ?_) (.inl ?_)
    · exact .inl (by rw [find_erase, if_neg hk])
    · rw [find_erase, if_pos rfl]
  · refine h.write hx href hd hdt rfl (fun k hk => ?_) (.inr ?_)
    · exact .inl (by rw [find_put, if_neg hk])
    · rw [find_put, if_pos rfl]

theorem isUnknownIndex_covers {v : SValue} (hs : s.Known) {id : Nat} (hcov : Covers P id v p) :
    isUnknownIndex P.decl s v = true := by
  unfold isUnknownIndex
  split
  · next harray =>
    rcases hcov.shape with ⟨owner, n, rfl⟩ | ⟨f, w, rfl⟩
    · rfl
    · cases harray
  · obtain ⟨base, b, n, elem, fs, i, q, u, -, -, rfl, -⟩ := hcov
    exact hasUnknownArray_under hs b.key n fs

theorem getValue_covers {lval : SValue} {id : Nat} (hs : s.Known)
    (hcov : Covers P id (s.getDerefVariable P.decl lval) p) (mode : ArrayUnkwnMode) :
    getValue P.decl s lval true mode =
      match mode with
      | .amNoValue => (.noValue, false)
      | .amArrayUnknown => (s.getDerefVariable P.decl lval, true) := by
  have hunknown := isUnknownIndex_covers hs hcov
  cases mode with
  | amNoValue => simp only [getValue, if_true, hunknown]
  | amArrayUnknown => simp only [getValue, if_true, hunknown]

theorem getValue_exact {lval : SValue} {id : Nat} {d : Cursor} (hs : s.Known)
    (hd : p.cursor P id = some d) (hderef : s.getDerefVariable P.decl lval = d.key)
    (mode : ArrayUnkwnMode) : getValue P.decl s lval true mode = (s.find d.key, false) := by
  unfold getValue
  simp only [if_true, hderef, isUnknownIndex_known hs (Place.cursor_located hd).known_key,
    Bool.false_eq_true, if_false]

/-- Reading a scalar gives its value or none. -/
theorem getValue_scalar {lval : SValue} (h : Describes P ids s c) (hx : c.Live p.root)
    (href : P.isReference p.root = false) (htype : p.scalarType P = some t)
    (hden : Denotes P (ids p.root) (s.getDerefVariable P.decl lval) p) :
    (getValue P.decl s lval true .amNoValue).1 = .noValue ∨
      (getValue P.decl s lval true .amNoValue).1 = .integer (c.mem p) := by
  rcases hden with ⟨d, hd, hderef⟩ | hcov
  · rw [getValue_exact h.known hd hderef]
    have hdt : d.type = .scalar t := by
      have hdtype := Place.cursor_type hd
      rw [Place.type_of_scalarType htype] at hdtype
      exact (Option.some.inj hdtype).symm
    have hholds := h.holds p.root p.path d hx href hd
    rwa [Cursor.Holds, hdt] at hholds
  · rw [getValue_covers h.known hcov]
    exact .inl rfl

/-- The object of an array or a record, or the value below an unknown index itself. -/
theorem getValue_object {lval : SValue} {u : Ty} (h : Describes P ids s c)
    (hx : c.Live p.root) (href : P.isReference p.root = false) (htype : p.type P = some u)
    (hu : u.scalar? = none)
    (hden : Denotes P (ids p.root) (s.getDerefVariable P.decl lval) p) :
    (∃ d, p.cursor P (ids p.root) = some d ∧ d.type = u ∧
      s.getDerefVariable P.decl lval = d.key ∧
      getValue P.decl s lval true .amArrayUnknown = (d.object (ids p.root), false)) ∨
    Covers P (ids p.root) (s.getDerefVariable P.decl lval) p ∧
      getValue P.decl s lval true .amArrayUnknown = (s.getDerefVariable P.decl lval, true) := by
  rcases hden with ⟨d, hd, hderef⟩ | hcov
  · have hdt : d.type = u := Option.some.inj ((Place.cursor_type hd).symm.trans htype)
    refine .inl ⟨d, hd, hdt, hderef, ?_⟩
    rw [getValue_exact h.known hd hderef]
    have hholds := h.holds p.root p.path d hx href hd
    rw [Cursor.Holds, hdt] at hholds
    cases u with
    | scalar t => cases hu
    | _ => rw [hholds]
  · exact .inr ⟨hcov, getValue_covers h.known hcov _⟩

end Describes
end SystemcCompiler.StateValues
