import SystemcCompiler.Cfg.StateDescribes

/-! Expressions evaluated in a state that describes the store: an lvalue denotes the place the
store has, an operand has the value the store computes or none. A constant whose value is not
known is the exception, it is evaluated from its initializer again. -/
namespace SystemcCompiler.StateValues
open RowMajor

def LExpr.variable : LExpr → List Decl
  | .var x => [x]
  | _ => []

mutual
/-- The variables whose values are read to find the place. -/
def LExpr.reads : LExpr → List Decl
  | .var _ => []
  | .index base i => base.reads ++ i.reads
  | .field base _ => base.reads

def RExpr.reads : RExpr → List Decl
  | .lit _ => []
  | .input _ => []
  | .read l => l.variable ++ l.reads
  | .op _ a b => a.reads ++ b.reads
end

namespace State
variable (P : Program)

/-- What an operand stands for: an lvalue for what is stored there. -/
def operand (s : State) (v : SValue) : SValue :=
  if v.isVariable || v.isArray then (getValue P.decl s v true .amNoValue).1 else v

/-- A constant without a value, read through `x` or directly, gets none from its declaration
either, or the one it has. -/
def Settled (fuel : Nat) (s : State) (c : Store) (x : Decl) : Prop :=
  ∀ k, s.getDerefVariable P.decl (.var x) = .var k → P.isConst k = true →
    P.isReference k = false → s.find (.var k) = .noValue →
    s.operand P (declValue P s fuel x) = .noValue ∨
      s.operand P (declValue P s fuel x) = .integer (c.mem ⟨k, []⟩)

/-- The operand has the value `z` or none. -/
def Yields (s : State) (v : SValue) (z : Int) : Prop :=
  s.operand P v = .noValue ∨ s.operand P v = .integer z

end State

namespace State
variable {P : Program} {s : State} {v : SValue} {z : Int}

theorem operand_self (h : (v.isVariable || v.isArray) = false) : s.operand P v = v := by
  simp [operand, h]

theorem operand_lvalue (h : (v.isVariable || v.isArray) = true) :
    s.operand P v = (getValue P.decl s v true .amNoValue).1 := by
  simp [operand, h]

theorem Yields.none (P : Program) (s : State) (z : Int) : s.Yields P .noValue z := .inl rfl

theorem Yields.integer (P : Program) (s : State) (z : Int) : s.Yields P (.integer z) z := .inr rfl

theorem Yields.of_value (h : v = .noValue ∨ v = .integer z) : s.Yields P v z := by
  rcases h with rfl | rfl
  · exact .none P s z
  · exact .integer P s z

theorem Yields.eq_of_integer {w : Int} (h : s.Yields P (.integer w) z) : w = z := by
  rcases h with h | h
  · cases h
  · cases h
    rfl

/-- An operand is no value, the integer or an lvalue. -/
theorem Yields.cases (h : s.Yields P v z) :
    v = .noValue ∨ v = .integer z ∨ (v.isVariable || v.isArray) = true := by
  cases hv : v.isVariable || v.isArray with
  | true => exact .inr (.inr rfl)
  | false =>
    unfold Yields at h
    rw [operand_self hv] at h
    rcases h with h | h
    · exact .inl h
    · exact .inr (.inl h)

theorem getValue_deref (P : Program) (s : State) (v : SValue) (mode : ArrayUnkwnMode) :
    getValue P.decl s (s.getDerefVariable P.decl v) false mode =
      getValue P.decl s v true mode := rfl

theorem getValue_var {x k : Decl} (h : s.getDerefVariable P.decl (.var x) = .var k)
    (mode : ArrayUnkwnMode) :
    getValue P.decl s (.var x) true mode = (s.find (.var k), false) := by
  have hknown : isUnknownIndex P.decl s (.var k) = false := rfl
  simp [getValue, h, hknown]

/-- A value that is there is the one returned. -/
theorem getValueFromState_lvalue {again : Decl → SValue} {mode : ArrayUnkwnMode}
    (hv : (v.isVariable || v.isArray) = true)
    (hne : (getValue P.decl s v true mode).1 ≠ .noValue) :
    getValueFromState P again s v mode = (getValue P.decl s v true mode).1 := by
  cases v with
  | var x =>
    simp only [getValueFromState, getValue_deref]
    split
    · next hnone _ => exact absurd hnone hne
    · rfl
  | field f parent => rfl
  | array id owner size offset => rfl
  | _ => simp [SValue.isVariable, SValue.isArray] at hv

/-- Reading an operand keeps its value, for a constant by what is settled of it. -/
theorem Yields.getValueFromState {fuel : Nat} {c : Store} (h : s.Yields P v z)
    (hvar : ∀ x, v = .var x → s.Settled P fuel c x ∧
      ∀ k, s.getDerefVariable P.decl (.var x) = .var k → c.mem ⟨k, []⟩ = z) :
    s.Yields P (getValueFromState P (declValue P s fuel) s v .amNoValue) z := by
  rcases h.cases with rfl | rfl | hlv
  · exact .none P s z
  · exact .integer P s z
  · unfold Yields at h
    rw [operand_lvalue hlv] at h
    by_cases hnone : (getValue P.decl s v true .amNoValue).1 = .noValue
    · cases v with
      | var x =>
        simp only [State.getValueFromState, getValue_deref, hnone]
        split
        · next k _ hk =>
          split
          · next hconst =>
            simp only [Bool.and_eq_true, Bool.not_eq_eq_eq_not, Bool.not_true] at hconst
            obtain ⟨hsettled, hmem⟩ := hvar x rfl
            rw [getValue_var hk] at hnone
            have hagain := hsettled k hk hconst.1 hconst.2 hnone
            rwa [hmem k hk] at hagain
          · exact .none P s z
        · exact .none P s z
      | field f parent =>
        change s.Yields P (getValue P.decl s (.field f parent) true .amNoValue).1 z
        exact .of_value h
      | array id owner size offset =>
        change s.Yields P (getValue P.decl s (.array id owner size offset) true .amNoValue).1 z
        exact .of_value h
      | _ => simp [SValue.isVariable, SValue.isArray] at hlv
    · rw [getValueFromState_lvalue hlv hnone]
      exact .of_value h

end State

/-- What leads down from a place is no variable. -/
theorem Denotes.ne_var {P : Program} {id i : Nat} {v : SValue} {p : Place}
    (h : Denotes P id v (p.down i)) (x : Decl) : v ≠ .var x := by
  rintro rfl
  rcases h with ⟨d, hd, hkey⟩ | hcov
  · have hpath := (Place.cursor_located hd).path_key
    rw [← hkey] at hpath
    simp [SValue.path, Place.down] at hpath
  · rcases hcov.shape with ⟨owner, n, heq⟩ | ⟨f, w, heq⟩ <;> cases heq

/-- Where the store has the place `p`, an expression over `xs` has the value `v` in the
state. -/
structure Reaches (P : Program) (ids : Decl → Nat) (s : State) (c : Store) (xs : List Decl)
    (v : SValue) (p : Place) : Prop where
  live : c.Live p.root
  object : P.isReference p.root = false
  denotes : v = .noValue ∨ Denotes P (ids p.root) (s.getDerefVariable P.decl v) p
  cast : v.isReference P.decl = true → v.scalarType P.decl = p.scalarType P
  mem : ∀ x, v = .var x → x ∈ xs

namespace Reaches
open State
variable {P : Program} {ids : Decl → Nat} {s : State} {c : Store} {xs : List Decl} {v : SValue}
  {p : Place}

/-- Below a place there is neither a variable nor a reference. -/
theorem down {i : Nat} {ys : List Decl} {w : SValue} (h : Reaches P ids s c xs v p)
    (hw : w = .noValue ∨ Denotes P (ids p.root) w (p.down i)) :
    Reaches P ids s c ys w (p.down i) where
  live := h.live
  object := h.object
  denotes := by
    refine hw.imp_right fun hden => ?_
    rwa [getDerefVariable_self]
    cases w with
    | var x => exact absurd rfl (hden.ne_var x)
    | _ => rfl
  cast := by
    rcases hw with rfl | hden
    · nofun
    · cases w with
      | var x => exact absurd rfl (hden.ne_var x)
      | _ => nofun
  mem x hx := by
    rcases hw with rfl | hden
    · cases hx
    · exact absurd hx (hden.ne_var x)

end Reaches

namespace Describes
open State
variable {P : Program} {ids : Decl → Nat} {s : State} {c : Store} {xs : List Decl} {v : SValue}
  {p : Place}

theorem getRecordFromState_record (fuel : Nat) (s : State) (owner : SValue) (index : Nat) :
    getRecordFromState P fuel s (.record owner index) = .record owner index := by
  cases fuel <;> rfl

theorem parseMember_reaches {n f : Nat} {fields : Nat → Ty} {ys : List Decl}
    (h : Describes P ids s c) (hv : Reaches P ids s c xs v p)
    (htype : p.type P = some (.record n fields)) (hf : f < n) :
    Reaches P ids s c ys (parseMember P s v f) (p.down f) := by
  refine hv.down ?_
  rcases hv.denotes with rfl | hden
  · exact .inl rfl
  · right
    have hstep : getRecordFromState P s.arrayFuel s v =
        let value := getValue P.decl s v true .amArrayUnknown
        if value.2 then value.1
        else getRecordFromState P s.tuples.entries.length s value.1 := by
      rcases getDerefVariable_cases P.decl s v with heq | ⟨href, -⟩
      · rw [heq] at hden
        have hlv := hden.lvalue
        cases v with
        | noValue => simp [SValue.isVariable, SValue.isArray] at hlv
        | record owner index => simp [SValue.isVariable, SValue.isArray] at hlv
        | _ => rfl
      · cases v with
        | var x => rfl
        | _ => cases href
    unfold parseMember
    rw [hstep]
    rcases h.getValue_object hv.live hv.object htype rfl hden with
      ⟨d, hd, hdt, hkey, hget⟩ | ⟨hcov, hget⟩
    · have hobj : d.object (ids p.root) = .record d.owner d.index := by
        rw [Cursor.object, hdt]
      simp only [hget, hobj, Bool.false_eq_true, if_false, getRecordFromState_record]
      have hchild : d.child (ids p.root) f =
          some ⟨.field f (.record d.owner d.index), .field f (.record d.owner d.index), 0,
            fields f⟩ := by
        simp [Cursor.child, hdt, hf]
      exact .inl ⟨_, Place.cursor_concat hd hchild, rfl⟩
    · simp only [hget, if_true]
      have hcov' := hcov.field htype hf
      have hlv := Denotes.lvalue (.inr hcov)
      generalize s.getDerefVariable P.decl v = w at hcov' hlv
      cases w with
      | noValue => simp [SValue.isVariable, SValue.isArray] at hlv
      | integer z => simp [SValue.isVariable, SValue.isArray] at hlv
      | _ => exact .inr hcov'

/-- The array to be indexed: its object, or the value below an unknown index itself. -/
theorem getValueFromState_array {n : Nat} {t : Ty} (again : Decl → SValue)
    (h : Describes P ids s c) (hx : c.Live p.root) (href : P.isReference p.root = false)
    (htype : p.type P = some (.array n t)) (hden : Denotes P (ids p.root) v p) :
    (∃ d, p.cursor P (ids p.root) = some d ∧ d.type = .array n t ∧
      getValueFromState P again s v .amArrayUnknown =
        .array (ids p.root) d.key n (some 0)) ∨
    Covers P (ids p.root) v p ∧ getValueFromState P again s v .amArrayUnknown = v := by
  have hself : s.getDerefVariable P.decl v = v := by
    refine getDerefVariable_self ?_
    rcases hden with ⟨d, hd, rfl⟩ | hcov
    · exact (Place.cursor_located hd).isReference_key href
    · rcases hcov.shape with ⟨owner, m, rfl⟩ | ⟨f, w, rfl⟩ <;> rfl
  have hlv : (v.isVariable || v.isArray) = true := by simpa using hden.lvalue
  rcases h.getValue_object hx href htype rfl (hself.symm ▸ hden) with
    ⟨d, hd, hdt, -, hget⟩ | ⟨hcov, hget⟩
  · have hobj : d.object (ids p.root) = .array (ids p.root) d.key n (some 0) := by
      rw [Cursor.object, hdt]
    refine .inl ⟨d, hd, hdt, ?_⟩
    rw [getValueFromState_lvalue hlv (by rw [hget, hobj]; simp), hget, hobj]
  · rw [hself] at hcov hget
    refine .inr ⟨hcov, ?_⟩
    rw [getValueFromState_lvalue hlv, hget]
    rw [hget]
    rintro rfl
    simp [SValue.isVariable, SValue.isArray] at hlv

theorem parseArraySubscript_lvalue {again : Decl → SValue} {ival : SValue}
    (hi : ((getValueFromState P again s ival .amNoValue).isVariable ||
      (getValueFromState P again s ival .amNoValue).isArray) = true) (v : SValue) :
    parseArraySubscript P again s v ival = .noValue := by
  unfold parseArraySubscript
  dsimp only
  split
  · split
    · next heq =>
      rw [heq] at hi
      cases hi
    · next heq =>
      rw [heq] at hi
      cases hi
    · rfl
  · rfl

theorem parseArraySubscript_reaches {again : Decl → SValue} {n : Nat} {t : Ty} {z : Int}
    {ival : SValue} {ys : List Decl} (h : Describes P ids s c) (hv : Reaches P ids s c xs v p)
    (htype : p.type P = some (.array n t)) (hz : 0 ≤ z ∧ z.toNat < n)
    (hi : s.Yields P (getValueFromState P again s ival .amNoValue) z) :
    Reaches P ids s c ys (parseArraySubscript P again s v ival) (p.down z.toNat) := by
  refine hv.down ?_
  rcases hv.denotes with rfl | hden
  · exact .inl rfl
  rcases or_assoc.mpr hi.cases with hi | hlval
  case inr =>
    -- an index that is an lvalue is not taken
    exact .inl (parseArraySubscript_lvalue hlval v)
  right
  have hlv : ((s.getDerefVariable P.decl v).isVariable ||
      (s.getDerefVariable P.decl v).isArray) = true := by simpa using hden.lvalue
  unfold parseArraySubscript
  simp only [hlv, if_true]
  rcases h.getValueFromState_array again hv.live hv.object htype hden with
    ⟨d, hd, hdt, heval⟩ | ⟨hcov, heval⟩
  · rw [heval]
    rcases hi with hi | hi
    · rw [hi]
      exact .inr ⟨p.path, d, n, t, [], z.toNat, [], t, hd, hdt, rfl, hz.2, .stop, rfl⟩
    · have hchild : d.child (ids p.root) z.toNat =
          some ⟨.array (ids p.root) d.key n (some z.toNat), d.owner, d.index * n + z.toNat, t⟩ := by
        simp [Cursor.child, hdt, hz.2]
      rw [hi]
      simp only [Nat.zero_add, hz, and_self, if_true]
      exact .inl ⟨_, Place.cursor_concat hd hchild, rfl⟩
  · -- below an unknown index the value stays
    have hcov' := hcov.index htype hz.2
    rw [heval]
    rcases hcov.shape with ⟨owner, m, heq⟩ | ⟨f, w, heq⟩ <;> rw [heq] at hcov' ⊢ <;>
      rcases hi with hi | hi <;> rw [hi] <;> exact .inr hcov'

end Describes

theorem Denotes.eq_of_var {P : Program} {id : Nat} {k : Decl} {p : Place}
    (h : Denotes P id (.var k) p) : p = ⟨k, []⟩ := by
  rcases h with ⟨d, hd, hkey⟩ | hcov
  · have hl := Place.cursor_located hd
    have hroot := hl.root_key
    have hpath := hl.path_key
    rw [← hkey] at hroot hpath
    obtain ⟨root, path⟩ := p
    cases hroot
    cases hpath
    rfl
  · rcases hcov.shape with ⟨owner, n, heq⟩ | ⟨f, w, heq⟩ <;> cases heq

/-- Where the store computes `z`, an expression over `xs` has the value `v` in the state. -/
structure Computes (P : Program) (s : State) (c : Store) (xs : List Decl) (v : SValue)
    (z : Int) : Prop where
  yields : s.Yields P v z
  mem : ∀ x, v = .var x → x ∈ xs
  constant : ∀ x k, v = .var x → s.getDerefVariable P.decl (.var x) = .var k → c.mem ⟨k, []⟩ = z

namespace Computes
open State
variable {P : Program} {s : State} {c : Store} {xs : List Decl} {v : SValue} {z : Int}

theorem none : Computes P s c xs .noValue z := ⟨.none P s z, nofun, nofun⟩

theorem integer : Computes P s c xs (.integer z) z := ⟨.integer P s z, nofun, nofun⟩

theorem getValueFromState {fuel : Nat} (h : Computes P s c xs v z)
    (hxs : ∀ x ∈ xs, s.Settled P fuel c x) :
    s.Yields P (getValueFromState P (declValue P s fuel) s v .amNoValue) z :=
  h.yields.getValueFromState fun x hx => ⟨hxs x (h.mem x hx), fun k => h.constant x k hx⟩

end Computes

namespace Reaches
open State
variable {P : Program} {ids : Decl → Nat} {s : State} {c : Store} {xs : List Decl} {v : SValue}
  {p : Place}

theorem lvalue (h : Reaches P ids s c xs v p) :
    v = .noValue ∨ (v.isVariable || v.isArray) = true := by
  refine h.denotes.imp_right fun hden => ?_
  rcases getDerefVariable_cases P.decl s v with heq | ⟨href, -⟩
  · rw [heq] at hden
    simpa using hden.lvalue
  · cases v with
    | var x => rfl
    | _ => cases href

/-- Reading a scalar. -/
theorem computes {t : Scalar} (h : Reaches P ids s c xs v p) (hs : Describes P ids s c)
    (ht : p.scalarType P = some t) : Computes P s c xs v (c.mem p) := by
  rcases h.lvalue with rfl | hlv
  · exact .none
  rcases h.denotes with rfl | hden
  · exact .none
  refine ⟨?_, h.mem, fun x k hx hk => ?_⟩
  · unfold Yields
    rw [operand_lvalue hlv]
    exact hs.getValue_scalar h.live h.object ht hden
  · rw [hx, hk] at hden
    rw [hden.eq_of_var]

end Reaches

namespace Describes
open State
variable {P : Program} {ids : Decl → Nat} {s : State} {c : Store} {choice : Choice} {fuel : Nat}

/-- A live reference leads to what it is bound to. -/
theorem getDerefVariable_ref {r : Decl} (h : Describes P ids s c) (hr : c.Live r)
    (href : P.isReference r = true) : s.getDerefVariable P.decl (.var r) = s.find (.var r) := by
  have hlv := (h.refs r hr href).lvalue
  have hisref : (SValue.var r).isReference P.decl = true := href
  unfold getDerefVariable
  rw [if_pos hisref]
  split
  · next heq =>
    rw [heq] at hlv
    simp [SValue.isVariable, SValue.isArray] at hlv
  · next heq =>
    rw [heq] at hlv
    simp [SValue.isVariable, SValue.isArray] at hlv
  · rfl

theorem var_reaches {x : Decl} (h : Describes P ids s c) (hx : c.Live x) :
    Reaches P ids s c [x] (.var x) (if P.isReference x then c.refs x else ⟨x, []⟩) := by
  cases href : P.isReference x with
  | false =>
    have hself : s.getDerefVariable P.decl (.var x) = .var x := getDerefVariable_self href
    refine ⟨hx, href, .inr (.inl ⟨_, rfl, hself⟩), fun hfalse => ?_, by simp⟩
    rw [SValue.isReference, Program.decl, href] at hfalse
    cases hfalse
  | true =>
    have htarget := h.target x hx href
    obtain ⟨⟨y, l⟩, hmem, rfl⟩ := List.mem_map.mp hx
    obtain ⟨l', -, hlive⟩ := h.scope y l hmem href
    refine ⟨List.mem_map.mpr ⟨_, hlive, rfl⟩, htarget.1, .inr ?_, fun _ => ?_, by simp⟩
    · rw [h.getDerefVariable_ref hx href]
      exact h.refs y hx href
    · exact htarget.2.symm

mutual
theorem evalL_reaches (h : Describes P ids s c) :
    ∀ {l : LExpr} {p : Place}, (∀ x ∈ l.reads, s.Settled P fuel c x) →
      c.place P choice l = some p →
      Reaches P ids s c l.variable (evalL P (declValue P s fuel) s l) p
  | .var x, p, hxs, hp => by
    simp only [Store.place, Option.ite_none_right_eq_some, Option.some.injEq] at hp
    obtain ⟨hx, rfl⟩ := hp
    exact h.var_reaches hx
  | .index base i, p, hxs, hp => by
    simp only [LExpr.reads, List.mem_append] at hxs
    simp only [Store.place] at hp
    split at hp
    · next pb z hpb hz =>
      split at hp
      · next n t htype =>
        simp only [Option.ite_none_right_eq_some, Option.some.injEq] at hp
        obtain ⟨hbound, rfl⟩ := hp
        have hbase := evalL_reaches h (fun x hx => hxs x (.inl hx)) hpb
        have hindex := evalR_computes h (fun x hx => hxs x (.inr hx)) hz
        exact h.parseArraySubscript_reaches hbase htype hbound
          (hindex.getValueFromState fun x hx => hxs x (.inr hx))
      · cases hp
    · cases hp
  | .field base f, p, hxs, hp => by
    simp only [LExpr.reads] at hxs
    simp only [Store.place] at hp
    split at hp
    · next pb hpb =>
      split at hp
      · next n fields htype =>
        simp only [Option.ite_none_right_eq_some, Option.some.injEq] at hp
        obtain ⟨hf, rfl⟩ := hp
        exact h.parseMember_reaches (evalL_reaches h hxs hpb) htype hf
      · cases hp
    · cases hp

theorem evalR_computes (h : Describes P ids s c) :
    ∀ {e : RExpr} {z : Int}, (∀ x ∈ e.reads, s.Settled P fuel c x) →
      c.value P choice e = some z →
      Computes P s c e.reads (evalR P (declValue P s fuel) s e) z
  | .lit v, z, hxs, hz => by
    cases hz
    exact .integer
  | .input n, z, hxs, hz => .none
  | .read l, z, hxs, hz => by
    simp only [RExpr.reads, List.mem_append] at hxs
    simp only [Store.value] at hz
    split at hz
    · next p hp =>
      obtain ⟨t, ht, rfl⟩ := Option.map_eq_some_iff.mp hz
      have hl := (evalL_reaches h (fun x hx => hxs x (.inr hx)) hp).computes h ht
      exact ⟨hl.yields, fun x hx => List.mem_append_left _ (hl.mem x hx), hl.constant⟩
    · cases hz
  | .op f a b, z, hxs, hz => by
    simp only [RExpr.reads, List.mem_append] at hxs
    simp only [Store.value] at hz
    split at hz
    · next v w hv hw =>
      cases hz
      have ha := (evalR_computes h (fun x hx => hxs x (.inl hx)) hv).getValueFromState
        fun x hx => hxs x (.inl hx)
      have hb := (evalR_computes h (fun x hx => hxs x (.inr hx)) hw).getValueFromState
        fun x hx => hxs x (.inr hx)
      simp only [evalR]
      split
      · next v' w' hv' hw' =>
        rw [hv'] at ha
        rw [hw'] at hb
        rw [ha.eq_of_integer, hb.eq_of_integer]
        exact .integer
      · exact .none
    · cases hz
end

end Describes
end SystemcCompiler.StateValues
