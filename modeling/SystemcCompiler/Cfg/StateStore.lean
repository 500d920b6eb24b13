import SystemcCompiler.Cfg.StateParse

/-! The C++ store the values of `ScState` stand for. A place is a variable and the indices
and fields that lead down from it; each place of a declared variable has one key in the
state. -/
namespace SystemcCompiler.StateValues
open RowMajor

structure Place where
  root : Decl
  path : List Nat
  deriving DecidableEq

namespace Ty

/-- The type of element or field `i`. -/
def sub : Ty → Nat → Option Ty
  | .array n t, i => if i < n then some t else none
  | .record n field, i => if i < n then some (field i) else none
  | .scalar _, _ => none

def subAt (t : Ty) : List Nat → Option Ty
  | [] => some t
  | i :: path => (t.sub i).bind (·.subAt path)

end Ty

namespace Place

def type (P : Program) (p : Place) : Option Ty := (P.type p.root).subAt p.path

def scalarType (P : Program) (p : Place) : Option Scalar := (p.type P).bind Ty.scalar?

def down (p : Place) (i : Nat) : Place := ⟨p.root, p.path ++ [i]⟩

end Place

/-- What a step meets that is not known before simulation: the inputs it reads, and what an
uninitialised variable happens to hold. -/
structure Choice where
  input : Nat → Int
  junk : List Nat → Int

structure Store where
  mem : Place → Int
  refs : Decl → Place
  live : List (Decl × Nat)

namespace Store
variable (P : Program) (choice : Choice)

def empty : Store := ⟨fun _ => 0, fun x => ⟨x, []⟩, []⟩

def Live (c : Store) (x : Decl) : Prop := x ∈ c.live.map Prod.fst

instance (c : Store) (x : Decl) : Decidable (c.Live x) := inferInstanceAs (Decidable (_ ∈ _))

mutual
/-- Nothing for an index out of bounds. -/
def place (c : Store) : LExpr → Option Place
  | .var x =>
    if c.Live x then some (if P.isReference x then c.refs x else ⟨x, []⟩) else none
  | .index base i =>
    match place c base, value c i with
    | some p, some v =>
      match p.type P with
      | some (.array n _) => if 0 ≤ v ∧ v.toNat < n then some (p.down v.toNat) else none
      | _ => none
    | _, _ => none
  | .field base f =>
    match place c base with
    | some p =>
      match p.type P with
      | some (.record n _) => if f < n then some (p.down f) else none
      | _ => none
    | none => none

def value (c : Store) : RExpr → Option Int
  | .lit v => some v
  | .input n => some (choice.input n)
  | .read l =>
    match place c l with
    | some p => (p.scalarType P).map fun _ => c.mem p
    | none => none
  | .op f a b =>
    match value c a, value c b with
    | some v, some w => some (f v w)
    | _, _ => none
end

def write (c : Store) (p : Place) (v : Int) : Store := { c with mem := Function.update c.mem p v }

/-- Assignment converts the value to the type of the place. -/
def assign (c : Store) (p : Place) (v : Int) : Option Store :=
  (p.scalarType P).map fun t => c.write p (t.cast v)

def step (c : Store) : Op → Option Store
  | .declare level x =>
    if c.live.any fun e => decide (e.1 = x) || decide (level < e.2) then none
    else
      match P.init x with
      | .refer l =>
        match c.place P choice l with
        | some p =>
          if p.scalarType P = (P.type x).scalar? then
            some { c with refs := Function.update c.refs x p, live := (x, level) :: c.live }
          else none
        | none => none
      | _ =>
        some { c with
          mem := fun p => if p.root = x then choice.junk p.path else c.mem p
          live := (x, level) :: c.live }
  | .init x i =>
    if c.Live x ∧ i < (P.type x).sizes.prod then
      match (P.initExpr x i).bind (c.value P choice) with
      | some v => c.assign P ⟨x, indices (P.type x).sizes i⟩ v
      | none => none
    else none
  | .write l e =>
    match c.place P choice l, c.value P choice e with
    | some p, some v => c.assign P p v
    | _, _ => none
  | .leave level => some { c with live := c.live.filter fun e => decide (e.2 ≤ level) }

end Store

/-- A place as the state sees it: its key, the variable that owns its record, its number in
the array of that variable and its type. -/
structure Cursor where
  key : SValue
  owner : SValue
  index : Nat
  type : Ty

namespace Cursor

/-- The object of a place that is no scalar. -/
def object (id : Nat) (c : Cursor) : SValue :=
  match c.type with
  | .scalar _ => .noValue
  | .array n _ => .array id c.key n (some 0)
  | .record .. => .record c.owner c.index

def child (id : Nat) (c : Cursor) (i : Nat) : Option Cursor :=
  match c.type with
  | .scalar _ => none
  | .array n t =>
    if i < n then some ⟨.array id c.key n (some i), c.owner, c.index * n + i, t⟩ else none
  | .record n field =>
    if i < n then
      let key := SValue.field i (.record c.owner c.index)
      some ⟨key, key, 0, field i⟩
    else none

def walk (id : Nat) (c : Cursor) : List Nat → Option Cursor
  | [] => some c
  | i :: path => (c.child id i).bind (·.walk id path)

def start (val : SValue) (t : Ty) : Cursor := ⟨val, val, 0, t⟩

variable {id : Nat} {c d e : Cursor} {i : Nat} {p q : List Nat}

theorem walk_append (c : Cursor) (p q : List Nat) :
    c.walk id (p ++ q) = (c.walk id p).bind (·.walk id q) := by
  induction p generalizing c with
  | nil => rfl
  | cons i p ih =>
    simp only [List.cons_append, walk, Option.bind_assoc]
    congr 1
    funext d
    exact ih d

theorem child_type (id : Nat) (c : Cursor) (i : Nat) : (c.child id i).map type = c.type.sub i := by
  obtain ⟨key, owner, index, t⟩ := c
  cases t <;> simp only [child, Ty.sub] <;> try split <;> rfl
  rfl

theorem walk_type (id : Nat) (c : Cursor) (p : List Nat) :
    (c.walk id p).map type = c.type.subAt p := by
  induction p generalizing c with
  | nil => rfl
  | cons i p ih =>
    simp only [walk, Ty.subAt, ← child_type id]
    cases c.child id i with
    | none => rfl
    | some d => exact ih d

theorem subAt_of_walk (h : c.walk id p = some d) : c.type.subAt p = some d.type := by
  rw [← walk_type id, h]
  rfl

theorem exists_walk {t : Ty} (id : Nat) (h : c.type.subAt p = some t) :
    ∃ d, c.walk id p = some d ∧ d.type = t := by
  rw [← walk_type id] at h
  exact Option.map_eq_some_iff.mp h

end Cursor

namespace SValue

/-- The variable a key belongs to. -/
def root : SValue → Option Decl
  | .var x => some x
  | .field _ parent => parent.root
  | .array _ owner _ _ => owner.root
  | .record owner _ => owner.root
  | _ => none

/-- No offset is unknown. -/
def known : SValue → Bool
  | .field _ parent => parent.known
  | .array _ owner _ offset => offset.isSome && owner.known
  | .record owner _ => owner.known
  | _ => true

def sizes (P : Program) (v : SValue) : List Nat := ((v.type P.decl).map Ty.sizes).getD []

/-- The indices and fields that lead to a key. -/
def path (P : Program) : SValue → List Nat
  | .array _ owner _ offset => owner.path P ++ [offset.getD 0]
  | .field f (.record owner index) => owner.path P ++ indices (owner.sizes P) index ++ [f]
  | _ => []

end SValue

/-- The cursor of a place of `x`: its key gives back the place, and its number those of the
indices that have led down from its owner. -/
structure Cursor.Located (P : Program) (x : Decl) (c : Cursor) (path : List Nat) : Prop where
  path_key : c.key.path P = path
  type_key : c.key.type P.decl = some c.type
  root_key : c.key.root = some x
  known_key : c.key.known = true
  lvalue_key : c.key.isVariable = true ∨ c.key.isArray = true
  root_owner : c.owner.root = some x
  known_owner : c.owner.known = true
  below_owner : ∃ done sizes t, path = c.owner.path P ++ done ∧ c.owner.type P.decl = some t ∧
    t.sizes = sizes ++ c.type.sizes ∧ t.elementType = c.type.elementType ∧
    Within sizes done ∧ c.index = number sizes done

namespace Cursor
variable {P : Program} {x : Decl} {id : Nat} {c d : Cursor} {i : Nat} {p q : List Nat}

theorem located_start (P : Program) (x : Decl) :
    (start (.var x) (P.type x)).Located P x [] where
  path_key := rfl
  type_key := rfl
  root_key := rfl
  known_key := rfl
  lvalue_key := .inl rfl
  root_owner := rfl
  known_owner := rfl
  below_owner := ⟨[], [], P.type x, rfl, rfl, rfl, rfl, .nil, rfl⟩

theorem Located.child (h : c.Located P x p) (hd : c.child id i = some d) :
    d.Located P x (p ++ [i]) := by
  obtain ⟨key, owner, index, type⟩ := c
  obtain ⟨done, sizes, t, hpath, htype, hsizes, helem, hwithin, hindex⟩ := h.below_owner
  dsimp only at hpath htype hsizes helem hindex
  cases type with
  | scalar => simp [Cursor.child] at hd
  | array n elem =>
    simp only [Cursor.child, Option.ite_none_right_eq_some, Option.some.injEq] at hd
    obtain ⟨hi, rfl⟩ := hd
    exact {
      path_key := by simp [SValue.path, h.path_key]
      type_key := by simp [SValue.type, h.type_key, Ty.directElementType]
      root_key := h.root_key
      known_key := by simp [SValue.known, h.known_key]
      lvalue_key := .inr rfl
      root_owner := h.root_owner
      known_owner := h.known_owner
      below_owner := ⟨done ++ [i], sizes ++ [n], t, by simp [hpath], htype,
        by simp [hsizes, Ty.sizes], helem, List.rel_append hwithin (.cons hi .nil),
        by simp [hindex, number_concat hwithin]⟩ }
  | record n field =>
    simp only [Cursor.child, Option.ite_none_right_eq_some, Option.some.injEq] at hd
    obtain ⟨hi, rfl⟩ := hd
    have hall : t.sizes = sizes := by simpa [Ty.sizes] using hsizes
    have hdone : indices (owner.sizes P) index = done := by
      simp [SValue.sizes, htype, hall, hindex, indices_number hwithin]
    have hkey : (SValue.field i (.record owner index)).path P = p ++ [i] := by
      rw [SValue.path, hdone, hpath]
    have hkeyType : (SValue.field i (.record owner index)).type P.decl = some (field i) := by
      simp [SValue.type, htype, helem, Ty.elementType, Ty.fieldType, hi]
    exact {
      path_key := hkey
      type_key := hkeyType
      root_key := h.root_owner
      known_key := h.known_owner
      lvalue_key := .inl rfl
      root_owner := h.root_owner
      known_owner := h.known_owner
      below_owner := ⟨[], [], field i, by rw [hkey, List.append_nil], hkeyType, rfl, rfl,
        .nil, rfl⟩ }

theorem Located.walk (h : c.Located P x p) (hd : c.walk id q = some d) :
    d.Located P x (p ++ q) := by
  induction q generalizing c p with
  | nil =>
    cases hd
    simpa using h
  | cons i q ih =>
    obtain ⟨e, he, hd⟩ := Option.bind_eq_some_iff.mp hd
    simpa using ih (h.child he) hd

end Cursor

/-- The cursor of a place. -/
def Place.cursor (P : Program) (id : Nat) (p : Place) : Option Cursor :=
  (Cursor.start (.var p.root) (P.type p.root)).walk id p.path

namespace Place
variable {P : Program} {id : Nat} {p q : Place} {c d : Cursor}

theorem cursor_located (h : p.cursor P id = some c) : c.Located P p.root p.path :=
  (Cursor.located_start P p.root).walk h

theorem cursor_type (h : p.cursor P id = some c) : p.type P = some c.type :=
  Cursor.subAt_of_walk h

theorem exists_cursor {t : Ty} (id : Nat) (h : p.type P = some t) :
    ∃ c, p.cursor P id = some c ∧ c.type = t := Cursor.exists_walk id h

/-- A key belongs to one place. -/
theorem eq_of_key_eq {id' : Nat} (hp : p.cursor P id = some c) (hq : q.cursor P id' = some d)
    (h : c.key = d.key) : p = q := by
  have hp := cursor_located hp
  have hq := cursor_located hq
  have hroot : some p.root = some q.root := by rw [← hp.root_key, ← hq.root_key, h]
  have hpath : p.path = q.path := by rw [← hp.path_key, ← hq.path_key, h]
  cases p
  cases q
  simp_all

end Place
end SystemcCompiler.StateValues
