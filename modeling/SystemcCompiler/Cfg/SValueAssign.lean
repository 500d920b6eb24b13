import SystemcCompiler.Library.ApsInt

/-! Copies of an `SValue`: the copy constructor, and the assignment that leaves the value as
it is where `operator ==` finds no difference. -/
namespace SystemcCompiler.SValueAssign

inductive Radix where
  | dec | hex | bin | oct | zeroWidth
  deriving DecidableEq

/-- Values with what they own: a variable its parent, a record also its bases and the
variable it belongs to. -/
inductive SValue (D T C : Type) where
  | unknown
  | integer (radix : Radix) (integer : ApsInt)
  | channel (channel : C)
  | var (decl : D) (parent : SValue D T C)
  | tmpVar (type : T) (id : Nat) (parent : SValue D T C)
  | object (id : Nat) (type : T) (isOwner : Bool)
  | array (id : Nat) (type : T) (isOwner : Bool) (size offset : Nat) (isUnknown : Bool)
  | record (id : Nat) (type : T) (isOwner : Bool) (bases : List (SValue D T C))
      (parent var : SValue D T C) (index : Nat)

namespace SValue
variable {D T C : Type}

def isUnknown : SValue D T C → Bool
  | unknown => true
  | _ => false

/-- `operator ==`. The radix of integers is not looked at, objects are told apart by their
numbers, and records of variables by the variable, the type and the index. -/
def eq [DecidableEq D] [DecidableEq T] [DecidableEq C] : SValue D T C → SValue D T C → Bool
  | unknown, unknown => true
  | integer _ i, integer _ i' => i = i'
  | channel c, channel c' => c = c'
  | var d p, var d' p' => d = d' && p.eq p'
  | tmpVar _ n p, tmpVar _ n' p' => n = n' && p.eq p'
  | object n _ _, object n' _ _ => n = n'
  | array n _ _ s o u, array n' _ _ s' o' u' => n = n' && s = s' && o = o' && u = u'
  | record n t _ _ _ v i, record n' t' _ _ _ v' i' =>
    if v.isUnknown then n = n' else v.eq v' && t = t' && i = i'
  | _, _ => false

mutual

/-- The copy constructor, with those of what the value owns. -/
def copy : SValue D T C → SValue D T C
  | unknown => unknown
  | integer r i => integer r i
  | channel c => channel c
  | var d p => var d p.copy
  | tmpVar t n p => tmpVar t n p.copy
  | object n t o => object n t o
  | array n t o s f u => array n t o s f u
  | record n t o bs p v i => record n t o (copyAll bs) p.copy v.copy i

def copyAll : List (SValue D T C) → List (SValue D T C)
  | [] => []
  | b :: bs => b.copy :: copyAll bs

end

/-- What `getParent` and the fields of a record refer to inside of a value. -/
inductive Part where
  | parent
  | var
  | base (i : Nat)

def part : SValue D T C → Part → Option (SValue D T C)
  | var _ p, .parent => some p
  | tmpVar _ _ p, .parent => some p
  | record _ _ _ _ p _ _, .parent => some p
  | record _ _ _ _ _ v _, .var => some v
  | record _ _ _ bs _ _ _, .base i => bs[i]?
  | _, _ => none

/-- The right side of an assignment: another value, or the value itself or a part of it. -/
inductive Rhs (D T C : Type) where
  | value (b : SValue D T C)
  | part (path : List Part)

def Rhs.read (a : SValue D T C) : Rhs D T C → Option (SValue D T C)
  | .value b => some b
  | .part path => path.foldlM SValue.part a

/-- `operator =`. What the value owns is destroyed before the right side is copied, so a
part of it is read when it is gone: there is no value. -/
def assign [DecidableEq D] [DecidableEq T] [DecidableEq C] (a : SValue D T C)
    (rhs : Rhs D T C) : Option (SValue D T C) := do
  let b ← rhs.read a
  if a.eq b then some a
  else
    match rhs with
    | .value b => some b.copy
    | .part _ => none

/-- The fields that `operator ==` leaves out, where it holds: the radix, the type and the
owner flag, and of a record more, which depends on whether a variable owns it. -/
def SameRest : SValue D T C → SValue D T C → Prop
  | integer r _, integer r' _ => r = r'
  | var _ p, var _ p' => p.SameRest p'
  | tmpVar t _ p, tmpVar t' _ p' => t = t' ∧ p.SameRest p'
  | object _ t o, object _ t' o' => t = t' ∧ o = o'
  | array _ t o _ _ _, array _ t' o' _ _ _ => t = t' ∧ o = o'
  | record n t o bs p v i, record n' t' o' bs' p' v' i' =>
    o = o' ∧ bs = bs' ∧ p = p' ∧
      if v.isUnknown then v'.isUnknown = true ∧ t = t' ∧ i = i' else n = n' ∧ v.SameRest v'
  | _, _ => True

mutual

theorem copy_eq : ∀ a : SValue D T C, a.copy = a
  | unknown => rfl
  | integer _ _ => rfl
  | channel _ => rfl
  | var d p => by rw [copy, copy_eq p]
  | tmpVar t n p => by rw [copy, copy_eq p]
  | object _ _ _ => rfl
  | array _ _ _ _ _ _ => rfl
  | record n t o bs p v i => by rw [copy, copyAll_eq bs, copy_eq p, copy_eq v]

theorem copyAll_eq : ∀ bs : List (SValue D T C), copyAll bs = bs
  | [] => rfl
  | b :: bs => by rw [copyAll, copy_eq b, copyAll_eq bs]

end

theorem eq_unknown {a : SValue D T C} (h : a.isUnknown = true) : a = unknown := by
  cases a <;> first | rfl | cases h

theorem sizeOf_part {a b : SValue D T C} {s : Part} (h : a.part s = some b) :
    sizeOf b < sizeOf a := by
  cases a <;> cases s <;> simp only [part, Option.some.injEq, reduceCtorEq] at h
  all_goals first
    | subst h
      simp only [var.sizeOf_spec, tmpVar.sizeOf_spec, record.sizeOf_spec]
      omega
    | have hmem := List.sizeOf_lt_of_mem (List.mem_of_getElem? h)
      simp only [record.sizeOf_spec]
      omega

/-- A part is smaller than the value. -/
theorem ne_of_path {a b : SValue D T C} {path : List Part}
    (h : path.foldlM SValue.part a = some b) (hpath : path ≠ []) : a ≠ b := by
  have hle : ∀ (path : List Part) (a : SValue D T C), path.foldlM SValue.part a = some b →
      sizeOf b ≤ sizeOf a := by
    intro path
    induction path with
    | nil =>
      intro a h
      cases h
      exact Nat.le_refl _
    | cons s path ih =>
      intro a h
      obtain ⟨c, hc, h⟩ := Option.bind_eq_some_iff.mp h
      exact Nat.le_trans (ih c h) (Nat.le_of_lt (sizeOf_part hc))
  cases path with
  | nil => exact absurd rfl hpath
  | cons s path =>
    obtain ⟨c, hc, h⟩ := Option.bind_eq_some_iff.mp h
    rintro rfl
    exact absurd (hle path c h) (Nat.not_le_of_lt (sizeOf_part hc))

variable [DecidableEq D] [DecidableEq T] [DecidableEq C]

theorem eq_refl : ∀ a : SValue D T C, a.eq a = true
  | unknown => rfl
  | integer _ _ => by simp [eq]
  | channel _ => by simp [eq]
  | var _ p => by simp [eq, eq_refl p]
  | tmpVar _ _ p => by simp [eq, eq_refl p]
  | object _ _ _ => by simp [eq]
  | array _ _ _ _ _ _ => by simp [eq]
  | record _ _ _ _ _ v _ => by simp [eq, eq_refl v]

/-- What `operator ==` compares and what it leaves out make the value. -/
theorem sameRest_iff : ∀ a b : SValue D T C, a.eq b = true → (a.SameRest b ↔ a = b)
  | unknown, b, h => by cases b <;> simp_all [eq, SameRest]
  | integer _ _, b, h => by cases b <;> simp_all [eq, SameRest]
  | channel _, b, h => by cases b <;> simp_all [eq, SameRest]
  | object _ _ _, b, h => by cases b <;> simp_all [eq, SameRest]
  | array _ _ _ _ _ _, b, h => by cases b <;> simp_all [eq, SameRest]
  | var d p, b, h => by
    cases b with
    | var d' p' =>
      simp only [eq, Bool.and_eq_true, decide_eq_true_eq] at h
      rw [SameRest, sameRest_iff p p' h.2, h.1, var.injEq, eq_self_iff_true, true_and]
    | _ => cases h
  | tmpVar t n p, b, h => by
    cases b with
    | tmpVar t' n' p' =>
      simp only [eq, Bool.and_eq_true, decide_eq_true_eq] at h
      rw [SameRest, sameRest_iff p p' h.2, h.1, tmpVar.injEq, eq_self_iff_true, true_and]
    | _ => cases h
  | record n t o bs p v i, b, h => by
    cases b with
    | record n' t' o' bs' p' v' i' =>
      rw [eq] at h
      rw [SameRest, record.injEq]
      cases hv : v.isUnknown with
      | true =>
        rw [hv, if_pos rfl] at h
        have hn : n = n' := by simpa using h
        have hunknown : v'.isUnknown = true ↔ v = v' := by
          rw [eq_unknown hv]
          exact ⟨fun hv' => (eq_unknown hv').symm, fun hv' => hv' ▸ rfl⟩
        rw [if_pos rfl, hunknown]
        tauto
      | false =>
        rw [hv, if_neg Bool.false_ne_true] at h
        simp only [Bool.and_eq_true, decide_eq_true_eq] at h
        obtain ⟨⟨hvar, ht⟩, hi⟩ := h
        rw [if_neg Bool.false_ne_true, sameRest_iff v v' hvar]
        tauto
    | _ => cases h

/-- An assignment gives a copy of the right side exactly if that is no part of the value, and
where `operator ==` holds it differs in no field. Self-assignment changes nothing. -/
theorem assign_copy_iff (a b : SValue D T C) (rhs : Rhs D T C) (h : rhs.read a = some b) :
    (a.assign rhs = some b.copy ↔
      (∀ path, rhs = .part path → path = []) ∧ (a.eq b = true → a.SameRest b)) ∧
    a.assign (.part []) = some a ∧ a.assign (.value a) = some a := by
  have hself : ∀ rhs : Rhs D T C, rhs.read a = some a → a.assign rhs = some a := by
    intro rhs h
    simp [assign, h, eq_refl]
  refine ⟨?_, hself _ rfl, hself _ rfl⟩
  rw [copy_eq]
  cases heq : a.eq b with
  | true =>
    have hassign : a.assign rhs = some a := by simp [assign, h, heq]
    rw [hassign, Option.some.injEq, sameRest_iff a b heq]
    refine ⟨fun hab => ⟨fun path hrhs => ?_, fun _ => hab⟩, fun hab => hab.2 rfl⟩
    rw [hrhs] at h
    by_contra hpath
    exact ne_of_path h hpath hab
  | false =>
    cases rhs with
    | value c =>
      obtain rfl := Option.some.inj h
      simp [assign, h, heq, copy_eq]
    | part path =>
      have hassign : a.assign (.part path) = none := by simp [assign, h, heq]
      rw [hassign]
      refine ⟨nofun, fun hab => ?_⟩
      rw [hab.1 path rfl] at h
      obtain rfl := Option.some.inj h
      rw [eq_refl] at heq
      cases heq

/-- A new value takes all fields of the right side. -/
theorem assign_copy_iff_new :
    assign (.unknown : SValue Nat Nat Nat) (.value (.integer .hex (.of 32 true 5))) =
      some (.integer .hex (.of 32 true 5)) :=
  (assign_copy_iff .unknown _ (.value (.integer .hex (.of 32 true 5))) rfl).1.mpr
    ⟨nofun, nofun⟩

/-- The radix is not assigned to an equal integer, and a variable cannot be assigned its
own parent. -/
theorem assign_differs :
    assign (.integer .dec (.of 32 true 5) : SValue Nat Nat Nat)
      (.value (.integer .hex (.of 32 true 5))) = some (.integer .dec (.of 32 true 5)) ∧
    assign (.integer .dec (.of 32 true 5) : SValue Nat Nat Nat)
      (.value (.integer .hex (.of 32 true 5))) ≠
        some (copy (.integer .hex (.of 32 true 5))) ∧
    Rhs.read (.var 1 (.var 0 .unknown) : SValue Nat Nat Nat) (.part [.parent]) =
      some (.var 0 .unknown) ∧
    assign (.var 1 (.var 0 .unknown) : SValue Nat Nat Nat) (.part [.parent]) = none := by
  have hkept : assign (.integer .dec (.of 32 true 5) : SValue Nat Nat Nat)
      (.value (.integer .hex (.of 32 true 5))) = some (.integer .dec (.of 32 true 5)) := rfl
  refine ⟨hkept, ?_, rfl, rfl⟩
  rw [hkept, copy_eq]
  simp

end SValue

end SystemcCompiler.SValueAssign
