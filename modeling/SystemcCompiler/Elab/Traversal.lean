import SystemcCompiler.Elab.ProcBuilder

/-! The traversal of a module: it comes to every object once, in the context of modular
interfaces around it, and keeps the member variables of each context and no others. -/
namespace SystemcCompiler.ProcBuilder

/-- The module with what it contains, traversed like any record. -/
def Module.obj (m : Module) : Obj := .record .plain m.cls m.bases m.fields

/-- Objects of a module with the context they are in. Other modules are not entered. -/
inductive Inside (m : Module) : List Decl → Path → Obj → Prop where
  | module : Inside m [] [] m.obj
  | base {ctx : List Decl} {path : Path} {kind : RecordKind} {cls : ClassId} {bases : List Obj}
      {fields : List (Decl × Obj)} {i : Nat} {obj : Obj}
      (h : Inside m ctx path (.record kind cls bases fields)) (hkind : kind ≠ .module)
      (hobj : bases[i]? = some obj) : Inside m ctx (path ++ [.base i]) obj
  | field {ctx : List Decl} {path : Path} {kind : RecordKind} {cls : ClassId} {bases : List Obj}
      {fields : List (Decl × Obj)} {i : Nat} {d : Decl} {obj : Obj}
      (h : Inside m ctx path (.record kind cls bases fields)) (hkind : kind ≠ .module)
      (hobj : fields[i]? = some (d, obj)) : Inside m (d.push ctx) (path ++ [.field i]) obj
  | elem {ctx : List Decl} {path : Path} {type : Ty} {elems : List Obj} {i : Nat} {obj : Obj}
      (h : Inside m ctx path (.array type elems)) (hobj : elems[i]? = some obj) :
      Inside m ctx (path ++ [.elem i]) obj
  | pointee {ctx : List Decl} {path : Path} {type : Ty} {obj : Obj}
      (h : Inside m ctx path (.new type obj)) : Inside m ctx (path ++ [.pointee]) obj

/-- A variable for a field, in the context of the record that has it. -/
def MemberVar (m : Module) (ctx : List Decl) (path : Path) (d : Decl) (lval : SValue) : Prop :=
  ∃ kind cls bases fields obj, Inside m ctx path (.record kind cls bases fields) ∧
    kind ≠ .module ∧ (d, obj) ∈ fields ∧ d.isMemberVar ∧ lval = .var d (.record path cls)

namespace Builder

@[simp] theorem putValue_objSValMap (b : Builder) (lval rval : SValue) :
    (b.putValue lval rval).objSValMap = b.objSValMap := by
  unfold putValue
  split <;> rfl

@[simp] theorem putValue_mifArrayVars (b : Builder) (lval rval : SValue) :
    (b.putValue lval rval).mifArrayVars = b.mifArrayVars := by
  unfold putValue
  split <;> rfl

@[simp] theorem setSVal_mifArrayVars (b : Builder) (path : Path) (v : SValue) :
    (b.setSVal path v).mifArrayVars = b.mifArrayVars := rfl

theorem setSVal_objSValMap (b : Builder) {path q : Path} (v : SValue) (h : q ≠ path) :
    (b.setSVal path v).objSValMap q = b.objSValMap q := Function.update_of_ne h ..

/-- The state may differ, the visited objects and the variables kept for the contexts are the
same. -/
structure Puts (b b' : Builder) : Prop where
  map : b'.objSValMap = b.objSValMap
  vars : b'.mifArrayVars = b.mifArrayVars

theorem Puts.trans {b b' b'' : Builder} (h : Puts b b') (h' : Puts b' b'') : Puts b b'' :=
  ⟨h'.map.trans h.map, h'.vars.trans h.vars⟩

theorem puts_putValue (b : Builder) (lval rval : SValue) : Puts b (b.putValue lval rval) :=
  ⟨putValue_objSValMap .., putValue_mifArrayVars ..⟩

theorem puts_foldl {α : Type} {f : Builder → α → Builder} (h : ∀ b x, Puts b (f b x))
    (xs : List α) (b : Builder) : Puts b (xs.foldl f b) := by
  induction xs generalizing b with
  | nil => exact ⟨rfl, rfl⟩
  | cons x xs ih => exact (h b x).trans (ih (f b x))

theorem puts_resolvePointer (b : Builder) (ptr : Path × Pointee) :
    Puts b (b.resolvePointer ptr) := by
  unfold resolvePointer
  simp only
  split
  · exact puts_putValue ..
  · split
    · exact puts_putValue ..
    · exact ⟨rfl, rfl⟩

theorem puts_replaceArrayPointer (b : Builder) (ptr : SValue) :
    Puts b (b.replaceArrayPointer ptr) := by
  unfold replaceArrayPointer
  simp only
  split
  · exact puts_putValue ..
  · exact ⟨rfl, rfl⟩

theorem puts_closePointers (b : Builder) :
    Puts b b.resolvePointers.replaceArrayPointers := by
  have hresolve := puts_foldl puts_resolvePointer b.unresolvedPointers b
  have hreplace := puts_foldl puts_replaceArrayPointer b.resolvePointers.arrayPointers
    b.resolvePointers
  exact ⟨hreplace.map.trans hresolve.map, hreplace.vars.trans hresolve.vars⟩

theorem puts_createArrayInState (path : Path) (dims : List (Nat × Ty)) (b : Builder) :
    Puts b (createArrayInState path dims b).2 := by
  induction dims generalizing path b with
  | nil => exact ⟨rfl, rfl⟩
  | cons dim dims ih =>
    unfold createArrayInState
    exact puts_foldl (fun b i => (ih (path ++ [.elem i]) b).trans (puts_putValue ..)) _ b

end Builder
open Builder

variable {m : Module} {ctx : List Decl} {path q : Path} {b b' b'' : Builder} {v : SValue}

/-- What the traversal below a path does: it visits objects below the path, and adds variables
that are members inside of their context. -/
structure Traverses (m : Module) (path : Path) (b b' : Builder) : Prop where
  map : ∀ q, ¬path <+: q → b'.objSValMap q = b.objSValMap q
  vars : ∀ e, e ∈ b.mifArrayVars → e ∈ b'.mifArrayVars
  members : ∀ e, e ∈ b'.mifArrayVars →
    e ∈ b.mifArrayVars ∨ e.1 ≠ [] ∧ ∃ path d, MemberVar m e.1 path d e.2

theorem Builder.Puts.traverses (h : Puts b b') : Traverses m path b b' where
  map q _ := congrFun h.map q
  vars _ he := h.vars ▸ he
  members _ he := .inl (h.vars ▸ he)

theorem Traverses.refl : Traverses m path b b := Puts.traverses ⟨rfl, rfl⟩

theorem Traverses.trans (h : Traverses m path b b') (h' : Traverses m path b' b'') :
    Traverses m path b b'' where
  map q hq := (h'.map q hq).trans (h.map q hq)
  vars e he := h'.vars e (h.vars e he)
  members e he := (h'.members e he).elim (h.members e) .inr

theorem Traverses.above {s : Step} (h : Traverses m (path ++ [s]) b b') :
    Traverses m path b b' where
  map q hq := h.map q fun hp => hq ((List.prefix_append path [s]).trans hp)
  vars := h.vars
  members := h.members

theorem traverses_setSVal (h : path <+: q) : Traverses m path b (b.setSVal q v) where
  map _ hr := setSVal_objSValMap b v fun heq => hr (heq ▸ h)
  vars _ he := he
  members _ he := .inl he

theorem traverses_closeRecord (b : Builder) (record : SValue) :
    Traverses m path b (b.closeRecord path record) :=
  (puts_closePointers b).traverses.trans (traverses_setSVal List.prefix_rfl)

theorem openField_objSValMap (b : Builder) (ctx : List Decl) (record : SValue) (d : Decl) :
    (b.openField ctx record d).objSValMap = b.objSValMap := by
  unfold openField
  split <;> rfl

theorem Decl.isMemberVar_only {d : Decl} (h : d.isMemberVar) :
    d.isStatic = false ∧ d.isMifArrayVar = false := by
  unfold Decl.isMemberVar at h
  simp only [Bool.and_eq_true, Bool.not_eq_true'] at h
  exact h.1.1.1

/-- A member variable is in the context of its record. -/
theorem Decl.push_eq {d : Decl} (h : d.isMemberVar) (ctx : List Decl) : d.push ctx = ctx := by
  unfold Decl.push
  rw [if_neg (by simp [(Decl.isMemberVar_only h).2])]

theorem Decl.lval_eq {d : Decl} (h : d.isMemberVar) (record : SValue) :
    d.lval record = .var d record := by
  unfold Decl.lval
  rw [if_neg (by simp [(Decl.isMemberVar_only h).1])]

theorem traverses_openField {cls : ClassId} {d : Decl} {bases : List Obj} {kind : RecordKind}
    {fields : List (Decl × Obj)} {obj : Obj} (b : Builder)
    (h : Inside m ctx path (.record kind cls bases fields)) (hkind : kind ≠ .module)
    (hobj : (d, obj) ∈ fields) :
    Traverses m q b (b.openField (d.push ctx) (.record path cls) d) := by
  unfold openField
  split
  · rename_i hvar
    refine ⟨fun q _ => rfl, fun e he => List.mem_append_left _ he, fun e he => ?_⟩
    rcases List.mem_append.mp he with he | he
    · exact .inl he
    · cases List.mem_singleton.mp he
      rw [Decl.push_eq hvar.2] at hvar ⊢
      exact .inr ⟨hvar.1, path, d, kind, cls, bases, fields, obj, h, hkind, hobj, hvar.2,
        Decl.lval_eq hvar.2 _⟩
  · exact .refl

theorem traverses_closeField (h : path <+: q) (b : Builder) (lval rval : SValue) :
    Traverses m path b (b.closeField q lval rval) := by
  unfold closeField
  simp only
  split
  · exact (traverses_setSVal h).trans
      (Puts.traverses ⟨putValue_objSValMap .., putValue_mifArrayVars ..⟩)
  · exact (traverses_setSVal h).trans (puts_putValue ..).traverses

mutual

theorem traverse_traverses {obj : Obj} {b b' : Builder} {ctx : List Decl} {path : Path}
    {v : SValue} (hobj : Inside m ctx path obj) (h : traverse ctx path obj b = some (v, b')) :
    Traverses m path b b' := by
  unfold traverse at h
  split at h
  · cases h
    exact .refl
  · cases obj with
    | value v => cases h; exact .refl
    | noValue => cases h; exact .refl
    | channel => cases h; exact .refl
    | port pointee => cases h; exact .refl
    | null => cases h; exact .refl
    | pointer pointee =>
      simp only at h
      split at h
      · cases h
        exact .refl
      · split at h
        · contradiction
        · cases h
          exact Puts.traverses ⟨rfl, rfl⟩
    | new type obj =>
      simp only at h
      split at h
      · cases h
        exact .refl
      · obtain ⟨⟨rval, b₁⟩, hpointee, h⟩ := Option.map_eq_some_iff.mp h
        have hbelow := (traverse_traverses hobj.pointee hpointee).above
        have hset := hbelow.trans
          (traverses_setSVal (v := rval) (List.prefix_append path [.pointee]))
        simp only at h
        split at h
        · cases h
          exact hset
        · cases h
          exact hset.trans (puts_putValue ..).traverses
    | array type elems =>
      simp only at h
      obtain ⟨b₁, helems, h⟩ := Option.map_eq_some_iff.mp h
      cases h
      exact traverseElems_traverses (fun j o ho => by simpa using hobj.elem ho) helems
    | optimizedArray dims =>
      have hb : (createArrayInState path dims b).2 = b' := congrArg Prod.snd (Option.some.inj h)
      exact hb ▸ (puts_createArrayInState path dims b).traverses
    | record kind cls bases fields =>
      simp only at h
      split at h
      · cases h
        exact .refl
      · rename_i hkind
        obtain ⟨b₁, hbases, h⟩ := Option.bind_eq_some_iff.mp h
        obtain ⟨b₂, hfields, h⟩ := Option.bind_eq_some_iff.mp h
        cases h
        have h₁ := traverseBases_traverses
          (fun j o ho => by simpa using hobj.base hkind ho) hbases
        have h₂ := traverseFields_traverses hobj hkind (fun j o ho => by simpa using ho) hfields
        exact (h₁.trans h₂).trans (traverses_closeRecord b₂ _)

theorem traverseElems_traverses {elems : List Obj} {b b' : Builder} {ctx : List Decl}
    {path : Path} {type : Ty} {size i : Nat}
    (hobj : ∀ j o, elems[j]? = some o → Inside m ctx (path ++ [.elem (i + j)]) o)
    (h : traverseElems ctx path type size i elems b = some b') : Traverses m path b b' := by
  cases elems with
  | nil =>
    cases h
    exact .refl
  | cons elem elems =>
    unfold traverseElems at h
    obtain ⟨⟨rval, b₁⟩, helem, h⟩ := Option.bind_eq_some_iff.mp h
    have hbelow := (traverse_traverses (by simpa using hobj 0 elem rfl) helem).above
    have hrest := traverseElems_traverses (fun j o ho => by
      simpa [Nat.add_assoc, Nat.add_comm 1 j] using hobj (j + 1) o ho) h
    refine hbelow.trans (Traverses.trans ?_ hrest)
    refine Traverses.trans ?_ (traverses_setSVal (List.prefix_append path [.elem i]))
    split
    · exact (puts_putValue ..).traverses
    · exact .refl

theorem traverseBases_traverses {bases : List Obj} {b b' : Builder} {ctx : List Decl}
    {path : Path} {i : Nat}
    (hobj : ∀ j o, bases[j]? = some o → Inside m ctx (path ++ [.base (i + j)]) o)
    (h : traverseBases ctx path i bases b = some b') : Traverses m path b b' := by
  cases bases with
  | nil =>
    cases h
    exact .refl
  | cons base bases =>
    unfold traverseBases at h
    obtain ⟨⟨rval, b₁⟩, hbase, h⟩ := Option.bind_eq_some_iff.mp h
    have hbelow := (traverse_traverses (by simpa using hobj 0 base rfl) hbase).above
    exact hbelow.trans (traverseBases_traverses (fun j o ho => by
      simpa [Nat.add_assoc, Nat.add_comm 1 j] using hobj (j + 1) o ho) h)

theorem traverseFields_traverses {rest : List (Decl × Obj)} {b b' : Builder} {ctx : List Decl}
    {path : Path} {i : Nat} {kind : RecordKind} {cls : ClassId} {bases : List Obj}
    {fields : List (Decl × Obj)} (hobj : Inside m ctx path (.record kind cls bases fields))
    (hkind : kind ≠ .module) (hrest : ∀ j e, rest[j]? = some e → fields[i + j]? = some e)
    (h : traverseFields ctx path (.record path cls) i rest b = some b') :
    Traverses m path b b' := by
  match rest with
  | [] =>
    cases h
    exact .refl
  | (d, obj) :: rest =>
    have hd := hrest 0 (d, obj) rfl
    have hrest' : ∀ j e, rest[j]? = some e → fields[i + 1 + j]? = some e := fun j e he => by
      simpa [Nat.add_assoc, Nat.add_comm 1 j] using hrest (j + 1) e he
    unfold traverseFields at h
    split at h
    · exact traverseFields_traverses hobj hkind hrest' h
    · obtain ⟨⟨rval, b₁⟩, hfield, h⟩ := Option.bind_eq_some_iff.mp h
      have hopen := traverses_openField (q := path) b hobj hkind (List.mem_of_getElem? hd)
      have hbelow := (traverse_traverses (hobj.field hkind hd) hfield).above
      exact ((hopen.trans hbelow).trans
        (traverses_closeField (List.prefix_append path [.field i]) ..)).trans
        (traverseFields_traverses hobj hkind hrest' h)

end

/-- Nothing at the path or below it has been visited. -/
def Unvisited (b : Builder) (path : Path) : Prop := ∀ q, path <+: q → b.objSValMap q = none

theorem eq_of_below {s s' : Step} (h : path ++ [s] <+: q) (h' : path ++ [s'] <+: q) : s = s' := by
  obtain ⟨r, rfl⟩ := h
  obtain ⟨r', h'⟩ := h'
  simp only [List.append_assoc, List.append_cancel_left_eq, List.cons_append, List.nil_append,
    List.cons.injEq] at h'
  exact h'.1.symm

theorem Unvisited.traverses {s s' : Step} (h : Unvisited b (path ++ [s]))
    (ht : Traverses m (path ++ [s']) b b') (hs : s' ≠ s) : Unvisited b' (path ++ [s]) :=
  fun q hq => (ht.map q fun hq' => hs (eq_of_below hq' hq)).trans (h q hq)

/-- The object was traversed in its context when nothing of it had been visited. -/
def Visited (m : Module) (b' : Builder) (ctx : List Decl) (path : Path) (obj : Obj) : Prop :=
  ∃ b₀ b₁ v, traverse ctx path obj b₀ = some (v, b₁) ∧ Unvisited b₀ path ∧
    Traverses m [] b₁ b'

theorem Visited.trans {obj : Obj} (h : Visited m b ctx path obj) (h' : Traverses m [] b b') :
    Visited m b' ctx path obj := by
  obtain ⟨b₀, b₁, v, htraverse, hun, hb⟩ := h
  exact ⟨b₀, b₁, v, htraverse, hun, hb.trans h'⟩

theorem Traverses.root (h : Traverses m path b b') : Traverses m [] b b' where
  map _ hq := (hq List.nil_prefix).elim
  vars := h.vars
  members := h.members

theorem traverseElems_visited {elems : List Obj} {type : Ty} {size i j : Nat} {obj : Obj}
    (hobj : ∀ j o, elems[j]? = some o → Inside m ctx (path ++ [.elem (i + j)]) o)
    (hun : ∀ j, Unvisited b (path ++ [.elem (i + j)]))
    (h : traverseElems ctx path type size i elems b = some b') (hj : elems[j]? = some obj) :
    Visited m b' ctx (path ++ [.elem (i + j)]) obj := by
  induction elems generalizing i j b with
  | nil => contradiction
  | cons elem elems ih =>
    unfold traverseElems at h
    obtain ⟨⟨rval, b₁⟩, helem, hnext⟩ := Option.bind_eq_some_iff.mp h
    have hinside : Inside m ctx (path ++ [.elem i]) elem := by simpa using hobj 0 elem rfl
    have hrest : ∀ j o, elems[j]? = some o → Inside m ctx (path ++ [.elem (i + 1 + j)]) o :=
      fun j o ho => by simpa [Nat.add_assoc, Nat.add_comm 1 j] using hobj (j + 1) o ho
    have hfirst := traverse_traverses hinside helem
    have hset : Traverses m (path ++ [.elem i]) b₁ ((if i = 0 || !rval.isScChannel then
        b₁.putValue (.array path type size i) rval else b₁).setSVal (path ++ [.elem i])
        (.array path type size i)) := by
      apply Traverses.trans _ (traverses_setSVal List.prefix_rfl)
      split
      · exact (puts_putValue ..).traverses
      · exact .refl
    cases j with
    | zero =>
      cases hj
      refine ⟨b, b₁, rval, helem, hun 0, hset.root.trans ?_⟩
      exact (traverseElems_traverses hrest hnext).root
    | succ j =>
      have hlater : ∀ j, Unvisited _ (path ++ [.elem (i + 1 + j)]) := fun j =>
        Unvisited.traverses (by simpa [Nat.add_assoc, Nat.add_comm 1 j] using hun (j + 1))
          (hfirst.trans hset) (by simp; omega)
      have hvisited := ih hrest hlater hnext hj
      rwa [show i + 1 + j = i + (j + 1) by omega] at hvisited

theorem traverseBases_visited {bases : List Obj} {i j : Nat} {obj : Obj}
    (hobj : ∀ j o, bases[j]? = some o → Inside m ctx (path ++ [.base (i + j)]) o)
    (hun : ∀ j, Unvisited b (path ++ [.base (i + j)]))
    (h : traverseBases ctx path i bases b = some b') (hj : bases[j]? = some obj) :
    Visited m b' ctx (path ++ [.base (i + j)]) obj := by
  induction bases generalizing i j b with
  | nil => contradiction
  | cons base bases ih =>
    unfold traverseBases at h
    obtain ⟨⟨rval, b₁⟩, hbase, hnext⟩ := Option.bind_eq_some_iff.mp h
    have hinside : Inside m ctx (path ++ [.base i]) base := by simpa using hobj 0 base rfl
    have hrest : ∀ j o, bases[j]? = some o → Inside m ctx (path ++ [.base (i + 1 + j)]) o :=
      fun j o ho => by simpa [Nat.add_assoc, Nat.add_comm 1 j] using hobj (j + 1) o ho
    cases j with
    | zero =>
      cases hj
      exact ⟨b, b₁, rval, hbase, hun 0, (traverseBases_traverses hrest hnext).root⟩
    | succ j =>
      have hlater : ∀ j, Unvisited b₁ (path ++ [.base (i + 1 + j)]) := fun j =>
        Unvisited.traverses (by simpa [Nat.add_assoc, Nat.add_comm 1 j] using hun (j + 1))
          (traverse_traverses hinside hbase) (by simp; omega)
      have hvisited := ih hrest hlater hnext hj
      rwa [show i + 1 + j = i + (j + 1) by omega] at hvisited

theorem traverseFields_visited {kind : RecordKind} {cls : ClassId} {bases : List Obj}
    {fields rest : List (Decl × Obj)} {i j : Nat} {d : Decl} {obj : Obj}
    (hobj : Inside m ctx path (.record kind cls bases fields)) (hkind : kind ≠ .module)
    (hrest : ∀ j e, rest[j]? = some e → fields[i + j]? = some e)
    (hun : ∀ j, Unvisited b (path ++ [.field (i + j)]))
    (h : traverseFields ctx path (.record path cls) i rest b = some b')
    (hj : rest[j]? = some (d, obj)) :
    Visited m b' (d.push ctx) (path ++ [.field (i + j)]) obj ∧
      (d.push ctx ≠ [] → d.isMemberVar →
        (d.push ctx, d.lval (.record path cls)) ∈ b'.mifArrayVars) := by
  induction rest generalizing i j b with
  | nil => contradiction
  | cons field rest ih =>
    obtain ⟨d', obj'⟩ := field
    have hnone : b.objSValMap (path ++ [.field i]) = none := hun 0 _ List.prefix_rfl
    have hd' := hrest 0 (d', obj') rfl
    have hrest' : ∀ j e, rest[j]? = some e → fields[i + 1 + j]? = some e := fun j e he => by
      simpa [Nat.add_assoc, Nat.add_comm 1 j] using hrest (j + 1) e he
    unfold traverseFields at h
    rw [hnone] at h
    obtain ⟨⟨rval, b₁⟩, hfield, hnext⟩ := Option.bind_eq_some_iff.mp h
    have hinside : Inside m (d'.push ctx) (path ++ [.field i]) obj' := hobj.field hkind hd'
    have hopen := traverses_openField (q := path ++ [.field i]) b hobj hkind
      (List.mem_of_getElem? hd')
    have hfirst := traverse_traverses hinside hfield
    have hclose := traverses_closeField (m := m) (q := path ++ [.field i]) List.prefix_rfl b₁
      (d'.lval (.record path cls)) rval
    have hafter := traverseFields_traverses hobj hkind hrest' hnext
    cases j with
    | zero =>
      cases hj
      have hsame := openField_objSValMap b (d.push ctx) (.record path cls) d
      refine ⟨⟨_, b₁, rval, hfield, fun q hq => ?_, hclose.root.trans hafter.root⟩, ?_⟩
      · rw [hsame]
        exact hun 0 q hq
      · intro hctx hvar
        apply hafter.vars _ (hclose.vars _ (hfirst.vars _ _))
        unfold openField
        rw [if_pos ⟨hctx, hvar⟩]
        exact List.mem_append_right _ List.mem_cons_self
    | succ j =>
      have hlater : ∀ j, Unvisited _ (path ++ [.field (i + 1 + j)]) := fun j =>
        Unvisited.traverses (by simpa [Nat.add_assoc, Nat.add_comm 1 j] using hun (j + 1))
          ((hopen.trans hfirst).trans hclose) (by simp; omega)
      have hvisited := ih hrest' hlater hnext hj
      rwa [show i + 1 + j = i + (j + 1) by omega] at hvisited

theorem traverseBases_unvisited {bases : List Obj} {i k : Nat}
    (hobj : ∀ j o, bases[j]? = some o → Inside m ctx (path ++ [.base (i + j)]) o)
    (hun : Unvisited b (path ++ [.field k])) (h : traverseBases ctx path i bases b = some b') :
    Unvisited b' (path ++ [.field k]) := by
  induction bases generalizing i b with
  | nil =>
    cases h
    exact hun
  | cons base bases ih =>
    unfold traverseBases at h
    obtain ⟨⟨rval, b₁⟩, hbase, hnext⟩ := Option.bind_eq_some_iff.mp h
    have hinside : Inside m ctx (path ++ [.base i]) base := by simpa using hobj 0 base rfl
    exact ih (fun j o ho => by simpa [Nat.add_assoc, Nat.add_comm 1 j] using hobj (j + 1) o ho)
      (hun.traverses (traverse_traverses hinside hbase) (by simp)) hnext

/-- What the object contains was traversed when nothing of it had been visited. -/
def Entered (m : Module) (b' : Builder) (ctx : List Decl) (path : Path) : Obj → Prop
  | .record kind cls bases fields => kind ≠ .module → ∃ b₀ b₁ b₂,
    traverseBases ctx path 0 bases b₀ = some b₁ ∧
      traverseFields ctx path (.record path cls) 0 fields b₁ = some b₂ ∧
      (∀ s, Unvisited b₀ (path ++ [s])) ∧ Traverses m [] b₂ b'
  | .array type elems => ∃ b₀ b₁,
    traverseElems ctx path type elems.length 0 elems b₀ = some b₁ ∧
      (∀ s, Unvisited b₀ (path ++ [s])) ∧ Traverses m [] b₁ b'
  | .new _ obj => Visited m b' ctx (path ++ [.pointee]) obj
  | _ => True

theorem Unvisited.below (h : Unvisited b path) (s : Step) : Unvisited b (path ++ [s]) :=
  fun q hq => h q ((List.prefix_append path [s]).trans hq)

theorem Visited.entered {obj : Obj} (h : Visited m b' ctx path obj) :
    Entered m b' ctx path obj := by
  obtain ⟨b₀, b₁, v, htraverse, hun, hb⟩ := h
  unfold traverse at htraverse
  rw [hun path List.prefix_rfl] at htraverse
  cases obj with
  | new type obj =>
    simp only [hun.below .pointee _ List.prefix_rfl] at htraverse
    obtain ⟨⟨rval, b₂⟩, hpointee, hclose⟩ := Option.map_eq_some_iff.mp htraverse
    refine ⟨b₀, b₂, rval, hpointee, hun.below .pointee, Traverses.trans ?_ hb⟩
    simp only at hclose
    split at hclose
    · cases hclose
      exact traverses_setSVal List.nil_prefix
    · cases hclose
      exact (traverses_setSVal List.nil_prefix).trans (puts_putValue ..).traverses
  | array type elems =>
    obtain ⟨b₂, helems, hclose⟩ := Option.map_eq_some_iff.mp htraverse
    cases hclose
    exact ⟨b₀, b₁, helems, hun.below, hb⟩
  | record kind cls bases fields =>
    intro hkind
    simp only [hkind, if_false] at htraverse
    obtain ⟨b₂, hbases, htraverse⟩ := Option.bind_eq_some_iff.mp htraverse
    obtain ⟨b₃, hfields, hclose⟩ := Option.bind_eq_some_iff.mp htraverse
    cases hclose
    exact ⟨b₀, b₂, b₃, hbases, hfields, hun.below,
      (traverses_closeRecord b₃ (.record path cls)).root.trans hb⟩
  | _ => trivial

theorem traverseModule_entered (h : traverseModule m = some b) : Entered m b [] [] m.obj := by
  intro hkind
  unfold traverseModule at h
  obtain ⟨b₁, hbases, h⟩ := Option.bind_eq_some_iff.mp h
  obtain ⟨b₂, hfields, h⟩ := Option.bind_eq_some_iff.mp h
  cases h
  refine ⟨_, b₁, b₂, hbases, hfields, fun s q hq => ?_, (traverses_closeRecord b₂ _).root⟩
  have hq : q ≠ [] := by
    rintro rfl
    simp at hq
  rw [setSVal_objSValMap _ _ hq, putValue_objSValMap]
  rfl

section
variable {kind : RecordKind} {cls : ClassId} {bases : List Obj} {fields : List (Decl × Obj)}

theorem Entered.base {i : Nat} {obj : Obj}
    (h : Entered m b ctx path (.record kind cls bases fields))
    (hinside : Inside m ctx path (.record kind cls bases fields)) (hkind : kind ≠ .module)
    (hobj : bases[i]? = some obj) : Visited m b ctx (path ++ [.base i]) obj := by
  obtain ⟨b₀, b₁, b₂, hbases, hfields, hun, hb⟩ := h hkind
  have hrest := traverseFields_traverses hinside hkind (fun j e he => by simpa using he) hfields
  have hvisited := traverseBases_visited (fun j o ho => by simpa using hinside.base hkind ho)
    (fun j => hun _) hbases hobj
  rw [Nat.zero_add] at hvisited
  exact hvisited.trans (hrest.root.trans hb)

theorem Entered.field {i : Nat} {d : Decl} {obj : Obj}
    (h : Entered m b ctx path (.record kind cls bases fields))
    (hinside : Inside m ctx path (.record kind cls bases fields)) (hkind : kind ≠ .module)
    (hobj : fields[i]? = some (d, obj)) :
    Visited m b (d.push ctx) (path ++ [.field i]) obj ∧
      (d.push ctx ≠ [] → d.isMemberVar →
        (d.push ctx, d.lval (.record path cls)) ∈ b.mifArrayVars) := by
  obtain ⟨b₀, b₁, b₂, hbases, hfields, hun, hb⟩ := h hkind
  have hbase : ∀ j o, bases[j]? = some o → Inside m ctx (path ++ [.base (0 + j)]) o :=
    fun j o ho => by simpa using hinside.base hkind ho
  have hvisited := traverseFields_visited hinside hkind (fun j e he => by simpa using he)
    (fun j => traverseBases_unvisited hbase (hun _) hbases) hfields hobj
  rw [Nat.zero_add] at hvisited
  exact ⟨hvisited.1.trans hb, fun hctx hvar => hb.vars _ (hvisited.2 hctx hvar)⟩

end

/-- Every object inside of the module is traversed once, in its context. -/
theorem inside_entered {obj : Obj} (hm : traverseModule m = some b)
    (h : Inside m ctx path obj) : Entered m b ctx path obj := by
  induction h with
  | module => exact traverseModule_entered hm
  | base h hkind hobj ih => exact (ih.base h hkind hobj).entered
  | field h hkind hobj ih => exact (ih.field h hkind hobj).1.entered
  | elem h hobj ih =>
    obtain ⟨b₀, b₁, helems, hun, hb⟩ := ih
    have hvisited := traverseElems_visited (fun j o ho => by simpa using h.elem ho)
      (fun j => hun _) helems hobj
    rw [Nat.zero_add] at hvisited
    exact (hvisited.trans hb).entered
  | pointee h ih => exact ih.entered

/-- Every member variable inside of a context is kept for it. -/
theorem MemberVar.mem {d : Decl} {lval : SValue} (hm : traverseModule m = some b)
    (h : MemberVar m ctx path d lval) (hctx : ctx ≠ []) : (ctx, lval) ∈ b.mifArrayVars := by
  obtain ⟨kind, cls, bases, fields, obj, hinside, hkind, hobj, hvar, rfl⟩ := h
  obtain ⟨i, hi⟩ := List.getElem?_of_mem hobj
  have hmem := ((inside_entered hm hinside).field hinside hkind hi).2
  rw [Decl.push_eq hvar, Decl.lval_eq hvar] at hmem
  exact hmem hctx hvar

/-- Nothing else is kept for a context. -/
theorem memberVar_of_mem {lval : SValue} (hm : traverseModule m = some b)
    (h : (ctx, lval) ∈ b.mifArrayVars) : ctx ≠ [] ∧ ∃ path d, MemberVar m ctx path d lval := by
  unfold traverseModule at hm
  obtain ⟨b₁, hbases, hm⟩ := Option.bind_eq_some_iff.mp hm
  obtain ⟨b₂, hfields, hm⟩ := Option.bind_eq_some_iff.mp hm
  cases hm
  have hinside : Inside m [] [] m.obj := .module
  have h₁ := traverseBases_traverses (fun j o ho => by simpa using hinside.base nofun ho) hbases
  have h₂ := traverseFields_traverses hinside nofun (fun j e he => by simpa using he) hfields
  have hall := (h₁.trans h₂).trans (traverses_closeRecord b₂ (.record [] m.cls))
  apply (hall.members (ctx, lval) h).resolve_left
  rw [setSVal_mifArrayVars, putValue_mifArrayVars]
  exact List.not_mem_nil

theorem snoc_inj {p q : Path} {a b : Step} (h : p ++ [a] = q ++ [b]) : p = q ∧ a = b := by
  obtain ⟨hp, hs⟩ := List.append_inj' h rfl
  exact ⟨hp, (List.cons.inj hs).1⟩

/-- A path has one object and one context. -/
theorem Inside.unique {ctx' : List Decl} {path' : Path} {obj obj' : Obj}
    (h : Inside m ctx path obj) (h' : Inside m ctx' path' obj') (hpath : path = path') :
    ctx = ctx' ∧ obj = obj' := by
  induction h generalizing ctx' path' obj' with
  | module =>
    cases h' with
    | module => exact ⟨rfl, rfl⟩
    | _ => simp at hpath
  | base h hkind hobj ih =>
    cases h' with
    | module => simp at hpath
    | base h' _ hobj' =>
      obtain ⟨hp, hs⟩ := snoc_inj hpath
      obtain ⟨hctx, hrec⟩ := ih h' hp
      cases hs
      cases hrec
      exact ⟨hctx, Option.some.inj (hobj.symm.trans hobj')⟩
    | _ => cases (snoc_inj hpath).2
  | field h hkind hobj ih =>
    cases h' with
    | module => simp at hpath
    | field h' _ hobj' =>
      obtain ⟨hp, hs⟩ := snoc_inj hpath
      obtain ⟨hctx, hrec⟩ := ih h' hp
      cases hs
      cases hrec
      cases Option.some.inj (hobj.symm.trans hobj')
      exact ⟨hctx ▸ rfl, rfl⟩
    | _ => cases (snoc_inj hpath).2
  | elem h hobj ih =>
    cases h' with
    | module => simp at hpath
    | elem h' hobj' =>
      obtain ⟨hp, hs⟩ := snoc_inj hpath
      obtain ⟨hctx, harr⟩ := ih h' hp
      cases hs
      cases harr
      exact ⟨hctx, Option.some.inj (hobj.symm.trans hobj')⟩
    | _ => cases (snoc_inj hpath).2
  | pointee h ih =>
    cases h' with
    | module => simp at hpath
    | pointee h' =>
      obtain ⟨hp, _⟩ := snoc_inj hpath
      obtain ⟨hctx, hnew⟩ := ih h' hp
      cases hnew
      exact ⟨hctx, rfl⟩
    | _ => cases (snoc_inj hpath).2

/-- A variable is a member of one context. -/
theorem MemberVar.ctx_unique {ctx' : List Decl} {path' : Path} {d d' : Decl} {lval : SValue}
    (h : MemberVar m ctx path d lval) (h' : MemberVar m ctx' path' d' lval) : ctx = ctx' := by
  obtain ⟨kind, cls, bases, fields, obj, hinside, _, _, _, rfl⟩ := h
  obtain ⟨kind', cls', bases', fields', obj', hinside', _, _, _, heq⟩ := h'
  simp only [SValue.var.injEq, SValue.record.injEq] at heq
  exact (hinside.unique hinside' heq.2.1).1

end SystemcCompiler.ProcBuilder
