import SystemcCompiler.Library.ApsInt
import SystemcCompiler.Cfg.UseDef

/-! `ScState::join` where control flow paths meet, and the states it gives at the blocks of
an acyclic control flow graph. -/
namespace SystemcCompiler.Cfg
open InsertionOrderSet

/-- Right part of a tuple. -/
inductive TupleValue (β : Type) where
  | integer (val : ApsInt) (radix : Nat)
  | object (o : β)

namespace TupleValue
variable {β : Type} [DecidableEq β]

/-- `operator ==` of `SValue`: integers by width, sign and value, not by radix. -/
def same : TupleValue β → TupleValue β → Bool
  | .integer v _, .integer w _ => v = w
  | .object a, .object b => a = b
  | _, _ => false

theorem same_refl (v : TupleValue β) : v.same v = true := by
  cases v <;> simp [same]

theorem same_comm (v w : TupleValue β) : v.same w = w.same v := by
  cases v <;> cases w <;> simp [same, eq_comm]

theorem same_trans {u v w : TupleValue β} (huv : u.same v = true) (hvw : v.same w = true) :
    u.same w = true := by
  cases u <;> cases v <;> cases w <;> simp_all [same]

end TupleValue

abbrev Tuples (α β : Type) := α → Option (TupleValue β)

/-- The tuple is there, with the value up to its radix. -/
def Leaves {β : Type} [DecidableEq β] (stored : Option (TupleValue β)) (v : TupleValue β) : Prop :=
  ∃ w, stored = some w ∧ w.same v = true

/-- The use/def sets are without repetition. Values are scalar variables. -/
structure ScState (α β : Type) where
  dead : Bool
  tuples : Tuples α β
  levels : List (List α)
  maxLevel : Nat
  sets : UseDef α
  access : List α
  defallpath_nodup : sets.defallpath.Nodup
  defsomepath_nodup : sets.defsomepath.Nodup

section
variable {α β : Type} [DecidableEq α] [DecidableEq β]

/-- The sets of two states that are not dead, joined as they are stored: values of the
other `defallpath` are only looked up when the sizes differ. -/
def UseDef.joinBySize (s other : UseDef α) : UseDef α :=
  let defallpath := retain s.defallpath other.defallpath
  let moved := insertAll s.defsomepath (s.defallpath.filter (· ∉ other.defallpath))
  let defsomepath :=
    if defallpath.length ≠ other.defallpath.length then
      insertAll moved (other.defallpath.filter (· ∉ defallpath))
    else moved
  { s.join other with
    defallpath := defallpath
    defsomepath := insertAll defsomepath other.defsomepath }

/-- Comparing the sizes loses nothing. -/
theorem UseDef.joinBySize_eq {s other : UseDef α} (hs : s.defallpath.Nodup)
    (ho : other.defallpath.Nodup) : s.joinBySize other = s.join other := by
  have hfilter : other.defallpath.filter (· ∉ retain s.defallpath other.defallpath) =
      other.defallpath.filter (· ∉ s.defallpath) := by
    apply List.filter_congr
    intro v hv
    simp [hv]
  have hsome : (if (retain s.defallpath other.defallpath).length ≠ other.defallpath.length then
        insertAll (insertAll s.defsomepath (s.defallpath.filter (· ∉ other.defallpath)))
          (other.defallpath.filter (· ∉ retain s.defallpath other.defallpath))
      else insertAll s.defsomepath (s.defallpath.filter (· ∉ other.defallpath))) =
      insertAll (insertAll s.defsomepath (s.defallpath.filter (· ∉ other.defallpath)))
        (other.defallpath.filter (· ∉ s.defallpath)) := by
    split
    · rw [hfilter]
    · rename_i hlen
      have hall := (length_retain_iff hs ho).mp (not_not.mp hlen)
      have hnil : other.defallpath.filter (· ∉ s.defallpath) = [] := by
        rw [List.filter_eq_nil_iff]
        intro v hv
        simpa using hall v hv
      rw [hnil, insertAll_nil]
  simp only [joinBySize, join, hsome]

/-- A tuple remains when both states have it with the same value. -/
def joinTuples (f g : Tuples α β) : Tuples α β := fun x =>
  match f x, g x with
  | some v, some w => if v.same w then some v else none
  | _, _ => none

namespace ScState

/-- `ScState(true)` -/
def ofDead : ScState α β where
  dead := true
  tuples := fun _ => none
  levels := []
  maxLevel := 0
  sets := UseDef.empty
  access := []
  defallpath_nodup := List.nodup_nil
  defsomepath_nodup := List.nodup_nil

/-- The state after the join; a dead state takes over all contents of the other one. -/
def join (s other : ScState α β) : ScState α β :=
  if other.dead then s
  else if s.dead then { other with dead := false }
  else
    { s with
      tuples := joinTuples s.tuples other.tuples
      sets := s.sets.joinBySize other.sets
      access := insertAll s.access other.access
      defallpath_nodup := nodup_retain s.defallpath_nodup _
      defsomepath_nodup := by
        unfold UseDef.joinBySize
        refine nodup_insertAll ?_ _
        split
        · exact nodup_insertAll (nodup_insertAll s.defsomepath_nodup _) _
        · exact nodup_insertAll s.defsomepath_nodup _ }

end ScState

/-- An access to a scalar variable. -/
def Access.scalar (x : α) : Access α := ⟨true, x, x, x, x, false, false⟩

/-- A write to a scalar variable, of a value that may depend on the tuples or be unknown.
`isDefined` is set for function parameters. -/
structure Write (α β : Type) where
  var : α
  isDefined : Bool
  value : Tuples α β → Option (TupleValue β)

theorem UseDef.writeToValue_scalar (s : UseDef α) (x : α) (isDefined : Bool) :
    (s.writeToValue (Access.scalar x) isDefined).defallpath = insert s.defallpath x ∧
      (s.writeToValue (Access.scalar x) isDefined).defsomepath = s.defsomepath.erase x := by
  cases isDefined <;> exact ⟨rfl, rfl⟩

namespace ScState

/-- `putValue` and `writeToValue` of a variable. -/
def write (s : ScState α β) (w : Write α β) : ScState α β :=
  { s with
    tuples := fun x => if x = w.var then w.value s.tuples else s.tuples x
    sets := s.sets.writeToValue (Access.scalar w.var) w.isDefined
    access := insert s.access w.var
    defallpath_nodup := by
      rw [(s.sets.writeToValue_scalar w.var w.isDefined).1]
      exact nodup_insert s.defallpath_nodup w.var
    defsomepath_nodup := by
      rw [(s.sets.writeToValue_scalar w.var w.isDefined).2]
      exact s.defsomepath_nodup.erase w.var }

/-- The same tuples and sets. Dead states are not told apart, and levels are those of one
side until the values above a level are removed. -/
def Same (s t : ScState α β) : Prop :=
  s.dead = t.dead ∧ (s.dead = false →
    (∀ x v, Leaves (s.tuples x) v ↔ Leaves (t.tuples x) v) ∧
    ∀ x, (x ∈ s.access ↔ x ∈ t.access) ∧ (x ∈ s.sets.defined ↔ x ∈ t.sets.defined) ∧
      (x ∈ s.sets.declared ↔ x ∈ t.sets.declared) ∧ (x ∈ s.sets.readndef ↔ x ∈ t.sets.readndef) ∧
      (x ∈ s.sets.readninit ↔ x ∈ t.sets.readninit) ∧ (x ∈ s.sets.readsva ↔ x ∈ t.sets.readsva) ∧
      (x ∈ s.sets.read ↔ x ∈ t.sets.read) ∧
      (x ∈ s.sets.defallpath ↔ x ∈ t.sets.defallpath) ∧
      (x ∈ s.sets.defsomepath ↔ x ∈ t.sets.defsomepath) ∧
      (x ∈ s.sets.arraydefined ↔ x ∈ t.sets.arraydefined) ∧
      (x ∈ s.sets.loopCntrVars ↔ x ∈ t.sets.loopCntrVars))

variable {s t u : ScState α β}

theorem join_dead_right (h : t.dead = true) : s.join t = s := by
  simp [join, h]

theorem join_dead_left (hs : s.dead = true) (ht : t.dead = false) : s.join t = t := by
  simp only [join, hs, ht, Bool.false_eq_true, if_false, if_true]
  cases t
  cases ht
  rfl

omit [DecidableEq α] in
theorem leaves_joinTuples (f g : Tuples α β) (x : α) (v : TupleValue β) :
    Leaves (joinTuples f g x) v ↔ Leaves (f x) v ∧ Leaves (g x) v := by
  unfold joinTuples Leaves
  cases hf : f x with
  | none => simp
  | some a =>
    cases hg : g x with
    | none => simp
    | some b =>
      simp only [Option.some.injEq, exists_eq_left']
      constructor
      · rintro ⟨w, hw, hv⟩
        split at hw
        · rename_i hab
          cases hw
          exact ⟨hv, TupleValue.same_trans (TupleValue.same_comm a b ▸ hab) hv⟩
        · cases hw
      · rintro ⟨ha, hb⟩
        have hab := TupleValue.same_trans ha (TupleValue.same_comm b v ▸ hb)
        exact ⟨a, by rw [if_pos hab], ha⟩

theorem join_live (hs : s.dead = false) (ht : t.dead = false) :
    (s.join t).dead = false ∧ (s.join t).tuples = joinTuples s.tuples t.tuples ∧
      (s.join t).sets = s.sets.join t.sets ∧ (s.join t).access = insertAll s.access t.access := by
  rw [← UseDef.joinBySize_eq s.defallpath_nodup t.defallpath_nodup]
  simp [join, hs, ht]

omit [DecidableEq α] in
theorem Same.refl (s : ScState α β) : Same s s := by
  simp [Same]

omit [DecidableEq α] in
theorem same_of_dead (hs : s.dead = true) (ht : t.dead = true) : Same s t :=
  ⟨hs.trans ht.symm, fun h => absurd (hs.symm.trans h) nofun⟩

theorem join_comm (s t : ScState α β) : Same (s.join t) (t.join s) := by
  cases hs : s.dead with
  | true =>
    cases ht : t.dead with
    | true =>
      rw [join_dead_right ht, join_dead_right hs]
      exact same_of_dead hs ht
    | false =>
      rw [join_dead_left hs ht, join_dead_right hs]
      exact .refl t
  | false =>
    cases ht : t.dead with
    | true =>
      rw [join_dead_right ht, join_dead_left ht hs]
      exact .refl s
    | false =>
      obtain ⟨hd, htuples, hsets, haccess⟩ := join_live hs ht
      obtain ⟨hd', htuples', hsets', haccess'⟩ := join_live ht hs
      refine ⟨hd.trans hd'.symm, fun _ => ⟨fun x v => ?_, fun x => ?_⟩⟩
      · rw [htuples, htuples', leaves_joinTuples, leaves_joinTuples, and_comm]
      · rw [hsets, hsets', haccess, haccess']
        simp only [UseDef.join, mem_retain, mem_insertAll, List.mem_filter, decide_eq_true_eq]
        refine ⟨or_comm, and_comm, and_comm, or_comm, or_comm, or_comm, or_comm, and_comm, ?_,
          or_comm, or_comm⟩
        tauto

/-- Written on some paths, of three states. -/
theorem some_path_assoc {all some all' some' all'' some'' : Prop} :
    ((((((some ∨ all ∧ ¬all') ∨ all' ∧ ¬all) ∨ some') ∨ (all ∧ all') ∧ ¬all'') ∨
        all'' ∧ ¬(all ∧ all')) ∨ some'') ↔
      (((some ∨ all ∧ ¬(all' ∧ all'')) ∨ (all' ∧ all'') ∧ ¬all) ∨
        (((some' ∨ all' ∧ ¬all'') ∨ all'' ∧ ¬all') ∨ some'')) := by
  by_cases h : all <;> by_cases h' : all' <;> by_cases h'' : all'' <;> simp [h, h', h'', or_assoc]

theorem join_assoc (s t u : ScState α β) : Same ((s.join t).join u) (s.join (t.join u)) := by
  cases hu : u.dead with
  | true =>
    rw [join_dead_right hu, join_dead_right hu]
    exact .refl _
  | false =>
    cases ht : t.dead with
    | true =>
      rw [join_dead_right ht, join_dead_left ht hu]
      exact .refl _
    | false =>
      obtain ⟨hd, htuples, hsets, haccess⟩ := join_live ht hu
      cases hs : s.dead with
      | true =>
        rw [join_dead_left hs ht, join_dead_left hs hd]
        exact .refl _
      | false =>
        obtain ⟨hd', htuples', hsets', haccess'⟩ := join_live hs ht
        obtain ⟨hl, hltuples, hlsets, hlaccess⟩ := join_live hd' hu
        obtain ⟨hr, hrtuples, hrsets, hraccess⟩ := join_live hs hd
        refine ⟨hl.trans hr.symm, fun _ => ⟨fun x v => ?_, fun x => ?_⟩⟩
        · rw [hltuples, hrtuples, htuples, htuples']
          simp only [leaves_joinTuples, and_assoc]
        · rw [hlsets, hrsets, hlaccess, hraccess, hsets, hsets', haccess, haccess']
          simp only [UseDef.join, mem_retain, mem_insertAll, List.mem_filter, decide_eq_true_eq]
          exact ⟨or_assoc, and_assoc, and_assoc, or_assoc, or_assoc, or_assoc, or_assoc, and_assoc,
            some_path_assoc, or_assoc, or_assoc⟩

theorem join_self (s : ScState α β) : Same (s.join s) s := by
  cases hs : s.dead with
  | true =>
    rw [join_dead_right hs]
    exact .refl s
  | false =>
    obtain ⟨hd, htuples, hsets, haccess⟩ := join_live hs hs
    refine ⟨hd.trans hs.symm, fun _ => ⟨fun x v => ?_, fun x => ?_⟩⟩
    · rw [htuples, leaves_joinTuples, and_self_iff]
    · rw [hsets, haccess]
      simp only [UseDef.join, mem_retain, mem_insertAll, List.mem_filter, decide_eq_true_eq]
      refine ⟨or_self_iff, and_self_iff, and_self_iff, or_self_iff, or_self_iff, or_self_iff,
        or_self_iff, and_self_iff, ?_, or_self_iff, or_self_iff⟩
      rw [and_not_self_iff, or_false, or_false, or_self_iff]

theorem join_identity (s : ScState α β) (h : t.dead = true) :
    Same (s.join t) s ∧ Same (t.join s) s := by
  have hright : Same (s.join t) s := by
    rw [join_dead_right h]
    exact .refl s
  refine ⟨hright, ?_⟩
  cases hs : s.dead with
  | true =>
    rw [join_dead_right hs]
    exact same_of_dead h hs
  | false =>
    rw [join_dead_left h hs]
    exact .refl s

/-- The state at the start of a process: any values, nothing accessed. -/
def entry (tuples : Tuples α β) : ScState α β :=
  { (ofDead : ScState α β) with dead := false, tuples }

/-- The states of the predecessors of a block, joined one after the other. -/
def joinAll : List (ScState α β) → ScState α β
  | [] => ofDead
  | s :: rest => rest.foldl join s

/-- The statements of a block; no value is put to a dead state. -/
def parse (s : ScState α β) (writes : List (Write α β)) : ScState α β :=
  if s.dead then s else writes.foldl write s

end ScState

/-- A block of the control flow graph. Number 0 stands for the entry and `i + 1` for the
`i`-th block; the predecessors are the live ones, in the order they are joined in. -/
structure Block (α β : Type) where
  preds : List Nat
  writes : List (Write α β)

def Block.exit (b : Block α β) (exits : List (ScState α β)) : ScState α β :=
  (ScState.joinAll (b.preds.filterMap (exits[·]?))).parse b.writes

/-- The states at the exits of the blocks, each block after its predecessors. -/
def analyze (tuples : Tuples α β) (blocks : List (Block α β)) : List (ScState α β) :=
  blocks.foldl (fun exits b => exits ++ [b.exit exits]) [ScState.entry tuples]

/-- The writes along a path, each with the value it stores. -/
abbrev Path (α β : Type) := List (α × Option (TupleValue β))

namespace Path

def Written (p : Path α β) (x : α) : Prop := x ∈ p.map Prod.fst

/-- What the path leaves of the variable. -/
def left (p : Path α β) (tuples : Tuples α β) (x : α) : Option (TupleValue β) :=
  p.foldl (fun stored e => if e.1 = x then e.2 else stored) (tuples x)

end Path

namespace ScState

/-- The writes of the statements, with the values in the states they are parsed in. -/
def stored (s : ScState α β) : List (Write α β) → Path α β
  | [] => []
  | w :: writes => (w.var, w.value s.tuples) :: (s.write w).stored writes

end ScState

/-- The analysis of a block with all paths to its exit. -/
def Block.visit (b : Block α β) (visited : List (ScState α β × List (Path α β))) :
    ScState α β × List (Path α β) :=
  let preds := b.preds.filterMap (visited[·]?)
  let s := ScState.joinAll (preds.map Prod.fst)
  (s.parse b.writes, (preds.flatMap Prod.snd).map (· ++ s.stored b.writes))

def visitAll (tuples : Tuples α β) (blocks : List (Block α β)) :
    List (ScState α β × List (Path α β)) :=
  blocks.foldl (fun visited b => visited ++ [b.visit visited]) [(ScState.entry tuples, [[]])]

/-- What the state tells of the paths to it, where there are any: which variables all of
them write, which some of them write and others do not, and the values all of them leave. -/
structure Exact (tuples : Tuples α β) (s : ScState α β) (paths : List (Path α β)) : Prop where
  dead_iff : s.dead = true ↔ paths = []
  mem_defallpath : paths ≠ [] → ∀ x, x ∈ s.sets.defallpath ↔ ∀ p ∈ paths, p.Written x
  mem_defsomepath : paths ≠ [] → ∀ x, x ∈ s.sets.defsomepath ↔
    (∃ p ∈ paths, p.Written x) ∧ ∃ p ∈ paths, ¬p.Written x
  survives : paths ≠ [] → ∀ x v, Leaves (s.tuples x) v ↔ ∀ p ∈ paths, Leaves (p.left tuples x) v

section
variable {tuples : Tuples α β} {s t : ScState α β} {paths paths' : List (Path α β)}

theorem visitAll_fst (tuples : Tuples α β) (blocks : List (Block α β)) :
    (visitAll tuples blocks).map Prod.fst = analyze tuples blocks := by
  have hvisit (b : Block α β) (visited : List (ScState α β × List (Path α β))) :
      (b.visit visited).1 = b.exit (visited.map Prod.fst) := by
    simp only [Block.visit, Block.exit, List.getElem?_map, List.map_filterMap]
  unfold visitAll analyze
  induction blocks using List.reverseRecOn with
  | nil => rfl
  | append_singleton blocks b ih =>
    rw [List.foldl_append, List.foldl_append, List.foldl_cons, List.foldl_cons, List.foldl_nil,
      List.foldl_nil, List.map_append, ih, List.map_singleton, hvisit, ih]

theorem Exact.entry (tuples : Tuples α β) : Exact tuples (ScState.entry tuples) [[]] where
  dead_iff := by simp [ScState.entry]
  mem_defallpath := fun _ x => by simp [ScState.entry, ScState.ofDead, UseDef.empty, Path.Written]
  mem_defsomepath := fun _ x => by simp [ScState.entry, ScState.ofDead, UseDef.empty, Path.Written]
  survives := fun _ x v => by simp [ScState.entry, Path.left]

omit [DecidableEq α] [DecidableEq β] in
theorem Path.forall_iff (x : α) :
    (∀ p ∈ paths, p.Written x) ↔ ¬∃ p ∈ paths, ¬p.Written x := by
  simp

theorem exists_mem_append {γ : Type} {l l' : List γ} {P : γ → Prop} :
    (∃ a ∈ l ++ l', P a) ↔ (∃ a ∈ l, P a) ∨ ∃ a ∈ l', P a := by
  simp only [List.mem_append, or_and_right, exists_or]

/-- What is written on all paths of one side only is written on some paths of both. -/
theorem some_path_iff {all some none all' some' none' : Prop} (hall : all ↔ ¬none)
    (hsome : all → some) (hall' : all' ↔ ¬none') (hsome' : all' → some') :
    (((some ∧ none) ∨ all ∧ ¬all') ∨ all' ∧ ¬all) ∨ some' ∧ none' ↔
      (some ∨ some') ∧ (none ∨ none') := by
  rw [hall, hall']
  rw [hall] at hsome
  rw [hall'] at hsome'
  by_cases h : none
  · by_cases h' : none'
    · simp [h, h']
    · simp [h, h', hsome' h']
  · by_cases h' : none'
    · simp [h, h', hsome h]
    · simp [h, h']

theorem Exact.join (h : Exact tuples s paths) (h' : Exact tuples t paths') :
    Exact tuples (s.join t) (paths ++ paths') := by
  cases ht : t.dead with
  | true =>
    rw [ScState.join_dead_right ht, h'.dead_iff.mp ht, List.append_nil]
    exact h
  | false =>
    have hne' : paths' ≠ [] := fun hnil => by simp [h'.dead_iff.mpr hnil] at ht
    cases hs : s.dead with
    | true =>
      rw [ScState.join_dead_left hs ht, h.dead_iff.mp hs, List.nil_append]
      exact h'
    | false =>
      have hne : paths ≠ [] := fun hnil => by simp [h.dead_iff.mpr hnil] at hs
      obtain ⟨hd, htuples, hsets, -⟩ := ScState.join_live hs ht
      -- on each side there is a path that either writes the variable or does not
      obtain ⟨p, hp⟩ := List.exists_mem_of_ne_nil paths hne
      obtain ⟨p', hp'⟩ := List.exists_mem_of_ne_nil paths' hne'
      refine ⟨by simp [hd, hne], fun _ x => ?_, fun _ x => ?_, fun _ x v => ?_⟩
      · rw [hsets]
        simp only [UseDef.join, mem_retain, h.mem_defallpath hne, h'.mem_defallpath hne',
          List.forall_mem_append]
      · rw [hsets]
        simp only [UseDef.join, mem_insertAll, List.mem_filter, decide_eq_true_eq,
          h.mem_defallpath hne, h'.mem_defallpath hne', h.mem_defsomepath hne,
          h'.mem_defsomepath hne', exists_mem_append]
        exact some_path_iff (Path.forall_iff x) (fun hall => ⟨p, hp, hall p hp⟩)
          (Path.forall_iff x) (fun hall => ⟨p', hp', hall p' hp'⟩)
      · rw [htuples, ScState.leaves_joinTuples, h.survives hne, h'.survives hne',
          List.forall_mem_append]

omit [DecidableEq α] [DecidableEq β] in
theorem Path.written_append (p : Path α β) (e : α × Option (TupleValue β)) (x : α) :
    Path.Written (p ++ [e]) x ↔ p.Written x ∨ x = e.1 := by
  simp [Path.Written]

omit [DecidableEq β] in
theorem Path.left_append (p : Path α β) (e : α × Option (TupleValue β)) (x : α) :
    Path.left (p ++ [e]) tuples x = if e.1 = x then e.2 else p.left tuples x := by
  simp [Path.left]

/-- A write is the last one of each path to it. -/
theorem Exact.write (h : Exact tuples s paths) (hlive : s.dead = false) (w : Write α β) :
    Exact tuples (s.write w) (paths.map (· ++ [(w.var, w.value s.tuples)])) := by
  have hne : paths ≠ [] := fun hnil => by simp [h.dead_iff.mpr hnil] at hlive
  obtain ⟨p, hp⟩ := List.exists_mem_of_ne_nil paths hne
  obtain ⟨hall, hsome⟩ := s.sets.writeToValue_scalar w.var w.isDefined
  refine ⟨?_, fun _ x => ?_, fun _ x => ?_, fun _ x v => ?_⟩
  · rw [List.map_eq_nil_iff, ← h.dead_iff]
    rfl
  · rw [ScState.write, hall, mem_insert, h.mem_defallpath hne, List.forall_mem_map]
    simp only [Path.written_append]
    by_cases hx : x = w.var <;> simp [hx]
  · rw [ScState.write, hsome, s.defsomepath_nodup.mem_erase_iff, h.mem_defsomepath hne]
    simp only [List.mem_map, exists_exists_and_eq_and, Path.written_append]
    by_cases hx : x = w.var <;> simp [hx]
  · rw [List.forall_mem_map]
    simp only [ScState.write, Path.left_append]
    by_cases hx : x = w.var
    · simp only [hx, if_true]
      exact ⟨fun hv _ _ => hv, fun hv => hv p hp⟩
    · simp only [if_neg hx, if_neg (Ne.symm hx)]
      exact h.survives hne x v

theorem Exact.parse (h : Exact tuples s paths) (writes : List (Write α β)) :
    Exact tuples (s.parse writes) (paths.map (· ++ s.stored writes)) := by
  cases hs : s.dead with
  | true =>
    have hnil := h.dead_iff.mp hs
    subst hnil
    rwa [ScState.parse, if_pos hs, List.map_nil]
  | false =>
    rw [ScState.parse, if_neg (by simp [hs])]
    induction writes generalizing s paths with
    | nil => simpa [ScState.stored] using h
    | cons w writes ih =>
      have hstep := ih (h.write hs w) hs
      rw [List.map_map] at hstep
      refine Eq.mp (congrArg (Exact tuples _) ?_) hstep
      exact List.map_congr_left fun p _ => List.append_assoc p _ _

theorem Exact.joinAll {preds : List (ScState α β × List (Path α β))}
    (h : ∀ e ∈ preds, Exact tuples e.1 e.2) :
    Exact tuples (ScState.joinAll (preds.map Prod.fst)) (preds.flatMap Prod.snd) := by
  have hfold : ∀ (preds : List (ScState α β × List (Path α β))) (s : ScState α β) paths,
      Exact tuples s paths → (∀ e ∈ preds, Exact tuples e.1 e.2) →
      Exact tuples ((preds.map Prod.fst).foldl ScState.join s)
        (paths ++ preds.flatMap Prod.snd) := by
    intro preds
    induction preds with
    | nil =>
      intro s paths hs _
      simpa using hs
    | cons e preds ih =>
      intro s paths hs h
      rw [List.forall_mem_cons] at h
      rw [List.map_cons, List.foldl_cons, List.flatMap_cons, ← List.append_assoc]
      exact ih _ _ (hs.join h.1) h.2
  cases preds with
  | nil => exact ⟨by simp [ScState.joinAll, ScState.ofDead], nofun, nofun, nofun⟩
  | cons e preds =>
    rw [List.forall_mem_cons] at h
    exact hfold preds e.1 e.2 h.1 h.2

theorem Exact.visit {visited : List (ScState α β × List (Path α β))} (b : Block α β)
    (h : ∀ e ∈ visited, Exact tuples e.1 e.2) :
    Exact tuples (b.visit visited).1 (b.visit visited).2 := by
  refine (Exact.joinAll fun e he => ?_).parse b.writes
  obtain ⟨i, -, hi⟩ := List.mem_filterMap.mp he
  exact h e (List.mem_of_getElem? hi)

theorem visitAll_exact (tuples : Tuples α β) (blocks : List (Block α β)) :
    ∀ e ∈ visitAll tuples blocks, Exact tuples e.1 e.2 := by
  unfold visitAll
  induction blocks using List.reverseRecOn with
  | nil =>
    rw [List.foldl_nil, List.forall_mem_singleton]
    exact .entry tuples
  | append_singleton blocks b ih =>
    rw [List.foldl_append, List.foldl_cons, List.foldl_nil, List.forall_mem_append,
      List.forall_mem_singleton]
    exact ⟨ih, .visit b ih⟩

end
end

/-- The join is a meet, and in any acyclic control flow graph, whatever the order in which
its paths are joined, the states are exact for the paths. -/
theorem join_meet_exact (α β : Type) [DecidableEq α] [DecidableEq β] :
    ((∀ s t : ScState α β, ScState.Same (s.join t) (t.join s)) ∧
      (∀ s t u : ScState α β, ScState.Same ((s.join t).join u) (s.join (t.join u))) ∧
      (∀ s : ScState α β, ScState.Same (s.join s) s) ∧
      ∀ s t : ScState α β, let dead := { t with dead := true }
        ScState.Same (s.join dead) s ∧ ScState.Same (dead.join s) s) ∧
    ∀ (tuples : Tuples α β) (blocks : List (Block α β)),
      (visitAll tuples blocks).map Prod.fst = analyze tuples blocks ∧
        ∀ e ∈ visitAll tuples blocks, Exact tuples e.1 e.2 :=
  ⟨⟨ScState.join_comm, ScState.join_assoc, ScState.join_self,
      fun s _ => ScState.join_identity s rfl⟩,
    fun tuples blocks => ⟨visitAll_fst tuples blocks, visitAll_exact tuples blocks⟩⟩

/-- Both branches write variable 0, only the second one writes variable 1. -/
theorem join_meet_exact_branch :
    let put (x n : Nat) : Write Nat Empty := ⟨x, false, fun _ => some (.integer (.of 32 true n) 10)⟩
    let blocks : List (Block Nat Empty) :=
      [⟨[0], [put 0 1]⟩, ⟨[0], [put 0 2, put 1 3]⟩, ⟨[1, 2], []⟩]
    ∃ e, (visitAll (fun _ => none) blocks)[3]? = some e ∧ Exact (fun _ => none) e.1 e.2 ∧
      e.2.map (·.map Prod.fst) = [[0], [0, 1]] ∧ e.1.sets.defallpath = [0] ∧
      e.1.sets.defsomepath = [1] ∧ (e.1.tuples 0).isNone := by
  intro put blocks
  have hexact := ((join_meet_exact Nat Empty).2 (fun _ => none) blocks).2
  exact ⟨_, rfl, hexact _ (List.mem_of_getElem? (i := 3) rfl), rfl, rfl, rfl, rfl⟩

end SystemcCompiler.Cfg
