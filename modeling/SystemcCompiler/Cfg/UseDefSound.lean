import SystemcCompiler.Cfg.UseDef
import Mathlib.Data.Set.Basic

/-! Paths between waits and what the use/def sets say about them. A thread body
is analysed along all its branches; every loop body is passed a number of times
and all exits are joined. -/
namespace SystemcCompiler.Cfg
open InsertionOrderSet

variable {α L : Type}

/-- Structured thread code as constant propagation walks it. A loop body is
analysed at least three times: a comparison of states at `COMPARE_STATE_ITER`
and the pass that confirms it. `exits i` tells whether the loop may be left at
the `i`-th arrival at its head, the last index standing for all later ones. -/
inductive Prog (α : Type) where
  | skip
  | event (e : Event α)
  | wait (id : Nat)
  | seq (p q : Prog α)
  | choice (p q : Prog α)
  | loop (extraPasses : Nat) (exits : Nat → Bool) (body : Prog α)
  | brk
  | cont

/-- A recording call together with the locations it reads and overwrites when
the statement is executed. -/
structure Act (α L : Type) where
  event : Event α
  reads : Set L
  writes : Set L

/-- Locations a value stands for: one for a scalar or a known array element,
all elements for an array variable or an element at unknown index. -/
structure Storage (α L : Type) where
  locs : α → Set L

/-- What is known of the locations of an access. Writing a value at known
position overwrites all of it; a declaration starts with fresh storage; the
storage of temporaries does not count. -/
def Act.Respects (σ : Storage α L) (act : Act α L) : Prop :=
  match act.event with
  | .read a _ => (a.tracked = false → act.reads = ∅) ∧ act.reads ⊆ σ.locs a.lval ∧
      σ.locs a.lval ⊆ σ.locs a.llval ∧ σ.locs a.llval ⊆ σ.locs a.topVal
  | .write a isDefined => act.reads = ∅ ∧
      (isDefined = true ∨ a.unknownIndex = false → σ.locs a.lval ⊆ act.writes)
  | .writeArrElm v => act.reads = ∅ ∧ σ.locs v ⊆ act.writes
  | .declare v => act.reads = ∅ ∧ σ.locs v ⊆ act.writes
  | .loopCounter _ => act.reads = ∅

/-! Executions. A piece of execution either continues the cycle it started in
or has passed a wait and left a new history behind. -/

abbrev History (α L : Type) := List (Act α L)

structure Segment (α L : Type) where
  waited : Bool
  acts : History α L

/-- History since the last wait after a segment that started with history `h`. -/
def Segment.after (t : Segment α L) (h : History α L) : History α L :=
  if t.waited then t.acts else h ++ t.acts

def Segment.andThen (t u : Segment α L) : Segment α L :=
  if u.waited then u else ⟨t.waited, t.acts ++ u.acts⟩

inductive Outcome where
  | normal
  | broken
  | continued
  deriving DecidableEq

/-- Waits of a second piece of execution, seen from the start of the first. -/
def shiftWaits (t : Segment α L) (ws : List (Nat × Segment α L)) : List (Nat × Segment α L) :=
  ws.map fun w => (w.1, t.andThen w.2)

/-- A number of passes of a loop body that all lead back to the loop head. -/
inductive Passes (again : Segment α L → List (Nat × Segment α L) → Prop) :
    Nat → Segment α L → List (Nat × Segment α L) → Prop where
  | none : Passes again 0 ⟨false, []⟩ []
  | more (hp : Passes again n t ws) (hu : again u vs) :
      Passes again (n + 1) (t.andThen u) (ws ++ shiftWaits t vs)

/-- An execution of the program ends with outcome `o`, having run `t` and having
stopped at the waits `ws`, each with the segment that led to it. -/
def Prog.Run (σ : Storage α L) :
    Prog α → Outcome → Segment α L → List (Nat × Segment α L) → Prop
  | .skip, o, t, ws => o = .normal ∧ t = ⟨false, []⟩ ∧ ws = []
  | .event e, o, t, ws => o = .normal ∧ ws = [] ∧
      ∃ act : Act α L, act.event = e ∧ act.Respects σ ∧ t = ⟨false, [act]⟩
  | .wait id, o, t, ws => o = .normal ∧ t = ⟨true, []⟩ ∧ ws = [(id, ⟨false, []⟩)]
  | .seq p q, o, t, ws =>
      (o ≠ .normal ∧ p.Run σ o t ws) ∨
      ∃ u us v vs, p.Run σ .normal u us ∧ q.Run σ o v vs ∧
        t = u.andThen v ∧ ws = us ++ shiftWaits u vs
  | .choice p q, o, t, ws => p.Run σ o t ws ∨ q.Run σ o t ws
  | .loop extraPasses exits body, o, t, ws => o = .normal ∧
      ((∃ n, Passes (fun u us => body.Run σ .normal u us ∨ body.Run σ .continued u us) n t ws ∧
          exits (min n (extraPasses + 3)) = true) ∨
        ∃ n u us v vs,
          Passes (fun u us => body.Run σ .normal u us ∨ body.Run σ .continued u us) n u us ∧
          body.Run σ .broken v vs ∧ t = u.andThen v ∧ ws = us ++ shiftWaits u vs)
  | .brk, o, t, ws => o = .broken ∧ t = ⟨false, []⟩ ∧ ws = []
  | .cont, o, t, ws => o = .continued ∧ t = ⟨false, []⟩ ∧ ws = []

theorem Segment.after_andThen (t u : Segment α L) (h : History α L) :
    (t.andThen u).after h = u.after (t.after h) := by
  unfold andThen after
  cases hu : u.waited <;> cases ht : t.waited <;> simp [hu]

/-! ## What the sets say about a history -/

/-- The cell was overwritten since the last wait. -/
def Killed (h : History α L) (ℓ : L) : Prop :=
  ∃ act ∈ h, ℓ ∈ act.writes

/-- The access reads the cell while it still holds the value from before the last wait. -/
def Exposed (h : History α L) (a : Access α) (ℓ : L) : Prop :=
  ∃ before act rest sva, h = before ++ act :: rest ∧ act.event = .read a sva ∧
    ℓ ∈ act.reads ∧ ¬ Killed before ℓ

/-- Some statement of the history assigns the value. -/
def Assigned (h : History α L) (v : α) : Prop :=
  ∃ act ∈ h, ∃ a isDefined, act.event = .write a isDefined ∧ a.zeroVal = v

theorem Assigned.append_left {h : History α L} {v : α} (hv : Assigned h v) (g : History α L) :
    Assigned (h ++ g) v := by
  obtain ⟨act, hact, hw⟩ := hv
  exact ⟨act, List.mem_append_left g hact, hw⟩

theorem killed_append (h g : History α L) (ℓ : L) :
    Killed (h ++ g) ℓ ↔ Killed h ℓ ∨ Killed g ℓ := by
  unfold Killed
  simp only [List.mem_append, or_and_right, exists_or]

theorem exposed_append (h g : History α L) (a : Access α) (ℓ : L) :
    Exposed (h ++ g) a ℓ ↔ Exposed h a ℓ ∨ ¬ Killed h ℓ ∧ Exposed g a ℓ := by
  constructor
  · rintro ⟨before, act, rest, sva, heq, hev, hr, hk⟩
    rcases List.append_eq_append_iff.mp heq with ⟨mid, hb, hg⟩ | ⟨mid, hh, hg⟩
    · -- the read lies in `g`
      rw [hb, killed_append, not_or] at hk
      exact Or.inr ⟨hk.1, mid, act, rest, sva, hg, hev, hr, hk.2⟩
    · cases mid with
      | nil =>
        simp only [List.nil_append] at hg
        simp only [List.append_nil] at hh
        subst hh
        exact Or.inr ⟨hk, [], act, rest, sva, hg.symm, hev, hr, fun ⟨_, hm, _⟩ => by cases hm⟩
      | cons x mid =>
        simp only [List.cons_append, List.cons.injEq] at hg
        obtain ⟨rfl, rfl⟩ := hg
        exact Or.inl ⟨before, act, mid, sva, hh, hev, hr, hk⟩
  · rintro (⟨before, act, rest, sva, rfl, hev, hr, hk⟩ |
      ⟨hh, before, act, rest, sva, rfl, hev, hr, hk⟩)
    · exact ⟨before, act, rest ++ g, sva, by simp, hev, hr, hk⟩
    · refine ⟨h ++ before, act, rest, sva, by simp, hev, hr, ?_⟩
      rw [killed_append]
      exact not_or.mpr ⟨hh, hk⟩

/-! ## The analysis -/

variable [DecidableEq α]

/-- States where control leaves a statement, `none` for a way out that no path
takes, and the states met at the `wait()` calls inside. -/
structure Flow (α : Type) where
  normal : Option (UseDef α)
  broken : Option (UseDef α)
  continued : Option (UseDef α)
  waits : List (Nat × UseDef α)

/-- Join of the states of two paths, either of which may be absent. -/
def joinPaths : Option (UseDef α) → Option (UseDef α) → Option (UseDef α)
  | none, t => t
  | some s, none => some s
  | some s, some t => some (s.join t)

def Flow.join (f g : Flow α) : Flow α :=
  ⟨joinPaths f.normal g.normal, joinPaths f.broken g.broken,
    joinPaths f.continued g.continued, f.waits ++ g.waits⟩

/-- Analyse what follows on every path that ends normally. -/
def Flow.andThen (f : Flow α) (k : UseDef α → Flow α) : Flow α :=
  match f.normal with
  | none => f
  | some s =>
    let g := k s
    ⟨g.normal, joinPaths f.broken g.broken, joinPaths f.continued g.continued,
      f.waits ++ g.waits⟩

/-- State in which the loop head is reached again. -/
def Flow.back (f : Flow α) : Option (UseDef α) :=
  joinPaths f.normal f.continued

/-- Arrival number `i` at a loop head in state `s`, with `passes` passes of the
body to come: the loop is left here, by a `break` of the next pass, or later. -/
def loopFlow (body : UseDef α → Flow α) (exits : Nat → Bool) : Nat → Nat → UseDef α → Flow α
  | 0, i, s => ⟨if exits i then some s else none, none, none, []⟩
  | passes + 1, i, s =>
    let f := body s
    let rest : Flow α := match f.back with
      | none => ⟨none, none, none, []⟩
      | some s' => loopFlow body exits passes (i + 1) s'
    ⟨joinPaths (joinPaths (if exits i then some s else none) f.broken) rest.normal, none, none,
      f.waits ++ rest.waits⟩

def Prog.analyze : Prog α → UseDef α → Flow α
  | .skip, s => ⟨some s, none, none, []⟩
  | .event e, s => ⟨some (s.record e), none, none, []⟩
  | .wait id, s => ⟨some .empty, none, none, [(id, s)]⟩
  | .seq p q, s => (p.analyze s).andThen q.analyze
  | .choice p q, s => (p.analyze s).join (q.analyze s)
  | .loop extraPasses exits body, s => loopFlow body.analyze exits (extraPasses + 3) 0 s
  | .brk, s => ⟨none, some s, none, []⟩
  | .cont, s => ⟨none, none, some s, []⟩

def Flow.out (f : Flow α) : Outcome → Option (UseDef α)
  | .normal => f.normal
  | .broken => f.broken
  | .continued => f.continued

/-- Everything recorded as defined or declared was overwritten in this cycle,
every read of an older value is recorded as read-not-defined, and what counts as
defined on all paths was assigned. -/
structure Sound (σ : Storage α L) (s : UseDef α) (h : History α L) : Prop where
  killed : ∀ v, v ∈ s.defined ∨ v ∈ s.declared → ∀ ℓ ∈ σ.locs v, Killed h ℓ
  exposed : ∀ a ℓ, Exposed h a ℓ → a.zeroVal ∈ s.getReadNotDefinedValues
  assigned : ∀ v ∈ s.defallpath, Assigned h v

/-- `s` claims no more than `t` does. -/
structure Weaker (s t : UseDef α) : Prop where
  defined : ∀ v ∈ s.defined, v ∈ t.defined
  declared : ∀ v ∈ s.declared, v ∈ t.declared
  readNotDefined : ∀ v ∈ t.getReadNotDefinedValues, v ∈ s.getReadNotDefinedValues
  defallpath : ∀ v ∈ s.defallpath, v ∈ t.defallpath

theorem Weaker.refl (s : UseDef α) : Weaker s s :=
  ⟨fun _ h => h, fun _ h => h, fun _ h => h, fun _ h => h⟩

theorem Weaker.trans {s t u : UseDef α} (h : Weaker s t) (h' : Weaker t u) : Weaker s u :=
  ⟨fun v hv => h'.defined v (h.defined v hv), fun v hv => h'.declared v (h.declared v hv),
    fun v hv => h.readNotDefined v (h'.readNotDefined v hv),
    fun v hv => h'.defallpath v (h.defallpath v hv)⟩

theorem Sound.weaken {σ : Storage α L} {s t : UseDef α} {h : History α L} (hs : Sound σ t h)
    (hw : Weaker s t) : Sound σ s h where
  killed v hv := hs.killed v (hv.imp (hw.defined v) (hw.declared v))
  exposed a ℓ he := hw.readNotDefined _ (hs.exposed a ℓ he)
  assigned v hv := hs.assigned v (hw.defallpath v hv)

theorem weaker_join_left (s t : UseDef α) : Weaker (s.join t) s where
  defined v hv := ((mem_retain _ _ _).mp hv).1
  declared v hv := ((mem_retain _ _ _).mp hv).1
  defallpath v hv := ((mem_retain _ _ _).mp hv).1
  readNotDefined v hv := by
    simp only [UseDef.getReadNotDefinedValues, UseDef.join, mem_insertAll] at hv ⊢
    tauto

theorem weaker_join_right (s t : UseDef α) : Weaker (s.join t) t where
  defined v hv := ((mem_retain _ _ _).mp hv).2
  declared v hv := ((mem_retain _ _ _).mp hv).2
  defallpath v hv := ((mem_retain _ _ _).mp hv).2
  readNotDefined v hv := by
    simp only [UseDef.getReadNotDefinedValues, UseDef.join, mem_insertAll] at hv ⊢
    tauto

/-- Some path state at least as strong is behind the joined one. -/
def Absorbs (r : Option (UseDef α)) (t : UseDef α) : Prop :=
  ∃ s, r = some s ∧ Weaker s t

theorem absorbs_joinPaths_left {r : Option (UseDef α)} (h : Absorbs r t) (q : Option (UseDef α)) :
    Absorbs (joinPaths r q) t := by
  obtain ⟨s, rfl, hw⟩ := h
  cases q with
  | none => exact ⟨s, rfl, hw⟩
  | some u => exact ⟨s.join u, rfl, (weaker_join_left s u).trans hw⟩

theorem absorbs_joinPaths_right {r : Option (UseDef α)} (h : Absorbs r t)
    (q : Option (UseDef α)) : Absorbs (joinPaths q r) t := by
  obtain ⟨s, rfl, hw⟩ := h
  cases q with
  | none => exact ⟨s, rfl, hw⟩
  | some u => exact ⟨u.join s, rfl, (weaker_join_right u s).trans hw⟩

/-! ## One recording call -/

theorem readFromValue_exposed {s : UseDef α} {a : Access α} (ht : a.tracked = true) (sva : Bool)
    (hd : s.isDefined a sva = false) (hc : s.isDeclared a sva = false) :
    a.zeroVal ∈ (s.readFromValue a sva).getReadNotDefinedValues := by
  unfold UseDef.readFromValue UseDef.getReadNotDefinedValues
  cases sva <;> simp [ht, hd, hc]

theorem record_readNotDefined {s : UseDef α} (e : Event α) {v : α}
    (hv : v ∈ s.getReadNotDefinedValues) : v ∈ (s.record e).getReadNotDefinedValues := by
  unfold UseDef.getReadNotDefinedValues at hv ⊢
  rw [mem_insertAll] at hv ⊢
  cases e with
  | read a sva =>
    simp only [UseDef.record, UseDef.readFromValue]
    split
    · exact hv
    · refine hv.imp ?_ ?_ <;> intro hv <;> dsimp only <;> split <;> simp [hv]
  | write a isDefined =>
    simp only [UseDef.record, UseDef.writeToValue]
    repeat' split
    all_goals exact hv
  | writeArrElm v => exact hv
  | declare v => exact hv
  | loopCounter v => exact hv

/-- Locations the sets claim after a call were claimed before or written by it. -/
theorem record_killed {σ : Storage α L} {s : UseDef α} {act : Act α L} (ha : act.Respects σ)
    {v : α} (hv : v ∈ (s.record act.event).defined ∨ v ∈ (s.record act.event).declared) :
    (v ∈ s.defined ∨ v ∈ s.declared) ∨ σ.locs v ⊆ act.writes := by
  unfold Act.Respects at ha
  cases he : act.event with
  | read a sva =>
    rw [he] at hv
    simp only [UseDef.record, UseDef.readFromValue] at hv
    split at hv <;> exact Or.inl hv
  | write a isDefined =>
    rw [he] at hv ha
    have key : v ∈ s.defined ∨ v ∈ s.declared ∨
        v = a.lval ∧ (isDefined = true ∨ a.unknownIndex = false) := by
      simp only [UseDef.record, UseDef.writeToValue] at hv
      split at hv
      · tauto
      · split at hv
        · simp only [mem_insert] at hv
          tauto
        · split at hv
          · rename_i hi
            simp only [Bool.not_eq_true'] at hi
            split at hv <;> simp only [mem_insert] at hv <;> tauto
          · tauto
    rcases key with h | h | ⟨rfl, hk⟩
    · exact Or.inl (Or.inl h)
    · exact Or.inl (Or.inr h)
    · exact Or.inr (ha.2 hk)
  | writeArrElm w =>
    rw [he] at hv ha
    simp only [UseDef.record, UseDef.writeToArrElmValue, mem_insert] at hv
    rcases hv with (h | rfl) | h
    · exact Or.inl (Or.inl h)
    · exact Or.inr ha.2
    · exact Or.inl (Or.inr h)
  | declare w =>
    rw [he] at hv ha
    simp only [UseDef.record, UseDef.declareValue, mem_insert] at hv
    rcases hv with h | h | rfl
    · exact Or.inl (Or.inl h)
    · exact Or.inl (Or.inr h)
    · exact Or.inr ha.2
  | loopCounter w =>
    rw [he] at hv
    exact Or.inl hv

/-- Only a write makes a value defined on all paths. -/
theorem record_defallpath {s : UseDef α} (e : Event α) {v : α}
    (hv : v ∈ (s.record e).defallpath) :
    v ∈ s.defallpath ∨ ∃ a isDefined, e = .write a isDefined ∧ a.zeroVal = v := by
  cases e with
  | read a sva =>
    left
    simp only [UseDef.record, UseDef.readFromValue] at hv
    split at hv <;> exact hv
  | write a isDefined =>
    by_cases hz : a.zeroVal = v
    · exact Or.inr ⟨a, isDefined, rfl, hz⟩
    · left
      simp only [UseDef.record, UseDef.writeToValue] at hv
      split at hv
      · exact hv
      · split at hv
        · exact ((mem_insert _ _ _).mp hv).resolve_right (Ne.symm hz)
        · split at hv
          · split at hv
            · exact ((mem_insert _ _ _).mp hv).resolve_right (Ne.symm hz)
            · exact hv
          · exact hv
  | writeArrElm w => exact Or.inl hv
  | declare w => exact Or.inl hv
  | loopCounter w => exact Or.inl hv

/-- A value the sets claim cannot be the one an exposed read asks for. -/
theorem not_claimed_of_exposed {σ : Storage α L} {s : UseDef α} {h : History α L}
    (hs : Sound σ s h) {a : Access α} {sva : Bool} {act : Act α L} (he : act.event = .read a sva)
    (ha : act.Respects σ) {ℓ : L} (hr : ℓ ∈ act.reads) (hk : ¬ Killed h ℓ) :
    s.isDefined a sva = false ∧ s.isDeclared a sva = false := by
  unfold Act.Respects at ha
  rw [he] at ha
  obtain ⟨-, hreads, hl, htop⟩ := ha
  have hlval : ℓ ∈ σ.locs a.lval := hreads hr
  have hd (v : α) (hv : ℓ ∈ σ.locs v) : v ∉ s.defined := fun hm => hk (hs.killed v (.inl hm) ℓ hv)
  have hc (v : α) (hv : ℓ ∈ σ.locs v) : v ∉ s.declared :=
    fun hm => hk (hs.killed v (.inr hm) ℓ hv)
  constructor
  · simp [UseDef.isDefined, hd _ hlval, hd _ (hl hlval)]
  · simp [UseDef.isDeclared, hc _ hlval, hc _ (hl hlval), hc _ (htop (hl hlval))]

theorem Sound.record {σ : Storage α L} {s : UseDef α} {h : History α L} (hs : Sound σ s h)
    {act : Act α L} (ha : act.Respects σ) : Sound σ (s.record act.event) (h ++ [act]) where
  killed v hv ℓ hℓ := by
    rw [killed_append]
    rcases record_killed ha hv with hv | hw
    · exact Or.inl (hs.killed v hv ℓ hℓ)
    · exact Or.inr ⟨act, List.mem_singleton_self act, hw hℓ⟩
  exposed a ℓ he := by
    rcases (exposed_append _ _ _ _).mp he with he | ⟨hk, before, act', rest, sva, heq, hev, hr, -⟩
    · exact record_readNotDefined _ (hs.exposed a ℓ he)
    · -- the new call itself is the exposed read
      have hact : act' = act := by
        cases before with
        | nil => simpa using (List.cons.inj heq).1.symm
        | cons x before => simp at heq
      subst hact
      obtain ⟨hd, hc⟩ := not_claimed_of_exposed hs hev ha hr hk
      rw [hev]
      have ht : a.tracked = true := by
        unfold Act.Respects at ha
        rw [hev] at ha
        by_contra hf
        rw [ha.1 (by simpa using hf)] at hr
        exact hr
      exact readFromValue_exposed ht sva hd hc
  assigned v hv := by
    rcases record_defallpath act.event hv with hv | hw
    · exact (hs.assigned v hv).append_left _
    · exact ⟨act, by simp, hw⟩

theorem Sound.empty (σ : Storage α L) : Sound σ (UseDef.empty : UseDef α) [] where
  killed v hv := by rcases hv with h | h <;> cases h
  exposed a ℓ he := by
    obtain ⟨before, act, rest, sva, heq, -⟩ := he
    simp at heq
  assigned v hv := by cases hv

/-! ## Loops -/

/-- `f` analyses executions described by `run`: whatever sound state a piece of
execution starts in, its end and each of its waits are covered. -/
def Covers (σ : Storage α L) (f : UseDef α → Flow α)
    (run : Outcome → Segment α L → List (Nat × Segment α L) → Prop) : Prop :=
  ∀ s h o t ws, Sound σ s h → run o t ws →
    (∃ s', (f s).out o = some s' ∧ Sound σ s' (t.after h)) ∧
    ∀ w ∈ ws, ∃ t', (w.1, t') ∈ (f s).waits ∧ Sound σ t' (w.2.after h)

/-- State at the `i`-th arrival at the loop head. -/
def headState (f : UseDef α → Flow α) (s : UseDef α) : Nat → Option (UseDef α)
  | 0 => some s
  | i + 1 => (headState f s i).bind fun t => (f t).back

section Loop
variable {σ : Storage α L} {f : UseDef α → Flow α}
  {run : Outcome → Segment α L → List (Nat × Segment α L) → Prop}

/-- A pass that leads back to the loop head. -/
def Again (run : Outcome → Segment α L → List (Nat × Segment α L) → Prop)
    (t : Segment α L) (ws : List (Nat × Segment α L)) : Prop :=
  run .normal t ws ∨ run .continued t ws

theorem Covers.back (hf : Covers σ f run) (hs : Sound σ s h) (ht : Again run t ws) :
    ∃ b, (f s).back = some b ∧ Sound σ b (t.after h) := by
  have key : ∃ s', Absorbs (f s).back s' ∧ Sound σ s' (t.after h) := by
    rcases ht with ht | ht
    · obtain ⟨⟨s', hn, hs'⟩, -⟩ := hf s h _ _ _ hs ht
      exact ⟨s', absorbs_joinPaths_left ⟨s', hn, Weaker.refl s'⟩ _, hs'⟩
    · obtain ⟨⟨s', hn, hs'⟩, -⟩ := hf s h _ _ _ hs ht
      exact ⟨s', absorbs_joinPaths_right ⟨s', hn, Weaker.refl s'⟩ _, hs'⟩
  obtain ⟨s', ⟨b, hb, hw⟩, hs'⟩ := key
  exact ⟨b, hb, hs'.weaken hw⟩

theorem Covers.headState_succ (hf : Covers σ f run) (hh : headState f s i = some t)
    (ht : Sound σ t h) (hu : Again run u us) :
    ∃ b, headState f s (i + 1) = some b ∧ Sound σ b (u.after h) := by
  obtain ⟨b, hb, hsound⟩ := hf.back ht hu
  exact ⟨b, by simp [headState, hh, hb], hsound⟩

/-- Arrival `n` of the analysis covers arrival `n` of an execution. -/
theorem Covers.headState_passes (hf : Covers σ f run) (hs : Sound σ s h)
    (hp : Passes (Again run) n t ws) :
    ∃ b, headState f s n = some b ∧ Sound σ b (t.after h) := by
  induction hp with
  | none => exact ⟨s, rfl, by simpa [Segment.after] using hs⟩
  | more hp hu ih =>
    obtain ⟨b, hb, hsound⟩ := ih
    obtain ⟨b', hb', hsound'⟩ := hf.headState_succ hb hsound hu
    exact ⟨b', hb', by rwa [Segment.after_andThen]⟩

omit [DecidableEq α] in
/-- Among the passes done so far there is one that alone overwrites no more
cells than all of them did since the last wait. -/
theorem Passes.exists_single (hp : Passes (Again run) (n + 1) t ws) (h : History α L) :
    ∃ u us, Again run u us ∧ ∀ ℓ, Killed (u.after h) ℓ → Killed (t.after h) ℓ := by
  generalize hm : n + 1 = m at hp
  induction hp generalizing n with
  | none => omega
  | @more k t' ws' u us hp hu ih =>
    by_cases hw : u.waited = true
    · refine ⟨u, us, hu, fun ℓ hk => ?_⟩
      rw [Segment.after_andThen]
      simpa [Segment.after, hw] using hk
    · cases k with
      | zero =>
        cases hp
        refine ⟨u, us, hu, fun ℓ hk => ?_⟩
        rw [Segment.after_andThen]
        simpa [Segment.after] using hk
      | succ k =>
        obtain ⟨x, xs, hx, hkx⟩ := ih rfl
        refine ⟨x, xs, hx, fun ℓ hk => ?_⟩
        rw [Segment.after_andThen]
        simp only [Segment.after, hw, Bool.false_eq_true, ↓reduceIte]
        exact (killed_append _ _ _).mpr (Or.inl (hkx ℓ hk))

/-- Two passes of the analysis are enough for every later arrival: a pass that
waits leaves a history of its own, and a read exposed in a pass that does not
wait is exposed already when only one earlier pass precedes it. -/
theorem Covers.headState_two (hf : Covers σ f run) (hs : Sound σ s h)
    (hp : Passes (Again run) (n + 2) t ws) :
    ∃ b, headState f s 2 = some b ∧ Sound σ b (t.after h) := by
  induction n generalizing t ws with
  | zero => exact hf.headState_passes hs hp
  | succ n ih =>
    cases hp with
    | @more _ t ws u us hp hu =>
      obtain ⟨b, hb, hsound⟩ := ih hp
      refine ⟨b, hb, ?_⟩
      rw [Segment.after_andThen]
      -- analysing `x` and then `u` also arrives at `b`
      have twice (x : Segment α L) (xs) (hx : Again run x xs) :
          Sound σ b (u.after (x.after h)) := by
        obtain ⟨b₁, hb₁, hsound₁⟩ := hf.headState_succ (i := 0) rfl hs hx
        obtain ⟨b₂, hb₂, hsound₂⟩ := hf.headState_succ hb₁ hsound₁ hu
        rw [hb] at hb₂
        cases hb₂
        exact hsound₂
      by_cases hw : u.waited = true
      · have := twice u us hu
        simpa [Segment.after, hw] using this
      · obtain ⟨x, xs, hx, hkx⟩ := hp.exists_single h
        have hx' := twice x xs hx
        have hafter (g : History α L) : u.after g = g ++ u.acts := by simp [Segment.after, hw]
        rw [hafter] at hx' ⊢
        refine ⟨?_, ?_, fun v hv => (hsound.assigned v hv).append_left _⟩
        · intro v hv ℓ hℓ
          exact (killed_append _ _ _).mpr (Or.inl (hsound.killed v hv ℓ hℓ))
        · intro a ℓ he
          rcases (exposed_append _ _ _ _).mp he with he | ⟨hk, he⟩
          · exact hsound.exposed a ℓ he
          · exact hx'.exposed a ℓ ((exposed_append _ _ _ _).mpr
              (Or.inr ⟨fun hc => hk (hkx ℓ hc), he⟩))

/-- Arrival `i ≥ 2` of the analysis covers every arrival of an execution from
the `i`-th on. -/
theorem Covers.headState_late (hf : Covers σ f run) (hs : Sound σ s h) {i n : Nat} (hi : 2 ≤ i)
    (hin : i ≤ n) (hp : Passes (Again run) n t ws) :
    ∃ b, headState f s i = some b ∧ Sound σ b (t.after h) := by
  induction i, hi using Nat.le_induction generalizing n t ws with
  | base =>
    obtain ⟨m, rfl⟩ := Nat.exists_eq_add_of_le hin
    rw [Nat.add_comm] at hp
    exact hf.headState_two hs hp
  | succ i _ ih =>
    cases hp with
    | none => omega
    | @more n t ws u us hp hu =>
      obtain ⟨b, hb, hsound⟩ := ih (by omega) hp
      obtain ⟨b', hb', hsound'⟩ := hf.headState_succ hb hsound hu
      exact ⟨b', hb', by rwa [Segment.after_andThen]⟩

theorem Covers.headState_min (hf : Covers σ f run) (hs : Sound σ s h) {i n : Nat} (hi : 2 ≤ i)
    (hp : Passes (Again run) n t ws) :
    ∃ b, headState f s (min n i) = some b ∧ Sound σ b (t.after h) := by
  rcases Nat.le_total n i with hni | hni
  · rw [Nat.min_eq_left hni]
    exact hf.headState_passes hs hp
  · rw [Nat.min_eq_right hni]
    exact hf.headState_late hs hi hni hp

end Loop

theorem headState_shift {f : UseDef α → Flow α} {s b : UseDef α} (hb : (f s).back = some b)
    (i : Nat) : headState f s (i + 1) = headState f b i := by
  induction i with
  | zero => simp [headState, hb]
  | succ i ih => rw [headState, ih, headState]

theorem headState_none {f : UseDef α → Flow α} {s : UseDef α} (hb : (f s).back = none)
    (i : Nat) : headState f s (i + 1) = none := by
  induction i with
  | zero => simp [headState, hb]
  | succ i ih => rw [headState, ih]; rfl

/-- A loop may be left at any arrival its exits allow. -/
theorem loopFlow_exit {f : UseDef α → Flow α} {exits : Nat → Bool} {i passes : Nat}
    (hi : i ≤ passes) (ht : headState f s i = some t) (he : exits (k + i) = true) :
    Absorbs (loopFlow f exits passes k s).normal t := by
  induction passes generalizing i k s with
  | zero =>
    obtain rfl : i = 0 := by omega
    obtain rfl : s = t := by simpa [headState] using ht
    exact ⟨s, by simpa [loopFlow] using he, Weaker.refl s⟩
  | succ passes ih =>
    cases i with
    | zero =>
      obtain rfl : s = t := by simpa [headState] using ht
      refine absorbs_joinPaths_left (absorbs_joinPaths_left ⟨s, ?_, Weaker.refl s⟩ _) _
      simpa using he
    | succ i =>
      cases hb : (f s).back with
      | none =>
        rw [headState_none hb] at ht
        cases ht
      | some b =>
        rw [headState_shift hb] at ht
        simp only [loopFlow, hb]
        refine absorbs_joinPaths_right (ih (by omega) ht ?_) _
        rwa [Nat.add_right_comm]

theorem loopFlow_pass {f : UseDef α → Flow α} (exits : Nat → Bool) {i passes : Nat}
    (hi : i < passes) (ht : headState f s i = some t) :
    (∀ b, (f t).broken = some b → Absorbs (loopFlow f exits passes k s).normal b) ∧
    ∀ w ∈ (f t).waits, w ∈ (loopFlow f exits passes k s).waits := by
  induction passes generalizing i k s with
  | zero => omega
  | succ passes ih =>
    cases i with
    | zero =>
      obtain rfl : s = t := by simpa [headState] using ht
      constructor
      · intro b hb
        exact absorbs_joinPaths_left (absorbs_joinPaths_right ⟨b, hb, Weaker.refl b⟩ _) _
      · intro w hw
        exact List.mem_append_left _ hw
    | succ i =>
      cases hb : (f s).back with
      | none =>
        rw [headState_none hb] at ht
        cases ht
      | some b =>
        rw [headState_shift hb] at ht
        obtain ⟨hbrk, hws⟩ := ih (k := k + 1) (by omega) ht
        simp only [loopFlow, hb]
        exact ⟨fun b' hb' => absorbs_joinPaths_right (hbrk b' hb') _,
          fun w hw => List.mem_append_right _ (hws w hw)⟩

/-! ## Whole programs -/

theorem Covers.waits_passes {σ : Storage α L} {f : UseDef α → Flow α}
    {run : Outcome → Segment α L → List (Nat × Segment α L) → Prop} (hf : Covers σ f run)
    (hs : Sound σ s h) (exits : Nat → Bool) (extra : Nat)
    (hp : Passes (Again run) n t ws) (w : Nat × Segment α L) (hw : w ∈ ws) :
    ∃ t', (w.1, t') ∈ (loopFlow f exits (extra + 3) 0 s).waits ∧ Sound σ t' (w.2.after h) := by
  induction hp with
  | none => cases hw
  | @more n t ws u us hp hu ih =>
    rcases List.mem_append.mp hw with hw | hw
    · exact ih hw
    · obtain ⟨b, hb, hsound⟩ := hf.headState_min hs (i := 2) (by omega) hp
      obtain ⟨v, hv, rfl⟩ := List.mem_map.mp hw
      have hlog : ∃ t', (v.1, t') ∈ (f b).waits ∧ Sound σ t' (v.2.after (t.after h)) := by
        rcases hu with hu | hu
        · exact (hf b _ _ _ _ hsound hu).2 v hv
        · exact (hf b _ _ _ _ hsound hu).2 v hv
      obtain ⟨t', ht', hsound'⟩ := hlog
      refine ⟨t', (loopFlow_pass exits (by omega) hb).2 _ ht', ?_⟩
      rwa [Segment.after_andThen]

theorem Covers.loop {σ : Storage α L} {f : UseDef α → Flow α} {body : Prog α}
    (hf : Covers σ f (body.Run σ)) (exits : Nat → Bool) (extra : Nat) :
    Covers σ (loopFlow f exits (extra + 3) 0) ((Prog.loop extra exits body).Run σ) := by
  intro s h o t ws hs hrun
  obtain ⟨rfl, ⟨n, hp, he⟩ | ⟨n, u, us, v, vs, hp, hbrk, rfl, rfl⟩⟩ := hrun
  · obtain ⟨b, hb, hsound⟩ := hf.headState_min hs (i := extra + 3) (by omega) hp
    obtain ⟨r, hr, hweak⟩ := loopFlow_exit (k := 0) (Nat.min_le_right n (extra + 3)) hb
      (by rwa [Nat.zero_add])
    exact ⟨⟨r, hr, hsound.weaken hweak⟩, hf.waits_passes hs exits extra hp⟩
  · obtain ⟨b, hb, hsound⟩ := hf.headState_min hs (i := 2) (by omega) hp
    obtain ⟨⟨c, hc, hsoundc⟩, hwaits⟩ := hf b _ _ _ _ hsound hbrk
    have hpass := loopFlow_pass exits (k := 0) (show min n 2 < extra + 3 by omega) hb
    obtain ⟨r, hr, hweak⟩ := hpass.1 c hc
    rw [Segment.after_andThen]
    refine ⟨⟨r, hr, hsoundc.weaken hweak⟩, fun w hw => ?_⟩
    rcases List.mem_append.mp hw with hw | hw
    · exact hf.waits_passes hs exits extra hp w hw
    · obtain ⟨x, hx, rfl⟩ := List.mem_map.mp hw
      obtain ⟨t', ht', hsound'⟩ := hwaits x hx
      exact ⟨t', hpass.2 _ ht', by rwa [Segment.after_andThen]⟩

theorem Flow.andThen_out_of_ne {f : Flow α} (k : UseDef α → Flow α) {o : Outcome}
    (ho : o ≠ .normal) (hs : f.out o = some s) : Absorbs ((f.andThen k).out o) s := by
  unfold Flow.andThen
  split
  · exact ⟨s, hs, Weaker.refl s⟩
  · cases o with
    | normal => contradiction
    | broken => exact absorbs_joinPaths_left ⟨s, hs, Weaker.refl s⟩ _
    | continued => exact absorbs_joinPaths_left ⟨s, hs, Weaker.refl s⟩ _

theorem Flow.andThen_waits {f : Flow α} (k : UseDef α → Flow α) {w : Nat × UseDef α}
    (hw : w ∈ f.waits) : w ∈ (f.andThen k).waits := by
  unfold Flow.andThen
  split
  · exact hw
  · exact List.mem_append_left _ hw

theorem Flow.andThen_out {f : Flow α} (k : UseDef α → Flow α) (hn : f.normal = some s)
    {o : Outcome} (hs : (k s).out o = some t) :
    Absorbs ((f.andThen k).out o) t ∧ ∀ w ∈ (k s).waits, w ∈ (f.andThen k).waits := by
  unfold Flow.andThen
  rw [hn]
  refine ⟨?_, fun w hw => List.mem_append_right _ hw⟩
  cases o with
  | normal => exact ⟨t, hs, Weaker.refl t⟩
  | broken => exact absorbs_joinPaths_right ⟨t, hs, Weaker.refl t⟩ _
  | continued => exact absorbs_joinPaths_right ⟨t, hs, Weaker.refl t⟩ _

theorem Flow.join_out_left {f : Flow α} (g : Flow α) {o : Outcome} (hs : f.out o = some s) :
    Absorbs ((f.join g).out o) s := by
  cases o <;> exact absorbs_joinPaths_left ⟨s, hs, Weaker.refl s⟩ _

theorem Flow.join_out_right {g : Flow α} (f : Flow α) {o : Outcome} (hs : g.out o = some s) :
    Absorbs ((f.join g).out o) s := by
  cases o <;> exact absorbs_joinPaths_right ⟨s, hs, Weaker.refl s⟩ _

/-- The analysis covers every execution of every thread body. -/
theorem Prog.analyze_covers (σ : Storage α L) (p : Prog α) : Covers σ p.analyze (p.Run σ) := by
  induction p with
  | skip =>
    rintro s h o t ws hs ⟨rfl, rfl, rfl⟩
    exact ⟨⟨s, rfl, by simpa [Segment.after] using hs⟩, fun w hw => by cases hw⟩
  | event e =>
    rintro s h o t ws hs ⟨rfl, rfl, act, rfl, ha, rfl⟩
    exact ⟨⟨_, rfl, by simpa [Segment.after] using hs.record ha⟩, fun w hw => by cases hw⟩
  | wait id =>
    rintro s h o t ws hs ⟨rfl, rfl, rfl⟩
    refine ⟨⟨_, rfl, by simpa [Segment.after] using Sound.empty σ⟩, fun w hw => ?_⟩
    obtain rfl := List.mem_singleton.mp hw
    exact ⟨s, List.mem_singleton_self _, by simpa [Segment.after] using hs⟩
  | seq p q ihp ihq =>
    rintro s h o t ws hs (⟨ho, hp⟩ | ⟨u, us, v, vs, hp, hq, rfl, rfl⟩)
    · obtain ⟨⟨s', hs', hsound⟩, hwaits⟩ := ihp s h _ _ _ hs hp
      obtain ⟨r, hr, hweak⟩ := Flow.andThen_out_of_ne q.analyze ho hs'
      refine ⟨⟨r, hr, hsound.weaken hweak⟩, fun w hw => ?_⟩
      obtain ⟨t', ht', hst⟩ := hwaits w hw
      exact ⟨t', Flow.andThen_waits _ ht', hst⟩
    · obtain ⟨⟨s', hs', hsound⟩, hwaits⟩ := ihp s h _ _ _ hs hp
      obtain ⟨⟨s'', hs'', hsound'⟩, hwaits'⟩ := ihq s' _ _ _ _ hsound hq
      obtain ⟨⟨r, hr, hweak⟩, hsub⟩ := Flow.andThen_out q.analyze hs' hs''
      rw [Segment.after_andThen]
      refine ⟨⟨r, hr, hsound'.weaken hweak⟩, fun w hw => ?_⟩
      rcases List.mem_append.mp hw with hw | hw
      · obtain ⟨t', ht', hst⟩ := hwaits w hw
        exact ⟨t', Flow.andThen_waits _ ht', hst⟩
      · obtain ⟨x, hx, rfl⟩ := List.mem_map.mp hw
        obtain ⟨t', ht', hst⟩ := hwaits' x hx
        exact ⟨t', hsub _ ht', by rwa [Segment.after_andThen]⟩
  | choice p q ihp ihq =>
    rintro s h o t ws hs (hp | hq)
    · obtain ⟨⟨s', hs', hsound⟩, hwaits⟩ := ihp s h _ _ _ hs hp
      obtain ⟨r, hr, hweak⟩ := Flow.join_out_left (q.analyze s) hs'
      refine ⟨⟨r, hr, hsound.weaken hweak⟩, fun w hw => ?_⟩
      obtain ⟨t', ht', hst⟩ := hwaits w hw
      exact ⟨t', List.mem_append_left _ ht', hst⟩
    · obtain ⟨⟨s', hs', hsound⟩, hwaits⟩ := ihq s h _ _ _ hs hq
      obtain ⟨r, hr, hweak⟩ := Flow.join_out_right (p.analyze s) hs'
      refine ⟨⟨r, hr, hsound.weaken hweak⟩, fun w hw => ?_⟩
      obtain ⟨t', ht', hst⟩ := hwaits w hw
      exact ⟨t', List.mem_append_right _ ht', hst⟩
  | loop extra exits body ih => exact ih.loop exits extra
  | brk =>
    rintro s h o t ws hs ⟨rfl, rfl, rfl⟩
    exact ⟨⟨s, rfl, by simpa [Segment.after] using hs⟩, fun w hw => by cases hw⟩
  | cont =>
    rintro s h o t ws hs ⟨rfl, rfl, rfl⟩
    exact ⟨⟨s, rfl, by simpa [Segment.after] using hs⟩, fun w hw => by cases hw⟩

end SystemcCompiler.Cfg
