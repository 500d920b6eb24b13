import Mathlib.Data.Set.Function
import Mathlib.Data.Set.Lattice
import Mathlib.Order.CompletePartialOrder
import Mathlib.Data.List.Perm.Basic
import Mathlib.Logic.Relation
import Mathlib.Order.WellFounded

/-! Processes that share variables and signals, run in delta cycles: a write of a variable is
seen at once, a write of a signal after the update phase. Beside them blocks that compute
signals from signals, each run again when a signal it reads has changed. -/
namespace SystemcCompiler.DeltaCycle
open Set Relation

variable {P V C α : Type}

@[ext]
structure Store (V C α : Type) where
  vars : V → α
  cur : C → α
  next : C → α

/-- What a process accesses, and what one run of it leaves in the variables and writes to the
signals. -/
structure Process (V C α : Type) where
  uses : Set V
  defs : Set V
  reads : Set C
  drives : Set C
  vars : (V → α) → (C → α) → V → α
  writes : (V → α) → (C → α) → C → Option α
  vars_frame : ∀ f g v, v ∉ defs → vars f g v = f v
  writes_frame : ∀ f g c, c ∉ drives → writes f g c = none
  vars_local : ∀ f f' g g', EqOn f f' (uses ∪ defs) → EqOn g g' reads →
    EqOn (vars f g) (vars f' g') defs
  writes_local : ∀ f f' g g', EqOn f f' (uses ∪ defs) → EqOn g g' reads →
    writes f g = writes f' g'

namespace Process

/-- The variables a process accesses. -/
def touches (p : Process V C α) : Set V := p.uses ∪ p.defs

structure Independent (p q : Process V C α) : Prop where
  left : Disjoint p.defs q.touches
  right : Disjoint q.defs p.touches
  drives : Disjoint p.drives q.drives

theorem Independent.symm {p q : Process V C α} (h : Independent p q) : Independent q p :=
  ⟨h.right, h.left, h.drives.symm⟩

variable {p q : Process V C α}

theorem eqOn_vars (h : Disjoint p.defs q.touches) (f : V → α) (g : C → α) :
    EqOn (p.vars f g) f q.touches := by
  intro v hv
  exact p.vars_frame f g v fun hdef => h.ne_of_mem hdef hv rfl

/-- A process is not affected by one that defines nothing it accesses. -/
theorem vars_vars (h : Disjoint p.defs q.touches) (f : V → α) (g : C → α) {v : V}
    (hv : v ∉ p.defs) : q.vars (p.vars f g) g v = q.vars f g v := by
  by_cases hdef : v ∈ q.defs
  · exact q.vars_local _ _ g g (eqOn_vars h f g) (eqOn_refl g _) hdef
  · rw [q.vars_frame _ g v hdef, q.vars_frame f g v hdef, p.vars_frame f g v hv]

theorem writes_vars (h : Disjoint p.defs q.touches) (f : V → α) (g : C → α) :
    q.writes (p.vars f g) g = q.writes f g :=
  q.writes_local _ _ g g (eqOn_vars h f g) (eqOn_refl g _)

theorem Independent.vars_comm (h : Independent p q) (f : V → α) (g : C → α) :
    q.vars (p.vars f g) g = p.vars (q.vars f g) g := by
  funext v
  by_cases hp : v ∈ p.defs
  · have hq : v ∉ q.defs := fun hq => h.left.ne_of_mem hp (.inr hq) rfl
    rw [q.vars_frame _ g v hq, vars_vars h.right f g hq]
  · rw [p.vars_frame _ g v hp, vars_vars h.left f g hp]

end Process

def Store.run (s : Store V C α) (p : Process V C α) : Store V C α :=
  { vars := p.vars s.vars s.cur
    cur := s.cur
    next := fun c => (p.writes s.vars s.cur c).getD (s.next c) }

def evaluate (ps : List (Process V C α)) (s : Store V C α) : Store V C α :=
  ps.foldl Store.run s

def Store.update (s : Store V C α) : Store V C α := { s with cur := s.next }

@[simp] theorem evaluate_nil (s : Store V C α) : evaluate [] s = s := rfl

@[simp] theorem evaluate_cons (p : Process V C α) (ps : List (Process V C α))
    (s : Store V C α) : evaluate (p :: ps) s = evaluate ps (s.run p) := rfl

/-- It is not seen which of the two runs first. -/
def Commute (p q : Process V C α) : Prop := ∀ s : Store V C α, (s.run p).run q = (s.run q).run p

theorem Commute.symm {p q : Process V C α} (h : Commute p q) : Commute q p := fun s => (h s).symm

theorem Process.Independent.commute {p q : Process V C α} (h : p.Independent q) :
    Commute p q := by
  intro s
  apply Store.ext
  · exact h.vars_comm s.vars s.cur
  · rfl
  · funext c
    simp only [Store.run, Process.writes_vars h.left, Process.writes_vars h.right]
    by_cases hp : c ∈ p.drives
    · have hq : c ∉ q.drives := fun hq => h.drives.ne_of_mem hp hq rfl
      rw [q.writes_frame _ _ c hq]
      rfl
    · rw [p.writes_frame _ _ c hp]
      rfl

/-- A process without effect commutes with all. -/
theorem Commute.of_silent {p q : Process V C α} (hdefs : ∀ v, v ∉ p.defs)
    (hdrives : ∀ c, c ∉ p.drives) : Commute p q := by
  have hrun : ∀ s : Store V C α, s.run p = s := by
    intro s
    apply Store.ext
    · funext v
      exact p.vars_frame _ _ v (hdefs v)
    · rfl
    · funext c
      simp [Store.run, p.writes_frame _ _ c (hdrives c)]
  intro s
  rw [hrun, hrun]

theorem evaluate_perm {ps qs : List (Process V C α)} (hps : ps.Pairwise Commute)
    (hperm : ps.Perm qs) (s : Store V C α) : evaluate ps s = evaluate qs s := by
  induction hperm generalizing s with
  | nil => rfl
  | cons p _ ih => exact ih (List.pairwise_cons.mp hps).2 (s.run p)
  | swap p q ps =>
    have hqp : Commute q p := (List.pairwise_cons.mp hps).1 p (List.mem_cons_self ..)
    simp only [evaluate_cons]
    rw [hqp s]
  | trans hfirst _ ih ih' =>
    rw [ih hps, ih' (hps.perm hfirst fun h => h.symm)]

section Drive
variable {c : C} {v : α}

theorem run_next_of_notMem {p : Process V C α} (h : c ∉ p.drives) (s : Store V C α) :
    (s.run p).next c = s.next c := by
  simp [Store.run, p.writes_frame _ _ c h]

theorem evaluate_next_of_notMem {ps : List (Process V C α)} (h : ∀ p ∈ ps, c ∉ p.drives)
    (s : Store V C α) : (evaluate ps s).next c = s.next c := by
  induction ps generalizing s with
  | nil => rfl
  | cons p ps ih =>
    rw [evaluate_cons, ih fun q hq => h q (List.mem_cons_of_mem p hq)]
    exact run_next_of_notMem (h p (List.mem_cons_self ..)) s

end Drive

/-- Signals computed from signals. -/
structure Block (C α : Type) where
  reads : Set C
  drives : Set C
  value : (C → α) → C → α
  value_local : ∀ g g', EqOn g g' reads → EqOn (value g) (value g') drives

/-- Running the block again would change nothing. -/
def Block.Holds (b : Block C α) (g : C → α) : Prop := EqOn g (b.value g) b.drives

theorem Block.Holds.of_eqOn {b : Block C α} {g g' : C → α} (hreads : EqOn g g' b.reads)
    (h : EqOn g' (b.value g) b.drives) : b.Holds g' :=
  h.trans (b.value_local g g' hreads)

/-- Every run writes each of the signals, whatever the variables are. -/
structure Process.Computes (p : Process V C α) (b : Block C α) : Prop where
  drives_eq : p.drives = b.drives
  writes_eq : ∀ f g, ∀ c ∈ b.drives, p.writes f g c = some (b.value g c)

/-- `wakes p g g'`: a change of the signals from `g` to `g'` makes `p` runnable. -/
structure Design (P V C α : Type) where
  procs : List P
  proc : P → Process V C α
  wakes : P → (C → α) → (C → α) → Prop

/-- The processes that only compute signals, with what they compute. -/
structure Combinational (d : Design P V C α) (methods : Set P) (block : P → Block C α) : Prop where
  mem : ∀ p ∈ methods, p ∈ d.procs
  computes : ∀ p ∈ methods, (d.proc p).Computes (block p)
  single : ∀ p ∈ methods, ∀ q ∈ d.procs, q ≠ p → Disjoint (block p).drives (d.proc q).drives
  sensitive : ∀ p ∈ methods, ∀ g g', ¬ d.wakes p g g' → EqOn g g' (block p).reads

structure Config (P V C α : Type) where
  store : Store V C α
  runnable : Set P

/-- Runnable processes are evaluated in some order, then the signals are updated. Others may
become runnable for other reasons than a change of a signal. -/
inductive Delta (d : Design P V C α) : Config P V C α → Config P V C α → Prop where
  | cycle (k : Config P V C α) (order : List P) (hnodup : order.Nodup)
      (horder : ∀ p, p ∈ order ↔ p ∈ d.procs ∧ p ∈ k.runnable) (others : Set P) :
      Delta d k
        { store := (evaluate (order.map d.proc) k.store).update
          runnable := {p | d.wakes p k.store.cur (evaluate (order.map d.proc) k.store).next} ∪
            others }

section Systemc
variable {d : Design P V C α} {methods : Set P} {block : P → Block C α}
  {k k' : Config P V C α} {p : P} {c : C}

theorem Process.Computes.run_next {p : Process V C α} {b : Block C α} (h : p.Computes b)
    (hc : c ∈ b.drives) (s : Store V C α) : (s.run p).next c = b.value s.cur c := by
  simp [Store.run, h.writes_eq _ _ c hc]

theorem Combinational.evaluate_next_of_idle (h : Combinational d methods block)
    (hp : p ∈ methods) (hc : c ∈ (block p).drives) {order : List P} (hsub : order ⊆ d.procs)
    (horder : p ∉ order) (s : Store V C α) : (evaluate (order.map d.proc) s).next c = s.next c := by
  apply evaluate_next_of_notMem
  intro _ hmem hdrives
  obtain ⟨q, hq, rfl⟩ := List.mem_map.mp hmem
  have hne : q ≠ p := fun heq => horder (heq ▸ hq)
  exact (h.single p hp q (hsub hq) hne).ne_of_mem hc hdrives rfl

theorem Combinational.evaluate_next (h : Combinational d methods block) (hp : p ∈ methods)
    (hc : c ∈ (block p).drives) {order : List P} (hsub : order ⊆ d.procs) (horder : p ∈ order)
    (s : Store V C α) :
    (evaluate (order.map d.proc) s).next c = (block p).value s.cur c := by
  induction order generalizing s with
  | nil => contradiction
  | cons q order ih =>
    have hsub' : order ⊆ d.procs := fun r hr => hsub (List.mem_cons_of_mem q hr)
    rw [List.map_cons, evaluate_cons]
    by_cases hrest : p ∈ order
    · exact ih hsub' hrest (s.run (d.proc q))
    · obtain rfl : p = q := by simpa [hrest] using horder
      rw [h.evaluate_next_of_idle hp hc hsub' hrest]
      exact (h.computes p hp).run_next hc s

/-- Between delta cycles the written signals are updated, and a method that is not runnable is
up to date. -/
structure UpToDate (methods : Set P) (block : P → Block C α) (k : Config P V C α) : Prop where
  updated : k.store.next = k.store.cur
  holds : ∀ p ∈ methods, p ∉ k.runnable → (block p).Holds k.store.cur

theorem Combinational.upToDate_delta (h : Combinational d methods block)
    (hk : UpToDate methods block k) (hstep : Delta d k k') : UpToDate methods block k' := by
  cases hstep with
  | cycle order hnodup horder others =>
    have hsub : order ⊆ d.procs := fun q hq => ((horder q).mp hq).1
    refine ⟨rfl, fun p hp hidle => ?_⟩
    simp only [mem_union, mem_ofPred_eq, not_or] at hidle
    refine .of_eqOn (h.sensitive p hp _ _ hidle.1) fun c hc => ?_
    by_cases hrun : p ∈ order
    · exact h.evaluate_next hp hc hsub hrun k.store
    · have hidle : p ∉ k.runnable := fun hmem => hrun ((horder p).mpr ⟨h.mem p hp, hmem⟩)
      calc (evaluate (order.map d.proc) k.store).next c
          = k.store.cur c := by
            rw [h.evaluate_next_of_idle hp hc hsub hrun, hk.updated]
        _ = (block p).value k.store.cur c := hk.holds p hp hidle hc

/-- All processes are made runnable at the start. -/
def Config.Initial (k : Config P V C α) : Prop :=
  k.store.next = k.store.cur ∧ k.runnable = univ

theorem Combinational.upToDate (h : Combinational d methods block) (hk : k.Initial)
    (hrun : ReflTransGen (Delta d) k k') : UpToDate methods block k' := by
  induction hrun with
  | refl => exact ⟨hk.1, fun p _ hidle => absurd (hk.2 ▸ mem_univ p) hidle⟩
  | tail _ hstep ih => exact h.upToDate_delta ih hstep

end Systemc

/-- Values of the variables of the generated module, and the blocks that are to be run. -/
structure SvConfig (P C α : Type) where
  values : C → α
  pending : Set P

/-- Assignments of a block are seen at once. What no block drives is changed from outside. -/
inductive SvStep (methods : Set P) (block : P → Block C α) :
    SvConfig P C α → SvConfig P C α → Prop where
  | run (k : SvConfig P C α) (p : P) (hp : p ∈ methods) (hpending : p ∈ k.pending)
      (values : C → α) (hdrives : EqOn values ((block p).value k.values) (block p).drives)
      (hkeep : ∀ c ∉ (block p).drives, values c = k.values c) :
      SvStep methods block k
        ⟨values, k.pending \ {p} ∪ {q | ¬ EqOn k.values values (block q).reads}⟩
  | input (k : SvConfig P C α) (values : C → α)
      (hkeep : ∀ p ∈ methods, EqOn values k.values (block p).drives) :
      SvStep methods block k
        ⟨values, k.pending ∪ {q | ¬ EqOn k.values values (block q).reads}⟩

section Verilog
variable {methods : Set P} {block : P → Block C α} {k k' : SvConfig P C α}

/-- One driver for each signal, and no block reads what it drives. -/
structure SingleDriven (methods : Set P) (block : P → Block C α) : Prop where
  single : ∀ p ∈ methods, ∀ q ∈ methods, q ≠ p → Disjoint (block p).drives (block q).drives
  noLoop : ∀ p ∈ methods, Disjoint (block p).reads (block p).drives

def SvConfig.UpToDate (methods : Set P) (block : P → Block C α) (k : SvConfig P C α) : Prop :=
  ∀ p ∈ methods, p ∉ k.pending → (block p).Holds k.values

theorem SingleDriven.upToDate_step (h : SingleDriven methods block)
    (hk : k.UpToDate methods block) (hstep : SvStep methods block k k') :
    k'.UpToDate methods block := by
  intro q hq hidle
  cases hstep with
  | run p hp hpending values hdrives hkeep =>
    simp only [mem_union, mem_sdiff, mem_singleton_iff, mem_ofPred_eq, not_or, not_and, not_not]
      at hidle
    refine .of_eqOn hidle.2 ?_
    by_cases hqp : q = p
    · rw [hqp]
      exact hdrives
    · intro c hc
      have hnot : c ∉ (block p).drives := fun hmem =>
        (h.single p hp q hq hqp).ne_of_mem hmem hc rfl
      exact (hkeep c hnot).trans (hk q hq (fun hmem => hqp (hidle.1 hmem)) hc)
  | input values hkeep =>
    simp only [mem_union, mem_ofPred_eq, not_or, not_not] at hidle
    exact .of_eqOn hidle.2 fun c hc => (hkeep q hq hc).trans (hk q hq hidle.1 hc)

theorem SingleDriven.upToDate (h : SingleDriven methods block) (hk : methods ⊆ k.pending)
    (hrun : ReflTransGen (SvStep methods block) k k') : k'.UpToDate methods block := by
  induction hrun with
  | refl => exact fun p hp hidle => absurd (hk hp) hidle
  | tail _ hstep ih => exact h.upToDate_step ih hstep

end Verilog

/-- A block reads `c` to compute `c'`. -/
def Feeds (methods : Set P) (block : P → Block C α) (c c' : C) : Prop :=
  ∃ p ∈ methods, c ∈ (block p).reads ∧ c' ∈ (block p).drives

/-- Without combinational loops the driven signals are a function of the others. -/
theorem eq_of_holds {methods : Set P} {block : P → Block C α}
    (hacyclic : WellFounded (Feeds methods block)) {g g' : C → α}
    (hg : ∀ p ∈ methods, (block p).Holds g) (hg' : ∀ p ∈ methods, (block p).Holds g')
    (hinputs : ∀ c, (∀ p ∈ methods, c ∉ (block p).drives) → g c = g' c) : g = g' := by
  funext c
  induction c using hacyclic.induction with
  | _ c ih =>
    by_cases hdriven : ∃ p ∈ methods, c ∈ (block p).drives
    · obtain ⟨p, hp, hc⟩ := hdriven
      have hreads : EqOn g g' (block p).reads := fun c' hc' => ih c' ⟨p, hp, hc', hc⟩
      calc g c = (block p).value g c := hg p hp hc
        _ = (block p).value g' c := (block p).value_local g g' hreads hc
        _ = g' c := (hg' p hp hc).symm
    · exact hinputs c fun p hp hc => hdriven ⟨p, hp, hc⟩

end SystemcCompiler.DeltaCycle
