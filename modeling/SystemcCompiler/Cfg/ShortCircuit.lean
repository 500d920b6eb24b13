import Mathlib.Data.List.Basic
import Mathlib.Logic.Function.Basic

/-! Conditions with `&&` and `||` whose operands call user functions. Bodies of
the calls are inlined in the block of their operand; the analyses go from block
to block towards the statement of the condition. -/
namespace SystemcCompiler.Cfg

inductive LogicOp where
  | land
  | lor
  deriving DecidableEq

/-- The left value with which the right operand is not evaluated. -/
def LogicOp.absorbing : LogicOp → Bool
  | .land => false
  | .lor => true

/-- `falseCond` for `&&` and `trueCond` for `||`. -/
def LogicOp.decidedBy (op : LogicOp) (value : Option Bool) : Bool :=
  value = some op.absorbing

/-- Result from known or unknown values of both sides. -/
def LogicOp.combine (op : LogicOp) (l r : Option Bool) : Option Bool :=
  if op.decidedBy l then some op.absorbing
  else match r with
    | none => none
    | some b => if l.isSome ∨ b = op.absorbing then some b else none

/-- An operand other than `&&` and `||`. `assigns` are the assignments to
references, members and channels that its calls make from a state, `analyze` is
the constant propagation of these calls and `parse` of the operand itself.
`direct` says that an assignment or `++`, `--` is written in it. -/
structure Operand (V D α κ : Type) where
  assigns : (V → D) → List (V × D)
  value : (V → D) → Bool
  analyze : α → α
  parse : α → κ
  direct : Bool

inductive Cond (V D α κ : Type) where
  | operand (o : Operand V D α κ)
  | logic (op : LogicOp) (l r : Cond V D α κ)

/-- Values of the constant propagation: a variable is read when it is needed. -/
structure Values (α κ : Type) where
  read : κ → α → Option Bool
  const : Option Bool → κ

variable {V D α κ : Type}

/-- State after the calls of an operand. -/
def Operand.run [DecidableEq V] (o : Operand V D α κ) (s : V → D) : V → D :=
  (o.assigns s).foldl (fun t a => Function.update t a.1 a.2) s

namespace Cond

def operands : Cond V D α κ → List (Operand V D α κ)
  | .operand o => [o]
  | .logic _ l r => l.operands ++ r.operands

def count (c : Cond V D α κ) : Nat :=
  c.operands.length

/-- What C++ does. Operands are numbered from left to right; `log` has the
assignments of each operand whose calls make some. -/
structure Outcome (V D : Type) where
  value : Bool
  state : V → D
  evaluated : List Nat
  log : List (Nat × List (V × D))

/-- Entry of the log for an operand. -/
def entry (k : Nat) (assigns : List (V × D)) : List (Nat × List (V × D)) :=
  match assigns with
  | [] => []
  | _ => [(k, assigns)]

def eval [DecidableEq V] : Cond V D α κ → Nat → (V → D) → Outcome V D
  | .operand o, first, s => ⟨o.value s, o.run s, [first], entry first (o.assigns s)⟩
  | .logic op l r, first, s =>
    let left := l.eval first s
    if left.value = op.absorbing then left
    else
      let right := r.eval (first + l.count) left.state
      ⟨right.value, right.state, left.evaluated ++ right.evaluated, left.log ++ right.log⟩

/-- Block of an operand. The terminator is the `&&` or `||` whose left side ends
with the operand, or the statement of the condition. -/
structure Block (V D α κ : Type) where
  operand : Operand V D α κ
  term : Option (LogicOp × Cond V D α κ)
  thenSucc : Nat
  elseSucc : Nat

/-- Blocks of a condition in the control flow graph, numbered from `first`. -/
def blocks : Cond V D α κ → Option (LogicOp × Cond V D α κ) → Nat → Nat → Nat →
    List (Block V D α κ)
  | .operand o, term, thenSucc, elseSucc, _ => [⟨o, term, thenSucc, elseSucc⟩]
  | .logic .land l r, term, thenSucc, elseSucc, first =>
    l.blocks (some (.land, l)) (first + l.count) elseSucc first ++
      r.blocks term thenSucc elseSucc (first + l.count)
  | .logic .lor l r, term, thenSucc, elseSucc, first =>
    l.blocks (some (.lor, l)) thenSucc (first + l.count) first ++
      r.blocks term thenSucc elseSucc (first + l.count)

/-- The only successor that is followed, the one towards the final statement. -/
def Block.toward (b : Block V D α κ) : LogicOp → Nat
  | .land => b.thenSucc
  | .lor => b.elseSucc

/-- Value of a condition whose last operand has number `last`, with the left
values stored at the terminators, and whether a direct side effect was parsed. -/
def parse (vals : Values α κ) (stored : Nat → Option κ) (a : α) : Cond V D α κ → Nat → κ × Bool
  | .operand o, _ => (o.parse a, o.direct)
  | .logic op l r, last =>
    let left := match stored (last - r.count) with
      | some v => (v, false)
      | none => l.parse vals stored a (last - r.count)
    let lvalue := vals.read left.1 a
    if op.decidedBy lvalue then (vals.const (some op.absorbing), left.2)
    else
      let right := r.parse vals stored a last
      (vals.const (op.combine lvalue (vals.read right.1 a)), left.2 || right.2)

/-- One block passed. In a dead block the calls are skipped; `value` is that of
the left side at the terminator. -/
structure Visit where
  index : Nat
  dead : Bool
  value : Option Bool
  decides : Bool
  direct : Bool

structure Position (α κ : Type) where
  state : α
  stored : Nat → Option κ
  dead : Bool

/-- `ScTraverseConst::run` over the blocks of a condition. `whole` is the
condition if its statement is a terminator, so that it is evaluated there. -/
def traverseConst (vals : Values α κ) (bs : List (Block V D α κ))
    (whole : Option (Cond V D α κ)) : Nat → Nat → Position α κ → List Visit
  | 0, _, _ => []
  | n + 1, p, pos =>
    match bs[p]? with
    | none => []
    | some b =>
      let a := if pos.dead then pos.state else b.operand.analyze pos.state
      match b.term with
      | none =>
        let direct := match whole with
          | none => false
          | some c => (c.parse vals pos.stored a p).2
        [⟨p, pos.dead, none, false, direct⟩]
      | some (op, l) =>
        let left := l.parse vals pos.stored a p
        let value := vals.read left.1 a
        ⟨p, pos.dead, value, op.decidedBy value, left.2⟩ ::
          traverseConst vals bs whole n (b.toward op)
            ⟨a, Function.update pos.stored p (some left.1), op.decidedBy value⟩

/-- `ScTraverseProc::run` over the same blocks, with the stored term conditions. -/
def traverseProc (bs : List (Block V D α κ)) (termCond : Nat → Option Bool) :
    Nat → Nat → Bool → List Visit
  | 0, _, _ => []
  | n + 1, p, dead =>
    match bs[p]? with
    | none => []
    | some b =>
      match b.term with
      | none => [⟨p, dead, none, false, false⟩]
      | some (op, _) =>
        ⟨p, dead, termCond p, op.decidedBy (termCond p), false⟩ ::
          traverseProc bs termCond n (b.toward op) (op.decidedBy (termCond p))

def graph (c : Cond V D α κ) : List (Block V D α κ) :=
  c.blocks none c.count (c.count + 1) 0

/-- Constant propagation of the condition in one state. `final` says that the
condition belongs to a statement such as `if`. -/
def propagate (c : Cond V D α κ) (vals : Values α κ) (final : Bool) (a : α) : List Visit :=
  traverseConst vals c.graph (if final then some c else none) c.count 0 ⟨a, fun _ => none, false⟩

/-- Values of a terminator at all visits, joined. -/
def joinValues : List (Option Bool) → Option Bool
  | [] => none
  | v :: vs => vs.foldl (fun cur w => if cur = w then cur else none) v

def termCond (runs : List (List Visit)) (k : Nat) : Option Bool :=
  joinValues (runs.flatMap fun vs => (vs.filter fun v => v.index = k).map Visit.value)

/-- Code generation after the condition was propagated in these states. -/
def generate (c : Cond V D α κ) (vals : Values α κ) (final : Bool) (states : List α) :
    List Visit :=
  traverseProc c.graph (termCond (states.map (c.propagate vals final))) c.count 0 false

/-- The operands whose calls are analysed or inlined. -/
def performed (vs : List Visit) : List Nat :=
  (vs.filter fun v => !v.dead).map Visit.index

/-- The known left side before the next operand decides. -/
def decidedAt (vs : List Visit) (k : Nat) : Bool :=
  vs.any fun v => v.index = k && v.decides

/-- An assignment or `++`, `--` in the condition is reported as error. -/
def reported (c : Cond V D α κ) (vals : Values α κ) (final : Bool) (states : List α) : Bool :=
  states.any fun a => (c.propagate vals final a).any Visit.direct

@[simp] theorem entry_nil (k : Nat) : entry k ([] : List (V × D)) = [] := rfl

theorem entry_of_ne {k : Nat} {l : List (V × D)} (h : l ≠ []) : entry k l = [(k, l)] := by
  cases l with
  | nil => exact absurd rfl h
  | cons a l => rfl

section Log
variable [DecidableEq V]

/-- Assignments made if the calls of exactly these operands are performed. -/
def log (f : Nat → Bool) : List (Operand V D α κ) → Nat → (V → D) → List (Nat × List (V × D))
  | [], _, _ => []
  | o :: os, k, s =>
    if f k then entry k (o.assigns s) ++ log f os (k + 1) (o.run s) else log f os (k + 1) s

/-- State in front of each operand if exactly these operands are performed. -/
def states (f : Nat → Bool) : List (Operand V D α κ) → Nat → (V → D) → List (V → D)
  | [], _, _ => []
  | o :: os, k, s => s :: states f os (k + 1) (if f k then o.run s else s)

def after (f : Nat → Bool) : List (Operand V D α κ) → Nat → (V → D) → V → D
  | [], _, s => s
  | o :: os, k, s => after f os (k + 1) (if f k then o.run s else s)

theorem run_eq_self {o : Operand V D α κ} {s : V → D} (h : o.assigns s = []) : o.run s = s := by
  rw [Operand.run, h]
  rfl

theorem log_index (f : Nat → Bool) (os : List (Operand V D α κ)) (k : Nat) (s : V → D) :
    ∀ e ∈ log f os k s, k ≤ e.1 := by
  induction os generalizing k s with
  | nil => simp [log]
  | cons o os ih =>
    intro e he
    have hentry : e ∈ entry k (o.assigns s) → k ≤ e.1 := by
      intro h
      by_cases hn : o.assigns s = []
      · simp [hn] at h
      · simp [entry_of_ne hn] at h
        simp [h]
    unfold log at he
    split at he
    · rcases List.mem_append.mp he with h | h
      · exact hentry h
      · have := ih (k + 1) (o.run s) e h
        omega
    · have := ih (k + 1) s e he
      omega

/-- Two choices of operands make the same assignments if and only if they agree
on the operands that make some. -/
theorem log_eq_iff (f g : Nat → Bool) (os : List (Operand V D α κ)) (k : Nat) (s : V → D) :
    log f os k s = log g os k s ↔
      ∀ i o t, os[i]? = some o → (states g os k s)[i]? = some t → o.assigns t ≠ [] →
        f (k + i) = g (k + i) := by
  induction os generalizing k s with
  | nil => simp [log]
  | cons o os ih =>
    have hsplit : (∀ i o' t, (o :: os)[i]? = some o' → (states g (o :: os) k s)[i]? = some t →
        o'.assigns t ≠ [] → f (k + i) = g (k + i)) ↔ (o.assigns s ≠ [] → f k = g k) ∧
        ∀ i o' t, os[i]? = some o' →
          (states g os (k + 1) (if g k then o.run s else s))[i]? = some t →
          o'.assigns t ≠ [] → f (k + 1 + i) = g (k + 1 + i) := by
      constructor
      · intro h
        refine ⟨h 0 o s rfl rfl, ?_⟩
        intro i o' t ho ht hne
        have := h (i + 1) o' t ho ht hne
        rwa [show k + (i + 1) = k + 1 + i by omega] at this
      · rintro ⟨h0, hs⟩ i o' t ho ht hne
        cases i with
        | zero =>
          cases ho
          cases ht
          exact h0 hne
        | succ i =>
          have := hs i o' t ho ht hne
          rwa [show k + (i + 1) = k + 1 + i by omega]
    rw [hsplit, ← ih]
    by_cases hn : o.assigns s = []
    · -- without assignments the choice does not matter
      simp [log, run_eq_self hn, hn]
    · have hlate : ∀ (h : Nat → Bool) (t : V → D) e rest,
          (k, e) :: rest ≠ log h os (k + 1) t := by
        intro h t e rest heq
        have := log_index h os (k + 1) t (k, e) (heq ▸ List.mem_cons_self)
        omega
      simp only [ne_eq, hn, not_false_eq_true, forall_const, log]
      cases hf : f k <;> cases hg : g k <;> simp [entry_of_ne hn]
      · exact fun h => hlate _ _ _ _ h.symm
      · exact hlate _ _ _ _

theorem log_append (f : Nat → Bool) (os qs : List (Operand V D α κ)) (k : Nat) (s : V → D) :
    log f (os ++ qs) k s = log f os k s ++ log f qs (k + os.length) (after f os k s) := by
  induction os generalizing k s with
  | nil => rfl
  | cons o os ih =>
    have hk : k + 1 + os.length = k + (o :: os).length := by simp; omega
    simp only [List.cons_append, log, after, ih, hk]
    cases f k <;> simp

theorem after_append (f : Nat → Bool) (os qs : List (Operand V D α κ)) (k : Nat) (s : V → D) :
    after f (os ++ qs) k s = after f qs (k + os.length) (after f os k s) := by
  induction os generalizing k s with
  | nil => rfl
  | cons o os ih =>
    have hk : k + 1 + os.length = k + (o :: os).length := by simp; omega
    simp only [List.cons_append, after, ih, hk]

theorem log_congr {f g : Nat → Bool} (os : List (Operand V D α κ)) (k : Nat) (s : V → D)
    (h : ∀ i, k ≤ i → i < k + os.length → f i = g i) :
    log f os k s = log g os k s ∧ after f os k s = after g os k s := by
  induction os generalizing k s with
  | nil => exact ⟨rfl, rfl⟩
  | cons o os ih =>
    have hk : f k = g k := h k (by omega) (by simp)
    have hrest : ∀ i, k + 1 ≤ i → i < k + 1 + os.length → f i = g i := by
      intro i h1 h2
      exact h i (by omega) (by simp; omega)
    simp only [log, after, hk, (ih _ _ hrest).1, (ih _ _ hrest).2, and_self]

theorem log_none (os : List (Operand V D α κ)) (k : Nat) (s : V → D) :
    log (fun _ => false) os k s = [] ∧ after (fun _ => false) os k s = s := by
  induction os generalizing k s with
  | nil => exact ⟨rfl, rfl⟩
  | cons o os ih => simpa [log, after] using ih (k + 1) s

theorem eval_bounds (c : Cond V D α κ) (first : Nat) (s : V → D) :
    ∀ k ∈ (c.eval first s).evaluated, first ≤ k ∧ k < first + c.count := by
  induction c generalizing first s with
  | operand o => simp [eval, count, operands]
  | logic op l r ihl ihr =>
    have hcount : (Cond.logic op l r).count = l.count + r.count := by simp [count, operands]
    intro k hk
    unfold eval at hk
    simp only at hk
    split at hk
    · have := ihl first s k hk
      omega
    · rcases List.mem_append.mp hk with h | h
      · have := ihl first s k h
        omega
      · have := ihr _ _ k h
        omega

/-- The first operand is always evaluated. -/
theorem first_evaluated (c : Cond V D α κ) (first : Nat) (s : V → D) :
    first ∈ (c.eval first s).evaluated := by
  induction c generalizing first s with
  | operand o => simp [eval]
  | logic op l r ihl _ =>
    unfold eval
    simp only
    split
    · exact ihl first s
    · exact List.mem_append_left _ (ihl first s)

/-- C++ makes the assignments of the operands it evaluates, in their order. -/
theorem eval_log (c : Cond V D α κ) (first : Nat) (s : V → D) :
    (c.eval first s).log = log (· ∈ (c.eval first s).evaluated) c.operands first s ∧
      (c.eval first s).state = after (· ∈ (c.eval first s).evaluated) c.operands first s := by
  induction c generalizing first s with
  | operand o => simp [eval, operands, log, after]
  | logic op l r ihl ihr =>
    have hl := ihl first s
    have hbl := eval_bounds l first s
    simp only [operands, log_append, after_append]
    unfold eval
    simp only
    split
    · -- the right side is skipped
      have hskip := log_congr (f := fun k => decide (k ∈ (l.eval first s).evaluated))
        (g := fun _ => false) r.operands (first + l.operands.length)
        (after (· ∈ (l.eval first s).evaluated) l.operands first s) (by
          intro i h1 h2
          have : i ∉ (l.eval first s).evaluated := by
            intro h
            have := (hbl i h).2
            unfold count at this
            omega
          simp [this])
      rw [hskip.1, hskip.2, (log_none _ _ _).1, (log_none _ _ _).2, List.append_nil]
      exact hl
    · have hr := ihr (first + l.count) (l.eval first s).state
      have hbr := eval_bounds r (first + l.count) (l.eval first s).state
      have hleft := log_congr (f := fun k => decide (k ∈ (l.eval first s).evaluated ++
          (r.eval (first + l.count) (l.eval first s).state).evaluated))
        (g := fun k => decide (k ∈ (l.eval first s).evaluated)) l.operands first s (by
          intro i h1 h2
          have : i ∉ (r.eval (first + l.count) (l.eval first s).state).evaluated := by
            intro h
            have := (hbr i h).1
            unfold count at this
            omega
          simp [this])
      have hright := log_congr (f := fun k => decide (k ∈ (l.eval first s).evaluated ++
          (r.eval (first + l.count) (l.eval first s).state).evaluated))
        (g := fun k => decide (k ∈ (r.eval (first + l.count) (l.eval first s).state).evaluated))
        r.operands (first + l.operands.length) (l.eval first s).state (by
          intro i h1 h2
          have : i ∉ (l.eval first s).evaluated := by
            intro h
            have := (hbl i h).2
            unfold count at this
            omega
          simp [this])
      rw [hleft.1, hleft.2, ← hl.2, hright.1, hright.2, ← hl.1]
      exact ⟨by rw [hr.1]; rfl, hr.2⟩

end Log
theorem count_logic (op : LogicOp) (l r : Cond V D α κ) :
    (Cond.logic op l r).count = l.count + r.count := by
  simp [count, operands]

theorem count_pos (c : Cond V D α κ) : 0 < c.count := by
  induction c with
  | operand o => simp [count, operands]
  | logic op l r ihl _ => rw [count_logic]; omega

theorem blocks_logic (op : LogicOp) (l r : Cond V D α κ)
    (term : Option (LogicOp × Cond V D α κ)) (t e first : Nat) :
    ∃ t' e', (Cond.logic op l r).blocks term t e first =
        l.blocks (some (op, l)) t' e' first ++ r.blocks term t e (first + l.count) ∧
      (match op with | .land => t' | .lor => e') = first + l.count := by
  cases op with
  | land => exact ⟨_, _, rfl, rfl⟩
  | lor => exact ⟨_, _, rfl, rfl⟩

theorem blocks_length (c : Cond V D α κ) (term : Option (LogicOp × Cond V D α κ))
    (t e first : Nat) : (c.blocks term t e first).length = c.count := by
  induction c generalizing term t e first with
  | operand o => rfl
  | logic op l r ihl ihr =>
    obtain ⟨t', e', hb, -⟩ := blocks_logic op l r term t e first
    rw [hb, List.length_append, ihl, ihr, count_logic]

/-- The block of the last operand ends with the terminator it was given, every
other block leads to the next one. -/
theorem blocks_next (c : Cond V D α κ) (term : Option (LogicOp × Cond V D α κ))
    (t e first i : Nat) (b : Block V D α κ) (hb : (c.blocks term t e first)[i]? = some b) :
    (i + 1 < c.count → ∃ op l, b.term = some (op, l) ∧ b.toward op = first + i + 1) ∧
      (i + 1 = c.count → b.term = term ∧ b.thenSucc = t ∧ b.elseSucc = e) := by
  induction c generalizing term t e first i with
  | operand o =>
    cases i with
    | zero =>
      cases hb
      simp [count, operands]
    | succ i => simp [blocks] at hb
  | logic op l r ihl ihr =>
    obtain ⟨t', e', hbs, htoward⟩ := blocks_logic op l r term t e first
    rw [hbs, List.getElem?_append, blocks_length] at hb
    rw [count_logic]
    have hrpos := r.count_pos
    split at hb
    · rename_i hi
      have hleft := ihl (some (op, l)) t' e' first i hb
      refine ⟨fun _ => ?_, by omega⟩
      by_cases hlast : i + 1 = l.count
      · -- the last operand of the left side leads to the first of the right side
        obtain ⟨hterm, hthen, helse⟩ := hleft.2 hlast
        refine ⟨op, l, hterm, ?_⟩
        have : b.toward op = first + l.count := by
          cases op
          · exact hthen.trans htoward
          · exact helse.trans htoward
        omega
      · exact hleft.1 (by omega)
    · rename_i hi
      have hright := ihr term t e (first + l.count) (i - l.count) hb
      constructor
      · intro h
        obtain ⟨op', l', hterm, hto⟩ := hright.1 (by omega)
        exact ⟨op', l', hterm, by omega⟩
      · intro h
        exact hright.2 (by omega)

/-- Blocks passed one after the other, each dead if the one before decides. -/
def Linked : Nat → Bool → List Visit → Prop
  | _, _, [] => True
  | p, dead, v :: vs => v.index = p ∧ v.dead = dead ∧ Linked (p + 1) v.decides vs

theorem Linked.index_ge {p : Nat} {dead : Bool} {vs : List Visit} (h : Linked p dead vs) :
    ∀ v ∈ vs, p ≤ v.index := by
  induction vs generalizing p dead with
  | nil => simp
  | cons v vs ih =>
    intro w hw
    rcases List.mem_cons.mp hw with rfl | hw
    · exact Nat.le_of_eq h.1.symm
    · have := ih h.2.2 w hw
      omega

theorem Linked.first_performed {p : Nat} {dead : Bool} {vs : List Visit} (h : Linked p dead vs)
    (hne : vs ≠ []) : p ∈ performed vs ↔ dead = false := by
  cases vs with
  | nil => exact absurd rfl hne
  | cons v vs =>
    obtain ⟨hi, hd, hrest⟩ := h
    have hlate : p ∉ performed vs := by
      intro hp
      simp only [performed, List.mem_map, List.mem_filter] at hp
      obtain ⟨w, ⟨hw, -⟩, hwi⟩ := hp
      have := hrest.index_ge w hw
      omega
    unfold performed at hlate ⊢
    cases hv : v.dead <;> simp_all

/-- A later operand is performed unless the one before it decides. -/
theorem Linked.succ_performed {p : Nat} {dead : Bool} {vs : List Visit} (h : Linked p dead vs)
    {k : Nat} (hp : p ≤ k) (hk : k + 1 < p + vs.length) :
    k + 1 ∈ performed vs ↔ decidedAt vs k = false := by
  induction vs generalizing p dead with
  | nil => simp at hk; omega
  | cons v vs ih =>
    obtain ⟨hi, hd, hrest⟩ := h
    have hperf : k + 1 ∈ performed (v :: vs) ↔ k + 1 ∈ performed vs := by
      unfold performed
      cases hv : v.dead
      · simp [hv]
        intro heq
        omega
      · simp [hv]
    rw [hperf]
    simp only [List.length_cons] at hk
    by_cases hpk : k = p
    · have hlate : decidedAt vs k = false := by
        simp only [decidedAt, List.any_eq_false]
        intro w hw
        have := hrest.index_ge w hw
        simp
        omega
      have hne : vs ≠ [] := by
        intro hnil
        simp [hnil] at hk
        omega
      have hfirst := hrest.first_performed hne
      rw [← hpk] at hfirst hi
      rw [hfirst]
      unfold decidedAt at hlate ⊢
      rw [List.any_cons, hlate, hi]
      simp
    · have hv : decidedAt (v :: vs) k = decidedAt vs k := by
        have : v.index ≠ k := by omega
        simp [decidedAt, this]
      rw [hv]
      exact ih hrest (by omega) (by omega)

theorem graph_next (c : Cond V D α κ) {p : Nat} (hp : p < c.count) :
    ∃ b, c.graph[p]? = some b ∧ (p + 1 = c.count ∧ b.term = none ∨
      ∃ op l, b.term = some (op, l) ∧ b.toward op = p + 1) := by
  have hlt : p < c.graph.length := by
    rw [graph, blocks_length]
    exact hp
  have hget : c.graph[p]? = some c.graph[p] := List.getElem?_eq_getElem hlt
  have hnext := blocks_next c none _ _ 0 p _ hget
  refine ⟨_, hget, ?_⟩
  by_cases hlast : p + 1 = c.count
  · exact .inl ⟨hlast, (hnext.2 hlast).1⟩
  · obtain ⟨op, l, hterm, hto⟩ := hnext.1 (by omega)
    exact .inr ⟨op, l, hterm, by omega⟩

theorem traverseConst_linked (c : Cond V D α κ) (vals : Values α κ)
    (whole : Option (Cond V D α κ)) (n p : Nat) (pos : Position α κ) (dead : Bool)
    (hd : pos.dead = dead) (hn : p + n = c.count) :
    Linked p dead (traverseConst vals c.graph whole n p pos) ∧
      (traverseConst vals c.graph whole n p pos).length = n := by
  induction n generalizing p pos dead with
  | zero => exact ⟨trivial, rfl⟩
  | succ n ih =>
    obtain ⟨b, hget, ⟨hlast, hterm⟩ | ⟨op, l, hterm, hto⟩⟩ := c.graph_next (p := p) (by omega)
    · have hn0 : n = 0 := by omega
      simp [traverseConst, hget, hterm, Linked, hn0, hd]
    · unfold traverseConst
      simp only [hget, hterm, hto]
      constructor
      · refine ⟨rfl, hd, (ih (p + 1) _ _ ?_ (by omega)).1⟩
        rfl
      · rw [List.length_cons, (ih (p + 1) _ _ rfl (by omega)).2]

theorem traverseProc_linked (c : Cond V D α κ) (cond : Nat → Option Bool) (n p : Nat)
    (dead : Bool) (hn : p + n = c.count) :
    Linked p dead (traverseProc c.graph cond n p dead) ∧
      (traverseProc c.graph cond n p dead).length = n := by
  induction n generalizing p dead with
  | zero => exact ⟨trivial, rfl⟩
  | succ n ih =>
    obtain ⟨b, hget, ⟨hlast, hterm⟩ | ⟨op, l, hterm, hto⟩⟩ := c.graph_next (p := p) (by omega)
    · have hn0 : n = 0 := by omega
      simp [traverseProc, hget, hterm, Linked, hn0]
    · unfold traverseProc
      simp only [hget, hterm, hto]
      exact ⟨⟨rfl, rfl, (ih (p + 1) _ (by omega)).1⟩,
        congrArg (· + 1) (ih (p + 1) _ (by omega)).2⟩

theorem propagate_linked (c : Cond V D α κ) (vals : Values α κ) (final : Bool) (a : α) :
    Linked 0 false (c.propagate vals final a) ∧ (c.propagate vals final a).length = c.count :=
  traverseConst_linked c vals _ c.count 0 _ false rfl (by omega)

theorem generate_linked (c : Cond V D α κ) (vals : Values α κ) (final : Bool) (states : List α) :
    Linked 0 false (c.generate vals final states) ∧
      (c.generate vals final states).length = c.count :=
  traverseProc_linked c _ c.count 0 false (by omega)

section Preserved
variable [DecidableEq V]

/-- The calls that an analysis performs make the assignments that C++ makes. -/
def SameEffects (c : Cond V D α κ) (vs : List Visit) (s : V → D) : Prop :=
  log (· ∈ performed vs) c.operands 0 s = (c.eval 0 s).log

/-- An error is reported, or both the constant propagation from one of its
states and the generated code have the side effects of C++. -/
def Preserved (c : Cond V D α κ) (vals : Values α κ) (final : Bool) (states : List α) (a : α)
    (s : V → D) : Prop :=
  c.reported vals final states = true ∨
    c.SameEffects (c.propagate vals final a) s ∧ c.SameEffects (c.generate vals final states) s

/-- Of the operands behind the first whose calls assign something, C++ evaluates
exactly those that do not follow a left side known to decide. -/
def FollowsUndecided (c : Cond V D α κ) (vs : List Visit) (s : V → D) : Prop :=
  ∀ k o t, c.operands[k + 1]? = some o →
    (states (· ∈ (c.eval 0 s).evaluated) c.operands 0 s)[k + 1]? = some t → o.assigns t ≠ [] →
      (k + 1 ∈ (c.eval 0 s).evaluated ↔ decidedAt vs k = false)

theorem sameEffects_iff (c : Cond V D α κ) {vs : List Visit} (hlink : Linked 0 false vs)
    (hlen : vs.length = c.count) (s : V → D) : c.SameEffects vs s ↔ c.FollowsUndecided vs s := by
  unfold SameEffects
  rw [(c.eval_log 0 s).1, log_eq_iff]
  have hfirst : 0 ∈ performed vs := by
    refine (hlink.first_performed ?_).mpr rfl
    intro hnil
    have := c.count_pos
    simp [hnil] at hlen
    omega
  constructor
  · intro h k o t ho ht hne
    have hk : k + 1 < c.operands.length := (List.getElem?_eq_some_iff.mp ho).1
    have heq := h (k + 1) o t ho ht hne
    rw [← hlink.succ_performed (Nat.zero_le k) (by unfold count at hlen; omega)]
    simpa using heq.symm
  · intro h i o t ho ht hne
    cases i with
    | zero => simp [hfirst, c.first_evaluated 0 s]
    | succ k =>
      have hk : k + 1 < c.operands.length := (List.getElem?_eq_some_iff.mp ho).1
      have hiff := h k o t ho ht hne
      rw [← hlink.succ_performed (Nat.zero_le k) (by unfold count at hlen; omega)] at hiff
      simpa using hiff.symm

end Preserved
end Cond

/-! `if (s.read() || dec(x))` where `dec` decrements its reference argument. -/
namespace SignalOrCall

inductive Var where
  | s
  | x
  deriving DecidableEq

/-- Constant propagation knows `x` only. -/
abbrev Known := Option Int

def readSignal : Operand Var Int Known (Option Bool) where
  assigns _ := []
  value t := t .s ≠ 0
  analyze := id
  parse _ := none
  direct := false

def callDec : Operand Var Int Known (Option Bool) where
  assigns t := [(.x, t .x - 1)]
  value t := t .x ≠ 0
  analyze a := a.map (· - 1)
  parse a := a.map fun n => decide (n + 1 ≠ 0)
  direct := false

def cond : Cond Var Int Known (Option Bool) :=
  .logic .lor (.operand readSignal) (.operand callDec)

def vals : Values Known (Option Bool) where
  read v _ := v
  const v := v

def start : Var → Int
  | .s => 1
  | .x => 2

end SignalOrCall
end SystemcCompiler.Cfg
