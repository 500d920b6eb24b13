import SystemcCompiler.Cfg.StmtInfo
import SystemcCompiler.Scope.ScopeGraph

/-! Function bodies of assignments, `if`, loops, `break` and `continue`, and the text that
stands for them. -/
namespace SystemcCompiler.ScopeGraph
open StmtInfo (Ptr)

/-- A statement of a body with the statements that follow it, `done` at the end of a block.
An `else` that is missing is an empty one. -/
inductive Code where
  | done
  | stmt (ptr : Ptr) (rest : Code)
  | ifStmt (ptr : Ptr) (thenBody elseBody rest : Code)
  /-- `for` and `while` -/
  | loop (ptr : Ptr) (body rest : Code)
  | doWhile (ptr : Ptr) (body rest : Code)
  | breakStmt (ptr : Ptr) (rest : Code)
  | continueStmt (ptr : Ptr) (rest : Code)
  deriving DecidableEq

/-- What constant propagation and the generator of expressions say about statements. -/
structure Env where
  /-- `liveStmts` -/
  live : Ptr → Bool
  /-- `parse`, nothing for declarations -/
  stmtStr : Ptr → Option String
  /-- `parseTerm` -/
  termStr : Ptr → String
  /-- `getTermCondValue`, if the condition is known -/
  termCond : Ptr → Option Bool
  /-- a `for` loop whose counter is declared before it -/
  forExtrCntr : Ptr → Bool
  /-- the initialization of a `for` loop with such a counter -/
  initStr : Ptr → Option String

namespace Code
variable (E : Env)

/-- The end of the code can be reached. -/
def falls : Code → Bool
  | done => true
  | stmt _ rest => rest.falls
  | ifStmt ptr thenBody elseBody rest =>
    (E.termCond ptr != some false && thenBody.falls ||
      E.termCond ptr != some true && elseBody.falls) && rest.falls
  | loop _ _ rest | doWhile _ _ rest => rest.falls
  | breakStmt _ _ | continueStmt _ _ => false

/-- The code after an `if` can be reached. -/
def joins (ptr : Ptr) (thenBody elseBody : Code) : Bool :=
  E.termCond ptr != some false && thenBody.falls E ||
    E.termCond ptr != some true && elseBody.falls E

/-- The code can leave the loop it is in. -/
def breaks : Code → Bool
  | done | continueStmt _ _ => false
  | stmt _ rest | loop _ _ rest | doWhile _ _ rest => rest.breaks
  | ifStmt ptr thenBody elseBody rest =>
    E.termCond ptr != some false && thenBody.breaks ||
      E.termCond ptr != some true && elseBody.breaks ||
      joins E ptr thenBody elseBody && rest.breaks
  | breakStmt _ _ => true

/-- The code can go on with the next iteration of the loop it is in. -/
def continues : Code → Bool
  | done | breakStmt _ _ => false
  | stmt _ rest | loop _ _ rest | doWhile _ _ rest => rest.continues
  | ifStmt ptr thenBody elseBody rest =>
    E.termCond ptr != some false && thenBody.continues ||
      E.termCond ptr != some true && elseBody.continues ||
      joins E ptr thenBody elseBody && rest.continues
  | continueStmt _ _ => true

/-- The loop a body belongs to can have another iteration. -/
def loops (body : Code) : Bool :=
  body.falls E || body.continues E

variable {E}

theorem exits (code : Code) : code.falls E ∨ code.breaks E ∨ code.continues E := by
  induction code with
  | done => exact .inl rfl
  | stmt ptr rest ih => exact ih
  | ifStmt ptr t e rest iht ihe ihrest =>
    have hlive : E.termCond ptr != some false ∨ E.termCond ptr != some true := by
      cases E.termCond ptr with
      | none => exact .inl rfl
      | some value => cases value <;> simp
    unfold falls breaks continues
    cases hj : joins E ptr t e with
    | true =>
      have hfalls := hj
      unfold joins at hfalls
      rw [hfalls]
      rcases ihrest with h | h | h <;> simp [h]
    | false =>
      unfold joins at hj
      rw [Bool.or_eq_false_iff, Bool.and_eq_false_iff, Bool.and_eq_false_iff] at hj
      rcases hlive with hlive | hlive
      · have ht := hj.1.resolve_left (ne_false_of_eq_true hlive)
        rcases iht with h | h | h
        · rw [ht] at h
          cases h
        all_goals simp [hlive, h]
      · have he := hj.2.resolve_left (ne_false_of_eq_true hlive)
        rcases ihe with h | h | h
        · rw [he] at h
          cases h
        all_goals simp [hlive, h]
  | loop ptr body rest _ ih => exact ih
  | doWhile ptr body rest _ ih => exact ih
  | breakStmt ptr rest _ => exact .inr (.inl rfl)
  | continueStmt ptr rest _ => exact .inr (.inr rfl)

end Code

section Text
variable (E : Env) (o : Options)

def stmtItems (ptr : Ptr) : List Item :=
  if E.live ptr then (E.stmtStr ptr).toList.map (⟨.other, ·⟩) else []

def initItems (ptr : Ptr) : List Item :=
  (E.initStr ptr).toList.map (⟨.other, ·⟩)

def itemsLines (level : Nat) (items : List Item) : List Line :=
  items.flatMap fun item => stmtLines level item.str

/-- The text of a body: blocks are enclosed in `begin` and `end` in the order of the code, dead
branches and what cannot be reached left out. -/
def Code.lines : Code → Nat → List Line
  | done, _ => []
  | stmt ptr rest, level => itemsLines level (stmtItems E ptr) ++ rest.lines level
  | ifStmt ptr thenBody elseBody rest, level =>
    let thenDead := E.termCond ptr == some false
    let elseDead := E.termCond ptr == some true
    let removeIf := (thenDead || elseDead) && o.removeEmptyIf
    ifLines o removeIf thenDead level (E.termStr ptr)
        (if thenDead then [] else thenBody.lines (branchLevel removeIf level))
        (if elseDead then [] else elseBody.lines (branchLevel removeIf level)) ++
      if joins E ptr thenBody elseBody then rest.lines level else []
  | loop ptr body rest, level =>
    (if E.termCond ptr = some false then itemsLines level (initItems E ptr)
      else loopLines o (.loop (E.forExtrCntr ptr)) level (E.termStr ptr)
        (body.lines (level + 1))) ++ rest.lines level
  | doWhile ptr body rest, level =>
    loopLines o .doStmt level (E.termStr ptr) (body.lines (level + 1)) ++ rest.lines level
  | breakStmt ptr _, level | continueStmt ptr _, level => stmtLines level (E.termStr ptr)

end Text

end SystemcCompiler.ScopeGraph
