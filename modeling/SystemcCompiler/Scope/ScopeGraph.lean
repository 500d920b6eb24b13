import Mathlib.Algebra.BigOperators.Group.Finset.Basic
import Mathlib.Data.Finset.Insert
import Mathlib.Data.List.Sort

/-! The scope graph of a process, and the order in which its scopes are printed: a scope
after all its predecessors, of those the one with the highest level. -/
namespace SystemcCompiler.ScopeGraph

/-- `CodeScope::id`, zero for the scope of dead code. -/
abbrev ScopeId := Nat

def deadScope : ScopeId := 0

def isDead (scope : ScopeId) : Bool := scope == deadScope

/-- What the statement of an item decides about how it is printed. -/
inductive ItemKind where
  | ifStmt
  /-- `for` and `while`, and whether it is a `for` loop with an external counter -/
  | loop (forExtrCntr : Bool)
  | doStmt
  | other
  deriving DecidableEq

/-- A statement of a scope and the string generated for it. -/
structure Item where
  kind : ItemKind
  str : String
  deriving DecidableEq

/-- A scope with its entries in `scopeSuccs` and `scopePreds`. -/
structure CodeScope where
  items : List Item := []
  level : Nat := 0
  succs : List ScopeId := []
  preds : List ScopeId := []
  deriving DecidableEq

abbrev Graph := ScopeId → CodeScope

/-- A line of text after `getTabString(level)`; statements are printed by `printSplitString`. -/
structure Line where
  level : Nat
  str : String
  isStmt : Bool := false
  deriving DecidableEq

/-- Command line options. -/
structure Options where
  removeEmptyIf : Bool
  removeEmptyLoop : Bool

/-- Scopes with the predecessors that are printed, by increasing level. -/
abbrev PreparedScopes := List (ScopeId × List ScopeId)

/-- Add predecessors to the entry of a scope, or a new entry before the first of a higher
level. -/
def addScope (g : Graph) (prepared : PreparedScopes) (rel : ScopeId × List ScopeId) :
    PreparedScopes :=
  if prepared.any (·.1 == rel.1) then
    prepared.map fun r => if r.1 = rel.1 then (r.1, r.2 ++ rel.2) else r
  else prepared.orderedInsert (fun a b => (g a.1).level < (g b.1).level) rel

def splice (g : Graph) (prepared other : PreparedScopes) : PreparedScopes :=
  other.foldl (addScope g) prepared

/-- Where printing is, and what it has printed. -/
structure Printed where
  prepared : PreparedScopes
  visited : Finset ScopeId
  os : List Line
  deriving DecidableEq

/-- A scope finished: it is prepared for its successors. -/
def addSuccs (g : Graph) (scope : ScopeId) (p : Printed) : Printed :=
  { p with prepared := (g scope).succs.foldl (fun prepared succ =>
      if isDead succ then prepared else addScope g prepared (succ, [scope])) p.prepared }

/-- The last scope, that is of maximal level, whose predecessors are all printed. -/
def nextScope (g : Graph) (p : Printed) : Option ScopeId :=
  (p.prepared.reverse.find? fun r =>
    r.2.length == (g r.1).preds.length && decide (r.1 ∉ p.visited)).map (·.1)

/-- A scope and what follows it printed for its own, at some level. -/
abbrev PrintScope := ScopeId → Nat → Finset ScopeId → Option Printed

/-- A scope printed apart: what is prepared in it is prepared here too. -/
def printInner (g : Graph) (print : PrintScope) (scope : ScopeId) (level : Nat) (p : Printed) :
    Option (Printed × List Line) :=
  (print scope level p.visited).map fun r =>
    ({ p with prepared := splice g p.prepared r.prepared, visited := r.visited }, r.os)

def printBranch (g : Graph) (print : PrintScope) (scope : ScopeId) (level : Nat) (p : Printed) :
    Option (Printed × List Line) :=
  if isDead scope then some (p, []) else printInner g print scope level p

def ifLines (o : Options) (removeIf thenDead : Bool) (level : Nat) (str : String)
    (thenStr elseStr : List Line) : List Line :=
  if thenStr.isEmpty && elseStr.isEmpty && o.removeEmptyIf then []
  else if removeIf then if thenDead then elseStr else thenStr
  else [⟨level, str, false⟩, ⟨level, "begin", false⟩] ++ thenStr ++
    (if elseStr.isEmpty then [] else ⟨level, "end else begin", false⟩ :: elseStr) ++
    [⟨level, "end", false⟩]

def loopLines (o : Options) (kind : ItemKind) (level : Nat) (str : String)
    (loopStr : List Line) : List Line :=
  if loopStr.isEmpty && o.removeEmptyLoop && kind ≠ .loop true then []
  else [⟨level, if kind = .doStmt then "do" else str, false⟩, ⟨level, "begin", false⟩] ++
    loopStr ++ [⟨level, "end", false⟩] ++
    (if kind = .doStmt then [⟨level, str ++ ";", false⟩] else [])

def stmtLines (level : Nat) (str : String) : List Line :=
  if str = "" then [] else [⟨level, str, true⟩]

/-- A branch is one level deeper unless the other one is dead and the `if` removed. -/
def branchLevel (removeIf : Bool) (level : Nat) : Nat :=
  if removeIf then level else level + 1

def printItem (g : Graph) (o : Options) (print : PrintScope) (succs : List ScopeId)
    (level : Nat) (p : Printed) (item : Item) : Option Printed :=
  match item.kind, succs with
  | .ifStmt, [thenScope, elseScope] =>
    let removeIf := (isDead thenScope || isDead elseScope) && o.removeEmptyIf
    (printBranch g print thenScope (branchLevel removeIf level) p).bind fun t =>
    (printBranch g print elseScope (branchLevel removeIf level) t.1).map fun e =>
      { e.1 with os := p.os ++ ifLines o removeIf (isDead thenScope) level item.str t.2 e.2 }
  | .ifStmt, _ => none
  | .other, _ => some { p with os := p.os ++ stmtLines level item.str }
  | kind, [bodyScope] =>
    (printInner g print bodyScope (level + 1) p).map fun b =>
      { b.1 with os := p.os ++ loopLines o kind level item.str b.2 }
  | _, _ => none

def printItems (g : Graph) (o : Options) (print : PrintScope) (scope : ScopeId) (level : Nat)
    (items : List Item) (p : Printed) : Option Printed :=
  items.foldlM (printItem g o print (g scope).succs level) p

/-- Where the loop over scopes goes on, if not out because of the level of the next one. -/
def goesOn (g : Graph) (scopeLevel : Nat) (noExitByLevel : Bool) (p : Printed) :
    Option ScopeId :=
  match nextScope g p with
  | none => none
  | some next =>
    if (g next).items ≠ [] ∧ (g next).level < scopeLevel ∧ noExitByLevel = false then none
    else some next

/-- The loop of `printCurrentScope` from a scope on; `scopeLevel` is the level of the first. -/
def printScopes (g : Graph) (o : Options) (scopeLevel : Nat) (noExitByLevel : Bool)
    (level : Nat) : Nat → ScopeId → Printed → Option Printed
  | 0, _, _ => none
  | fuel + 1, scope, p =>
    let print : PrintScope := fun s l visited =>
      printScopes g o (g s).level false l fuel s ⟨[], visited, []⟩
    let p := { p with visited := insert scope p.visited }
    (printItems g o print scope level (g scope).items p).bind fun p =>
      let p := addSuccs g scope p
      match goesOn g scopeLevel noExitByLevel p with
      | none => some p
      | some next => printScopes g o scopeLevel noExitByLevel level fuel next p

def printCurrentScope (g : Graph) (o : Options) (fuel : Nat) (scope : ScopeId) (level : Nat)
    (noExitByLevel : Bool) (visited : Finset ScopeId) : Option Printed :=
  printScopes g o (g scope).level noExitByLevel level fuel scope ⟨[], visited, []⟩

/-- The text of a graph from its first scope. -/
def printAllScopes (g : Graph) (o : Options) (fuel : Nat) (firstScope : ScopeId)
    (printLevel : Nat) : Option (List Line) :=
  (printCurrentScope g o fuel firstScope printLevel true ∅).map (·.os)

end SystemcCompiler.ScopeGraph
