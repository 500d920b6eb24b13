import Mathlib.Data.Finset.Insert
import Mathlib.Data.List.Basic
import Mathlib.Logic.Function.Basic

/-! Levels of the statements of a function and the `break` statements that leave a switch,
as `ScStmtInfo` records them in one traversal of the body. -/
namespace SystemcCompiler.StmtInfo

/-- The address of a statement or a declaration. -/
abbrev Ptr := Nat

/-- A statement as the visitor of sub-statements sees it: an expression with the ones in it. -/
inductive SubStmt where
  | node (ptr : Ptr) (userCall : Bool) (children : List SubStmt)
  | exprWithCleanups (ptr : Ptr) (subExpr : SubStmt)

namespace SubStmt

def ptr : SubStmt → Ptr
  | node ptr _ _ => ptr
  | exprWithCleanups ptr _ => ptr

def removeExprCleanups : SubStmt → SubStmt
  | exprWithCleanups _ subExpr => subExpr.removeExprCleanups
  | node ptr userCall children => node ptr userCall children

mutual
/-- The statements visited, with whether each is a call of a user function. -/
def visited : SubStmt → List (Ptr × Bool)
  | node ptr userCall children => (ptr, userCall) :: visitedAll children
  | exprWithCleanups ptr subExpr => (ptr, false) :: subExpr.visited

def visitedAll : List SubStmt → List (Ptr × Bool)
  | [] => []
  | s :: ss => s.visited ++ visitedAll ss
end

end SubStmt

inductive SimpleKind where
  | breakStmt | returnStmt | nullStmt | other
  deriving DecidableEq

/-- Statements, with `null` for the null pointer of an absent one. -/
inductive Stmt where
  | null
  | compound (ptr : Ptr) (body : List Stmt)
  | ifStmt (ptr : Ptr) (cond : SubStmt) (thenStmt elseStmt : Stmt)
  | switchStmt (ptr : Ptr) (cond : SubStmt) (body : Stmt)
  | switchCase (ptr : Ptr) (subStmt : Stmt)
  | forStmt (ptr : Ptr) (init cond inc : Option SubStmt) (body : Stmt)
  | whileStmt (ptr : Ptr) (cond : SubStmt) (body : Stmt)
  | doStmt (ptr : Ptr) (body : Stmt) (cond : SubStmt)
  | declStmt (declGroup : List Ptr) (stmt : SubStmt)
  | labelStmt (ptr : Ptr) (subStmt : Stmt)
  | simple (kind : SimpleKind) (stmt : SubStmt)

/-- What is reported, with the statement it is reported at. -/
inductive Diag where
  | codeAfterReturn (returnStmt : Ptr)
  | funcCallIILoop (expr : Ptr)

structure Info where
  levels : Ptr → Option Nat := fun _ => none
  switchBreaks : Finset Ptr := ∅
  declGroups : Ptr → Option Ptr := fun _ => none
  loopCallCond : Finset Ptr := ∅
  subStmts : Ptr → Option Ptr := fun _ => none
  callExpr : Bool := false
  diags : List Diag := []

namespace Info

def getLevel (info : Info) (stmt : Ptr) : Option Nat := info.levels stmt

def isSwitchBreak (info : Info) (stmt : Ptr) : Bool := stmt ∈ info.switchBreaks

def getSuperStmt (info : Info) (stmt : Ptr) : Option Ptr := info.subStmts stmt

def getSubStmtLevel (info : Info) (stmt : Ptr) : Option Nat :=
  (info.getSuperStmt stmt).bind info.getLevel

/-- `emplace` keeps the entry that is there. -/
def emplace (map : Ptr → Option Ptr) (key value : Ptr) : Ptr → Option Ptr :=
  if (map key).isSome then map else Function.update map key (some value)

def addSubStmts (info : Info) (stmt : Option SubStmt) (superStmt : Ptr) : Info :=
  let visited := (stmt.map SubStmt.visited).getD []
  { info with
    callExpr := visited.any (·.2)
    subStmts := visited.foldl (fun map s =>
      if s.1 ≠ superStmt then emplace map s.1 superStmt else map) info.subStmts }

def setLevel (info : Info) (stmt : Ptr) (level : Nat) : Info :=
  { info with levels := Function.update info.levels stmt (some level) }

def checkReturn (info : Info) (returnStmt : Option Ptr) : Info :=
  { info with diags := info.diags ++ (returnStmt.map Diag.codeAfterReturn).toList }

/-- The condition of a loop, which may call functions. -/
def addLoopCond (info : Info) (cond : Option SubStmt) (loop : Ptr) : Info :=
  let info := info.addSubStmts cond loop
  if info.callExpr then { info with loopCallCond := insert loop info.loopCallCond } else info

/-- The initialization or increment of a `for` loop, which may not. -/
def addLoopExpr (info : Info) (expr : Option SubStmt) (loop : Ptr) : Info :=
  let info := info.addSubStmts expr loop
  if info.callExpr then
    { info with diags := info.diags ++ (expr.map fun e => Diag.funcCallIILoop e.ptr).toList }
  else info

def addDeclGroup (info : Info) (declGroup : List Ptr) (stmt : Ptr) : Info :=
  if declGroup.length = 1 then info
  else { info with declGroups := declGroup.foldl (emplace · · stmt) info.declGroups }

end Info

mutual
/-- The body of a statement analyzed, with the `return` statement passed before what
follows it. -/
def analyzeStmt : Stmt → Nat → Option Ptr → Bool → Info → Info × Option Ptr
  | .null, _, returnStmt, _, info => (info, returnStmt)
  | .compound _ body, level, returnStmt, switchBody, info =>
    if switchBody then
      let cases := analyzeCases body level returnStmt none info
      (cases.1, returnStmt <|> cases.2)
    else analyzeBody body level returnStmt info
  | .ifStmt ptr cond thenStmt elseStmt, level, returnStmt, switchBody, info =>
    let info := info.checkReturn returnStmt
    let thenInfo := analyzeStmt thenStmt (level + 1) returnStmt switchBody info
    let elseInfo := analyzeStmt elseStmt (level + 1) returnStmt switchBody thenInfo.1
    ((elseInfo.1.addSubStmts (some cond) ptr).setLevel ptr level, thenInfo.2 <|> elseInfo.2)
  | .switchStmt ptr cond body, level, returnStmt, _, info =>
    let bodyInfo := analyzeStmt body (level + 1) returnStmt true (info.checkReturn returnStmt)
    ((bodyInfo.1.addSubStmts (some cond) ptr).setLevel ptr level, bodyInfo.2)
  | .switchCase ptr subStmt, level, returnStmt, switchBody, info =>
    let subInfo := analyzeStmt subStmt level returnStmt switchBody (info.checkReturn returnStmt)
    (subInfo.1.setLevel ptr level, subInfo.2)
  | .forStmt ptr init cond inc body, level, returnStmt, _, info =>
    let bodyInfo := analyzeStmt body (level + 1) returnStmt false (info.checkReturn returnStmt)
    let info := bodyInfo.1.addLoopCond cond ptr
    let info := (info.addLoopExpr inc ptr).addLoopExpr init ptr
    (info.setLevel ptr level, bodyInfo.2)
  | .whileStmt ptr cond body, level, returnStmt, _, info =>
    let bodyInfo := analyzeStmt body (level + 1) returnStmt false (info.checkReturn returnStmt)
    ((bodyInfo.1.addLoopCond (some cond) ptr).setLevel ptr level, bodyInfo.2)
  | .doStmt ptr body cond, level, returnStmt, _, info =>
    let bodyInfo := analyzeStmt body (level + 1) returnStmt false (info.checkReturn returnStmt)
    ((bodyInfo.1.addLoopCond (some cond) ptr).setLevel ptr level, bodyInfo.2)
  | .declStmt declGroup stmt, level, returnStmt, _, info =>
    let info := (info.checkReturn returnStmt).addDeclGroup declGroup stmt.ptr
    ((info.addSubStmts (some stmt) stmt.ptr).setLevel stmt.ptr level, returnStmt)
  | .labelStmt ptr subStmt, level, returnStmt, switchBody, info =>
    let subInfo := analyzeStmt subStmt level returnStmt switchBody (info.checkReturn returnStmt)
    (subInfo.1.setLevel ptr level, subInfo.2)
  | .simple kind stmt, level, returnStmt, switchBody, info =>
    let stmt := stmt.removeExprCleanups
    let info := if kind = .nullStmt then info else info.checkReturn returnStmt
    let info := if switchBody && kind = .breakStmt then
      { info with switchBreaks := insert stmt.ptr info.switchBreaks } else info
    let returned := if returnStmt.isNone && kind = .returnStmt then some stmt.ptr else returnStmt
    ((info.addSubStmts (some stmt) stmt.ptr).setLevel stmt.ptr level, returned)

/-- The statements of a switch body, each as if no other one had returned. -/
def analyzeCases : List Stmt → Nat → Option Ptr → Option Ptr → Info → Info × Option Ptr
  | [], _, _, returnSwitch, info => (info, returnSwitch)
  | s :: body, level, returnStmt, returnSwitch, info =>
    let caseInfo := analyzeStmt s level returnStmt true info
    analyzeCases body level returnStmt (returnSwitch <|> caseInfo.2) caseInfo.1

def analyzeBody : List Stmt → Nat → Option Ptr → Info → Info × Option Ptr
  | [], _, returnStmt, info => (info, returnStmt)
  | s :: body, level, returnStmt, info =>
    let stmtInfo := analyzeStmt s level returnStmt false info
    analyzeBody body level stmtInfo.2 stmtInfo.1
end

/-- Run analysis for the body of a function. -/
def run (info : Info) (body : Stmt) (level : Nat) : Info :=
  (analyzeStmt body level none false info).1

namespace Stmt

def children : Stmt → List Stmt
  | null | declStmt _ _ | simple _ _ => []
  | compound _ body => body
  | ifStmt _ _ thenStmt elseStmt => [thenStmt, elseStmt]
  | switchStmt _ _ body | switchCase _ body | forStmt _ _ _ _ body | whileStmt _ _ body
  | doStmt _ body _ | labelStmt _ body => [body]

/-- The statement a level is recorded for. Blocks have none. -/
def key : Stmt → Option Ptr
  | null | compound _ _ => none
  | ifStmt ptr _ _ _ | switchStmt ptr _ _ | switchCase ptr _ | forStmt ptr _ _ _ _
  | whileStmt ptr _ _ | doStmt ptr _ _ | labelStmt ptr _ => some ptr
  | declStmt _ stmt => some stmt.ptr
  | simple _ stmt => some stmt.removeExprCleanups.ptr

mutual
/-- The statements of a tree, in the order of the code. -/
def keys : Stmt → List Ptr
  | null => []
  | compound _ body => keysAll body
  | ifStmt ptr _ thenStmt elseStmt => ptr :: (thenStmt.keys ++ elseStmt.keys)
  | switchStmt ptr _ body | switchCase ptr body | forStmt ptr _ _ _ body | whileStmt ptr _ body
  | doStmt ptr body _ | labelStmt ptr body => ptr :: body.keys
  | declStmt _ stmt => [stmt.ptr]
  | simple _ stmt => [stmt.removeExprCleanups.ptr]

def keysAll : List Stmt → List Ptr
  | [] => []
  | s :: ss => s.keys ++ keysAll ss
end

def isSwitch : Stmt → Bool
  | switchStmt _ _ _ => true
  | _ => false

def isLoop : Stmt → Bool
  | forStmt _ _ _ _ _ | whileStmt _ _ _ | doStmt _ _ _ => true
  | _ => false

def isIf : Stmt → Bool
  | ifStmt _ _ _ _ => true
  | _ => false

/-- What a `break` leaves. -/
def breakable (s : Stmt) : Bool := s.isSwitch || s.isLoop

/-- What starts a level. -/
def nests (s : Stmt) : Bool := s.isIf || s.breakable

def isBreak : Stmt → Bool
  | simple .breakStmt _ => true
  | _ => false

end Stmt

/-- A statement of a tree, with those that enclose it, the innermost first. -/
inductive Nested : Stmt → List Stmt → Stmt → Prop
  | self (s : Stmt) : Nested s [] s
  | child {s c t : Stmt} {ancestors : List Stmt} (hc : c ∈ s.children)
      (h : Nested c ancestors t) : Nested s (ancestors ++ [s]) t

/-- The innermost of these statements that `break` can leave is a switch; `outer` says it of
what encloses them all. -/
def leavesSwitch (outer : Bool) (ancestors : List Stmt) : Bool :=
  ((ancestors.find? Stmt.breakable).map Stmt.isSwitch).getD outer

def childLevel (s : Stmt) (level : Nat) : Nat := if s.nests then level + 1 else level

def childSwitchBody (s : Stmt) (switchBody : Bool) : Bool :=
  if s.breakable then s.isSwitch else switchBody

variable {s t c : Stmt} {ss ancestors : List Stmt} {level : Nat} {switchBody : Bool}
  {info mid info' : Info} {p : Ptr}

theorem leavesSwitch_append :
    leavesSwitch switchBody (ancestors ++ [s]) =
      leavesSwitch (childSwitchBody s switchBody) ancestors := by
  unfold leavesSwitch childSwitchBody
  rw [List.find?_append]
  cases ancestors.find? Stmt.breakable with
  | some t => rfl
  | none => cases hs : s.breakable <;> simp [hs]

theorem depth_append :
    level + (ancestors ++ [s]).countP Stmt.nests =
      childLevel s level + ancestors.countP Stmt.nests := by
  unfold childLevel
  rw [List.countP_append, List.countP_singleton]
  split <;> omega

theorem nested_iff {enclosing : List Stmt} :
    Nested s enclosing t ↔ enclosing = [] ∧ t = s ∨
      ∃ c ∈ s.children, ∃ ancestors, Nested c ancestors t ∧ enclosing = ancestors ++ [s] := by
  constructor
  · intro h
    cases h with
    | self => exact .inl ⟨rfl, rfl⟩
    | child hc h => exact .inr ⟨_, hc, _, h, rfl⟩
  · rintro (⟨rfl, rfl⟩ | ⟨c, hc, ancestors, h, rfl⟩)
    · exact .self _
    · exact .child hc h

/-- What the traversal of a sequence of statements records. -/
structure Recorded (ss : List Stmt) (level : Nat) (switchBody : Bool) (info info' : Info) :
    Prop where
  level : ∀ s ∈ ss, ∀ ancestors t p, Nested s ancestors t → t.key = some p →
    info'.levels p = some (level + ancestors.countP Stmt.nests)
  other : ∀ p ∉ Stmt.keysAll ss, info'.levels p = info.levels p
  breaks : ∀ p, p ∈ info'.switchBreaks ↔ p ∈ info.switchBreaks ∨ ∃ s ∈ ss, ∃ ancestors t,
    Nested s ancestors t ∧ t.isBreak ∧ t.key = some p ∧ leavesSwitch switchBody ancestors

theorem mem_keysAll : p ∈ Stmt.keysAll ss ↔ ∃ s ∈ ss, p ∈ s.keys := by
  induction ss with
  | nil => simp [Stmt.keysAll]
  | cons s ss ih => simp [Stmt.keysAll, ih]

theorem keys_eq (s : Stmt) : s.keys = s.key.toList ++ Stmt.keysAll s.children := by
  cases s <;> simp [Stmt.keys, Stmt.key, Stmt.children, Stmt.keysAll]

theorem mem_keys_of_nested (h : Nested s ancestors t) (hp : t.key = some p) : p ∈ s.keys := by
  induction h with
  | self s =>
    rw [keys_eq, hp]
    exact List.mem_append_left _ (List.mem_singleton_self p)
  | child hc _ ih =>
    rw [keys_eq]
    exact List.mem_append_right _ (mem_keysAll.mpr ⟨_, hc, ih hp⟩)

namespace Recorded

theorem nil : Recorded [] level switchBody info info where
  level s hs := absurd hs List.not_mem_nil
  other _ _ := rfl
  breaks p := by simp

theorem cons (hnd : (Stmt.keysAll (s :: ss)).Nodup) (h : Recorded [s] level switchBody info mid)
    (h' : Recorded ss level switchBody mid info') :
    Recorded (s :: ss) level switchBody info info' where
  level u hu ancestors t p hnest hp := by
    rcases List.mem_cons.mp hu with rfl | hu
    · have hmem : p ∈ u.keys := mem_keys_of_nested hnest hp
      rw [h'.other p fun hin => (List.nodup_append.mp hnd).2.2 p hmem p hin rfl]
      exact h.level u (List.mem_singleton_self u) ancestors t p hnest hp
    · exact h'.level u hu ancestors t p hnest hp
  other p hp := by
    rw [Stmt.keysAll, List.mem_append, not_or] at hp
    rw [h'.other p hp.2]
    exact h.other p (by simpa [Stmt.keysAll] using hp.1)
  breaks p := by
    rw [h'.breaks p, h.breaks p]
    simp only [List.exists_mem_cons_iff, List.not_mem_nil, false_and, exists_false, or_false,
      or_assoc]

/-- A statement is recorded after the ones in it. -/
theorem node (hnd : s.keys.Nodup)
    (h : Recorded s.children (childLevel s level) (childSwitchBody s switchBody) info mid)
    (hlevel : ∀ p, info'.levels p = if s.key = some p then some level else mid.levels p)
    (hbreaks : ∀ p, p ∈ info'.switchBreaks ↔
      p ∈ mid.switchBreaks ∨ s.isBreak ∧ s.key = some p ∧ switchBody) :
    Recorded [s] level switchBody info info' where
  level u hu ancestors t p hnest hp := by
    obtain rfl := List.mem_singleton.mp hu
    rw [hlevel]
    rcases nested_iff.mp hnest with ⟨rfl, rfl⟩ | ⟨c, hc, ancestors, hbelow, rfl⟩
    · rw [if_pos hp]
      rfl
    · have hne : u.key ≠ some p := by
        intro hkey
        rw [keys_eq, hkey] at hnd
        exact (List.nodup_cons.mp hnd).1 (mem_keysAll.mpr ⟨c, hc, mem_keys_of_nested hbelow hp⟩)
      rw [if_neg hne, depth_append]
      exact h.level c hc ancestors t p hbelow hp
  other p hp := by
    have hkeys : p ∉ s.keys := by simpa [Stmt.keysAll] using hp
    rw [keys_eq, List.mem_append, not_or] at hkeys
    rw [hlevel, if_neg (fun hkey => hkeys.1 (Option.mem_toList.mpr hkey))]
    exact h.other p hkeys.2
  breaks p := by
    rw [hbreaks, h.breaks p]
    simp only [List.mem_singleton, exists_eq_left]
    constructor
    · rintro ((hin | ⟨c, hc, ancestors, t, hnest, hbreak, hkey, hleaves⟩) | ⟨hbreak, hkey, hin⟩)
      · exact .inl hin
      · exact .inr ⟨_, t, .child hc hnest, hbreak, hkey, leavesSwitch_append ▸ hleaves⟩
      · exact .inr ⟨[], s, .self s, hbreak, hkey, hin⟩
    · rintro (hin | ⟨enclosing, t, hnest, hbreak, hkey, hleaves⟩)
      · exact .inl (.inl hin)
      · rcases nested_iff.mp hnest with ⟨rfl, rfl⟩ | ⟨c, hc, ancestors, hbelow, rfl⟩
        · exact .inr ⟨hbreak, hkey, hleaves⟩
        · rw [leavesSwitch_append] at hleaves
          exact .inl (.inr ⟨c, hc, ancestors, t, hbelow, hbreak, hkey, hleaves⟩)

/-- Only the levels and the switch breaks of the states matter. -/
theorem congr (h : Recorded ss level switchBody mid info') (hlevels : mid.levels = info.levels)
    (hbreaks : mid.switchBreaks = info.switchBreaks) :
    Recorded ss level switchBody info info' where
  level := h.level
  other p hp := (h.other p hp).trans (congrFun hlevels p)
  breaks p := by rw [h.breaks p, hbreaks]

end Recorded

namespace Info

@[simp] theorem addLoopCond_levels (info : Info) (cond : Option SubStmt) (loop : Ptr) :
    (info.addLoopCond cond loop).levels = info.levels := by
  unfold addLoopCond
  dsimp only
  split <;> rfl

@[simp] theorem addLoopCond_switchBreaks (info : Info) (cond : Option SubStmt) (loop : Ptr) :
    (info.addLoopCond cond loop).switchBreaks = info.switchBreaks := by
  unfold addLoopCond
  dsimp only
  split <;> rfl

@[simp] theorem addLoopExpr_levels (info : Info) (expr : Option SubStmt) (loop : Ptr) :
    (info.addLoopExpr expr loop).levels = info.levels := by
  unfold addLoopExpr
  dsimp only
  split <;> rfl

@[simp] theorem addLoopExpr_switchBreaks (info : Info) (expr : Option SubStmt) (loop : Ptr) :
    (info.addLoopExpr expr loop).switchBreaks = info.switchBreaks := by
  unfold addLoopExpr
  dsimp only
  split <;> rfl

@[simp] theorem addDeclGroup_levels (info : Info) (declGroup : List Ptr) (stmt : Ptr) :
    (info.addDeclGroup declGroup stmt).levels = info.levels := by
  unfold addDeclGroup
  split <;> rfl

@[simp] theorem addDeclGroup_switchBreaks (info : Info) (declGroup : List Ptr) (stmt : Ptr) :
    (info.addDeclGroup declGroup stmt).switchBreaks = info.switchBreaks := by
  unfold addDeclGroup
  split <;> rfl

end Info

theorem setLevel_levels (info : Info) (ptr : Ptr) (level : Nat) (p : Ptr) :
    (info.setLevel ptr level).levels p = if some ptr = some p then some level else info.levels p := by
  change Function.update info.levels ptr (some level) p = _
  by_cases hp : p = ptr
  · rw [hp, Function.update_self, if_pos rfl]
  · rw [Function.update_of_ne hp, if_neg (fun heq => hp (Option.some.inj heq).symm)]

theorem Recorded.block {ptr : Ptr} (hnd : (Stmt.compound ptr ss).keys.Nodup)
    (h : Recorded ss level switchBody info info') :
    Recorded [.compound ptr ss] level switchBody info info' :=
  .node hnd h (fun _ => rfl) fun p => by simp [Stmt.isBreak]

/-- A statement that is no block records its level after its children, whatever is noted of
its expressions. -/
theorem Recorded.setLevel {ptr : Ptr} (hnd : s.keys.Nodup) (hkey : s.key = some ptr)
    (hbreak : s.isBreak = false)
    (h : Recorded s.children (childLevel s level) (childSwitchBody s switchBody) info mid)
    (hlevels : info'.levels = mid.levels) (hbreaks : info'.switchBreaks = mid.switchBreaks) :
    Recorded [s] level switchBody info (info'.setLevel ptr level) := by
  apply Recorded.node hnd h
  · intro p
    rw [setLevel_levels, hlevels, hkey]
  · intro p
    change p ∈ info'.switchBreaks ↔ _
    rw [hbreaks, hbreak]
    simp

theorem sizeOf_children {s c : Stmt} (h : c ∈ s.children) : sizeOf c < sizeOf s := by
  cases s with
  | compound ptr body =>
    have hlt : sizeOf c < sizeOf body := List.sizeOf_lt_of_mem h
    simp only [Stmt.compound.sizeOf_spec]
    omega
  | ifStmt ptr cond thenStmt elseStmt =>
    rcases List.mem_pair.mp h with rfl | rfl <;> simp only [Stmt.ifStmt.sizeOf_spec] <;> omega
  | _ => simp_all [Stmt.children] <;> omega

/-- Induction over a tree of statements. -/
theorem children_induction {motive : Stmt → Prop}
    (step : ∀ s : Stmt, (∀ c ∈ s.children, motive c) → motive s) (s : Stmt) : motive s :=
  step s fun c h => by
    have := sizeOf_children h
    exact children_induction step c
termination_by sizeOf s

theorem keys_nodup (h : (Stmt.keysAll ss).Nodup) (hs : s ∈ ss) : s.keys.Nodup := by
  induction ss with
  | nil => exact absurd hs List.not_mem_nil
  | cons u ss ih =>
    have happ := List.nodup_append.mp h
    rcases List.mem_cons.mp hs with rfl | hs
    · exact happ.1
    · exact ih happ.2.1 hs

/-- The traversal of the statement is as it has to be, from any state. -/
def Traversed (s : Stmt) : Prop :=
  ∀ (level : Nat) (returnStmt : Option Ptr) (switchBody : Bool) (info : Info),
    Recorded [s] level switchBody info (analyzeStmt s level returnStmt switchBody info).1

theorem analyzeCases_recorded (hnd : (Stmt.keysAll ss).Nodup) (h : ∀ s ∈ ss, Traversed s)
    (level : Nat) (returnStmt returnSwitch : Option Ptr) (info : Info) :
    Recorded ss level true info (analyzeCases ss level returnStmt returnSwitch info).1 := by
  induction ss generalizing returnSwitch info with
  | nil => exact .nil
  | cons s ss ih =>
    have hs := h s List.mem_cons_self level returnStmt true info
    exact .cons hnd hs (ih (List.nodup_append.mp hnd).2.1
      (fun u hu => h u (List.mem_cons_of_mem s hu)) _ _)

theorem analyzeBody_recorded (hnd : (Stmt.keysAll ss).Nodup) (h : ∀ s ∈ ss, Traversed s)
    (level : Nat) (returnStmt : Option Ptr) (info : Info) :
    Recorded ss level false info (analyzeBody ss level returnStmt info).1 := by
  induction ss generalizing returnStmt info with
  | nil => exact .nil
  | cons s ss ih =>
    have hs := h s List.mem_cons_self level returnStmt false info
    exact .cons hnd hs (ih (List.nodup_append.mp hnd).2.1
      (fun u hu => h u (List.mem_cons_of_mem s hu)) _ _)

/-- A statement without others in it: here the switch breaks are recorded. -/
theorem analyzeSimple_recorded {kind : SimpleKind} {stmt : SubStmt}
    (hnd : (Stmt.simple kind stmt).keys.Nodup) : Traversed (.simple kind stmt) := by
  intro level returnStmt switchBody info
  unfold analyzeStmt
  apply Recorded.node hnd .nil
  · intro p
    rw [setLevel_levels]
    congr 1
    cases kind <;> cases switchBody <;> rfl
  · intro p
    cases kind <;> cases switchBody <;>
      simp [Info.setLevel, Info.addSubStmts, Info.checkReturn, Stmt.isBreak, Stmt.key, or_comm,
        eq_comm]

/-- One case for each statement: its children at their level, then the statement itself. -/
theorem analyzeStmt_recorded (s : Stmt) (hnd : s.keys.Nodup) : Traversed s := by
  induction s using children_induction with
  | step s ih =>
    have hkeys := hnd
    rw [keys_eq] at hkeys
    have hall := (List.nodup_append.mp hkeys).2.1
    have hchild (c : Stmt) (hc : c ∈ s.children) : Traversed c := ih c hc (keys_nodup hall hc)
    intro level returnStmt switchBody info
    -- What precedes the children changes neither the levels nor the switch breaks.
    have hbody (body : Stmt) (hb : s.children = [body]) (level : Nat) (switchBody : Bool) :
        Recorded s.children level switchBody info
          (analyzeStmt body level returnStmt switchBody (info.checkReturn returnStmt)).1 := by
      have hc := hchild body (hb ▸ List.mem_singleton_self body)
      rw [hb]
      exact (hc level returnStmt switchBody (info.checkReturn returnStmt)).congr rfl rfl
    cases s with
    | null =>
      unfold analyzeStmt
      exact .node hnd .nil (fun _ => rfl) fun p => by simp [Stmt.isBreak]
    | compound ptr body =>
      unfold analyzeStmt
      cases switchBody with
      | true =>
        exact .block hnd (analyzeCases_recorded hall hchild level returnStmt none info)
      | false =>
        exact .block hnd (analyzeBody_recorded hall hchild level returnStmt info)
    | ifStmt ptr cond thenStmt elseStmt =>
      have hthen : Recorded [thenStmt] (level + 1) switchBody info
          (analyzeStmt thenStmt (level + 1) returnStmt switchBody
            (info.checkReturn returnStmt)).1 :=
        (hchild thenStmt (by simp [Stmt.children]) (level + 1) returnStmt switchBody
          (info.checkReturn returnStmt)).congr rfl rfl
      have helse := hchild elseStmt (by simp [Stmt.children]) (level + 1) returnStmt switchBody
        (analyzeStmt thenStmt (level + 1) returnStmt switchBody (info.checkReturn returnStmt)).1
      unfold analyzeStmt
      exact .setLevel hnd rfl rfl (.cons hall hthen helse) rfl rfl
    | switchStmt ptr cond body =>
      unfold analyzeStmt
      exact .setLevel hnd rfl rfl (hbody body rfl (level + 1) true) rfl rfl
    | switchCase ptr subStmt =>
      unfold analyzeStmt
      exact .setLevel hnd rfl rfl (hbody subStmt rfl level switchBody) rfl rfl
    | forStmt ptr init cond inc body =>
      unfold analyzeStmt
      exact .setLevel hnd rfl rfl (hbody body rfl (level + 1) false) (by simp) (by simp)
    | whileStmt ptr cond body =>
      unfold analyzeStmt
      exact .setLevel hnd rfl rfl (hbody body rfl (level + 1) false) (by simp) (by simp)
    | doStmt ptr body cond =>
      unfold analyzeStmt
      exact .setLevel hnd rfl rfl (hbody body rfl (level + 1) false) (by simp) (by simp)
    | declStmt declGroup stmt =>
      unfold analyzeStmt
      refine .setLevel hnd rfl rfl .nil ?_ ?_
      · exact Info.addDeclGroup_levels ..
      · exact Info.addDeclGroup_switchBreaks ..
    | labelStmt ptr subStmt =>
      unfold analyzeStmt
      exact .setLevel hnd rfl rfl (hbody subStmt rfl level switchBody) rfl rfl
    | simple kind stmt => exact analyzeSimple_recorded hnd level returnStmt switchBody info

/-- A statement of a sequence is found by any statement in it. -/
theorem eq_of_mem_keys {u : Stmt} (hnd : (Stmt.keysAll ss).Nodup) (hs : s ∈ ss) (hu : u ∈ ss)
    (hp : p ∈ s.keys) (hp' : p ∈ u.keys) : s = u := by
  induction ss with
  | nil => exact absurd hs List.not_mem_nil
  | cons c ss ih =>
    obtain ⟨_, hrest, hdisjoint⟩ := List.nodup_append.mp hnd
    rcases List.mem_cons.mp hs with rfl | hs' <;> rcases List.mem_cons.mp hu with rfl | hu'
    · rfl
    · exact absurd rfl (hdisjoint p hp p (mem_keysAll.mpr ⟨u, hu', hp'⟩))
    · exact absurd rfl (hdisjoint p hp' p (mem_keysAll.mpr ⟨s, hs', hp⟩))
    · exact ih hrest hs' hu'

/-- A statement with a pointer of its own has one place in the tree. -/
theorem nested_unique {t' : Stmt} {ancestors' : List Stmt} (hnd : s.keys.Nodup)
    (h : Nested s ancestors t) (h' : Nested s ancestors' t') (hp : t.key = some p)
    (hp' : t'.key = some p) : ancestors' = ancestors ∧ t' = t := by
  induction h generalizing ancestors' with
  | self s =>
    rcases nested_iff.mp h' with ⟨rfl, rfl⟩ | ⟨c, hc, _, hbelow, _⟩
    · exact ⟨rfl, rfl⟩
    · rw [keys_eq, hp] at hnd
      exact absurd (mem_keysAll.mpr ⟨c, hc, mem_keys_of_nested hbelow hp'⟩)
        (List.nodup_cons.mp hnd).1
  | @child s c t ancestors hc hbelow ih =>
    have hkeys := hnd
    rw [keys_eq] at hkeys
    have hall := (List.nodup_append.mp hkeys).2.1
    have hmem := mem_keys_of_nested hbelow hp
    rcases nested_iff.mp h' with ⟨rfl, rfl⟩ | ⟨c', hc', ancestors', hbelow', rfl⟩
    · rw [hp'] at hkeys
      exact absurd (mem_keysAll.mpr ⟨c, hc, hmem⟩) (List.nodup_cons.mp hkeys).1
    · obtain rfl := eq_of_mem_keys hall hc' hc (mem_keys_of_nested hbelow' hp') hmem
      obtain ⟨rfl, rfl⟩ := ih (keys_nodup hall hc) hbelow' hp
      exact ⟨rfl, rfl⟩

theorem Nested.snoc (h : Nested s ancestors t) (hc : c ∈ t.children) :
    Nested s (t :: ancestors) c := by
  induction h with
  | self s => exact .child hc (.self c)
  | child hbelow _ ih => exact .child hbelow (ih hc)

/-- What encloses a statement is itself a statement of the tree, inside of the rest. -/
theorem Nested.of_mem {u : Stmt} (h : Nested s ancestors t) (hu : u ∈ ancestors) :
    ∃ inner outer, ancestors = inner ++ u :: outer ∧ Nested s outer u := by
  induction h with
  | self s => exact absurd hu List.not_mem_nil
  | @child s c t ancestors hc _ ih =>
    rcases List.mem_append.mp hu with hu | hu
    · obtain ⟨inner, outer, rfl, hnest⟩ := ih hu
      exact ⟨inner, outer ++ [s], by simp, .child hc hnest⟩
    · obtain rfl := List.mem_singleton.mp hu
      exact ⟨ancestors, [], rfl, .self u⟩

theorem leavesSwitch_iff :
    leavesSwitch false ancestors = true ↔
      ∃ u, ancestors.find? Stmt.breakable = some u ∧ u.isSwitch = true := by
  unfold leavesSwitch
  cases ancestors.find? Stmt.breakable <;> simp

/-- The functions of a design. Every statement has an address of its own. -/
structure Program where
  bodies : List Stmt
  distinct : (Stmt.keysAll bodies).Nodup

/-- The bodies traversed one after the other, each at the level of its call. -/
def runAll (info : Info) (runs : List (Stmt × Nat)) : Info :=
  runs.foldl (fun info r => run info r.1 r.2) info

section
variable {program : Program} {body : Stmt} {runs : List (Stmt × Nat)}

theorem run_recorded (info : Info) (hbody : body ∈ program.bodies) (level : Nat) :
    Recorded [body] level false info (run info body level) :=
  analyzeStmt_recorded body (keys_nodup program.distinct hbody) level none false info

theorem runAll_breaks (info : Info) (hruns : ∀ r ∈ runs, r.1 ∈ program.bodies) (p : Ptr) :
    p ∈ (runAll info runs).switchBreaks ↔ p ∈ info.switchBreaks ∨ ∃ r ∈ runs, ∃ ancestors t,
      Nested r.1 ancestors t ∧ t.isBreak ∧ t.key = some p ∧ leavesSwitch false ancestors := by
  induction runs generalizing info with
  | nil => simp [runAll]
  | cons r runs ih =>
    have hrun := run_recorded info (hruns r List.mem_cons_self) r.2
    have hrest := ih (run info r.1 r.2) fun r hr => hruns r (List.mem_cons_of_mem _ hr)
    change p ∈ (runAll (run info r.1 r.2) runs).switchBreaks ↔ _
    rw [hrest, hrun.breaks p]
    simp only [List.exists_mem_cons_iff, List.not_mem_nil, false_and, exists_false, or_false,
      or_assoc]

/-- The traversal of other functions keeps what is recorded of this one. -/
theorem runAll_levels (info : Info) (hruns : ∀ r ∈ runs, r.1 ∈ program.bodies)
    (hother : ∀ r ∈ runs, r.1 ≠ body) (hbody : body ∈ program.bodies) (hp : p ∈ body.keys) :
    (runAll info runs).levels p = info.levels p := by
  induction runs generalizing info with
  | nil => rfl
  | cons r runs ih =>
    have hr := hruns r List.mem_cons_self
    have hout : p ∉ Stmt.keysAll [r.1] := by
      rw [mem_keysAll]
      rintro ⟨u, hu, hpu⟩
      obtain rfl := List.mem_singleton.mp hu
      exact hother r List.mem_cons_self (eq_of_mem_keys program.distinct hr hbody hpu hp)
    change (runAll (run info r.1 r.2) runs).levels p = _
    rw [ih _ (fun r hr => hruns r (List.mem_cons_of_mem _ hr))
      (fun r hr => hother r (List.mem_cons_of_mem _ hr))]
    exact (run_recorded info hr r.2).other p hout

/-- What is known of the statements of a function entered at this level. -/
structure Classified (body : Stmt) (level : Nat) (info : Info) : Prop where
  breaks : ∀ ancestors t p, Nested body ancestors t → t.isBreak → t.key = some p →
    (info.isSwitchBreak p ↔ ∃ u, ancestors.find? Stmt.breakable = some u ∧ u.isSwitch)
  levels : ∀ ancestors t p, Nested body ancestors t → t.key = some p →
    info.getLevel p = some (level + ancestors.countP Stmt.nests)
  enclosing : ∀ ancestors t p u q, Nested body ancestors t → t.key = some p →
    u ∈ ancestors → u.nests → u.key = some q →
    ∃ m l, info.getLevel q = some m ∧ info.getLevel p = some l ∧ m < l
  block : ∀ ancestors ptr ss t u p q, Nested body ancestors (.compound ptr ss) → t ∈ ss →
    u ∈ ss → t.key = some p → u.key = some q → info.getLevel p = info.getLevel q

/-- The levels of a function are those of its last traversal. -/
theorem runAll_classified (program : Program) (before after : List (Stmt × Nat)) (body : Stmt)
    (level : Nat) (hruns : ∀ r ∈ before ++ (body, level) :: after, r.1 ∈ program.bodies)
    (hlast : ∀ r ∈ after, r.1 ≠ body) :
    Classified body level (runAll {} (before ++ (body, level) :: after)) := by
  have hrun : (body, level) ∈ before ++ (body, level) :: after := by simp
  have hbody : body ∈ program.bodies := hruns _ hrun
  have hnd : body.keys.Nodup := keys_nodup program.distinct hbody
  have hlevels : ∀ ancestors t p, Nested body ancestors t → t.key = some p →
      (runAll {} (before ++ (body, level) :: after)).getLevel p =
        some (level + ancestors.countP Stmt.nests) := by
    intro ancestors t p hnest hp
    have hafter (info : Info) : (runAll (run info body level) after).levels p =
        (run info body level).levels p :=
      runAll_levels _ (fun r hr => hruns r (by simp [hr])) hlast hbody
        (mem_keys_of_nested hnest hp)
    rw [Info.getLevel, runAll, List.foldl_append, List.foldl_cons]
    exact (hafter _).trans ((run_recorded _ hbody level).level body
      (List.mem_singleton_self body) ancestors t p hnest hp)
  refine {
    breaks := fun ancestors t p hnest hbreak hp => ?_
    levels := hlevels
    enclosing := fun ancestors t p u q hnest hp hu hnests hq => ?_
    block := fun ancestors ptr ss t u p q hnest ht hu hp hq => ?_ }
  · rw [← leavesSwitch_iff, Info.isSwitchBreak, decide_eq_true_iff, runAll_breaks {} hruns]
    constructor
    · rintro (hempty | ⟨r, hr, ancestors', t', hnest', _, hp', hleaves⟩)
      · exact absurd hempty (Finset.notMem_empty p)
      · have hsame := eq_of_mem_keys program.distinct (hruns r hr) hbody
          (mem_keys_of_nested hnest' hp') (mem_keys_of_nested hnest hp)
        rw [hsame] at hnest'
        rwa [(nested_unique hnd hnest hnest' hp hp').1] at hleaves
    · intro hleaves
      exact .inr ⟨_, hrun, ancestors, t, hnest, hbreak, hp, hleaves⟩
  · obtain ⟨inner, outer, rfl, houter⟩ := hnest.of_mem hu
    refine ⟨_, _, hlevels _ _ _ houter hq, hlevels _ _ _ hnest hp, ?_⟩
    rw [List.countP_append, List.countP_cons_of_pos hnests]
    omega
  · rw [hlevels _ _ _ (hnest.snoc ht) hp, hlevels _ _ _ (hnest.snoc hu) hq]

end

/-- `while (a) { switch (b) { case 0: if (c) break; else if (d) { break; } case 1: while (e)
break; } break; }` -/
def nestedBreaks : Stmt :=
  let expr (ptr : Ptr) : SubStmt := .node ptr false []
  let brk (ptr : Ptr) : Stmt := .simple .breakStmt (expr ptr)
  .whileStmt 1 (expr 2) (.compound 3 [
    .switchStmt 4 (expr 5) (.compound 6 [
      .switchCase 7 (.ifStmt 8 (expr 9) (brk 10)
        (.ifStmt 11 (expr 12) (.compound 13 [brk 14]) .null)),
      .switchCase 15 (.whileStmt 16 (expr 17) (brk 18))]),
    brk 19])

theorem runAll_classified_nested :
    Classified nestedBreaks 0 (runAll {} [(nestedBreaks, 0)]) ∧
      ([10, 14, 18, 19].map (runAll {} [(nestedBreaks, 0)]).isSwitchBreak =
        [true, true, false, false]) ∧
      [10, 14, 18, 19].map (runAll {} [(nestedBreaks, 0)]).getLevel =
        [some 3, some 4, some 3, some 1] :=
  ⟨runAll_classified ⟨[nestedBreaks], by decide⟩ [] [] nestedBreaks 0 (by simp) (by simp),
    by decide, by decide⟩

end SystemcCompiler.StmtInfo
