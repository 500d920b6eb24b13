import SystemcCompiler.Scope.LinkedGraph

/-! The text printed for the graphs that are built. -/
namespace SystemcCompiler.ScopeGraph
open StmtInfo (Ptr Info)

theorem Own.of_range {g : Graph} {n : Nat} {before : List ScopeId} {x : ScopeId} (hg : Linked g n) (hx : x ≠ deadScope)
    (hentered : ∃ u ∈ List.range n, x ∈ (g u).succs)
    (honly : ∀ u ∈ List.range n, x ∈ (g u).succs → u ∈ before) : Own g before x where
  alive := hx
  entered := by
    obtain ⟨u, -, hu⟩ := hentered
    exact ⟨u, hx, hu⟩
  only u hu := honly u (List.mem_range.mpr (hg.bound u x hu).1) hu.2

namespace BreakInLoop

/-- `while (c) { if (d) break; a; } b;` -/
def code : Code :=
  .loop 1 (.ifStmt 3 (.breakStmt 5 .done) .done (.stmt 6 .done)) (.stmt 7 .done)

def cfg : Cfg where
  block
    | 1 => { elems := [7], succs := [some 0] }
    | 2 => { succs := [some 6], loopTarget := some ⟨1, false, false⟩ }
    | 3 => { elems := [6], succs := [some 2] }
    | 4 => { term := some (.breakStmt 5), succs := [some 1] }
    | 5 => { elems := [4], term := some (.ifStmt 3 true), succs := [some 4, some 3] }
    | 6 => { elems := [2], term := some (.loop 1 false), succs := [some 5, some 1], preds := [2, 7] }
    | 7 => { succs := [some 6] }
    | _ => {}
  entry := 7
  exitBlockId := 0

def info : Info where
  levels
    | 1 => some 0
    | 3 => some 1
    | 5 => some 2
    | 6 => some 1
    | 7 => some 0
    | _ => none
  subStmts
    | 2 => some 1
    | 4 => some 3
    | _ => none

def env : Env where
  live _ := true
  stmtStr
    | 6 => some "a = 1"
    | 7 => some "b = 1"
    | _ => none
  termStr
    | 1 => "while (c)"
    | 3 => "if (d)"
    | _ => "break"
  termCond _ := none
  forExtrCntr _ := false
  initStr _ := none

def scopes : List CodeScope :=
  [{}, { succs := [2] },
    { items := [⟨.loop false, "while (c)"⟩, nullItem], succs := [4], preds := [1] },
    { items := [⟨.ifStmt, "if (d)"⟩], level := 1, succs := [5, 7], preds := [2] },
    { level := 1, succs := [3], preds := [2] },
    { items := [⟨.other, "break"⟩], level := 2, succs := [8], preds := [3] },
    { items := [⟨.other, "a = 1"⟩], level := 1, succs := [9], preds := [3] },
    { level := 2, succs := [6], preds := [3] },
    { items := [⟨.other, "b = 1"⟩], succs := [11], preds := [5, 10] },
    { level := 1, succs := [10], preds := [6] },
    { items := [nullItem], succs := [8], preds := [9] },
    { preds := [8] }]

def graph : Graph := fun s => scopes.getD s {}

theorem run_scopes : (Traverse.run cfg info env 12).map (fun st =>
    (st.idGen, (List.range 12).map st.graph)) = some (12, scopes) := by
  decide +kernel

theorem run_graph : ∃ st, Traverse.run cfg info env 12 = some st ∧ st.graph = graph ∧
    st.idGen = 12 := by
  have h := run_scopes
  rw [Option.map_eq_some_iff] at h
  obtain ⟨st, hrun, hst⟩ := h
  obtain ⟨hgen, hscopes⟩ := Prod.mk.inj hst
  refine ⟨st, hrun, funext fun s => ?_, hgen⟩
  unfold graph
  rw [List.getD_eq_getElem?_getD]
  by_cases hs : s < 12
  · rw [← hscopes, List.getElem?_map, List.getElem?_range hs]
    rfl
  · have hlength : scopes.length ≤ s := Nat.not_lt.mp hs
    rw [(Traverse.run_owes hrun).fresh s (hgen ▸ Nat.not_lt.mp hs), List.getElem?_eq_none hlength]
    rfl

theorem own (hg : Linked graph 12) {before : List ScopeId} {x : ScopeId}
    (h : x ≠ deadScope ∧ (∃ u ∈ List.range 12, x ∈ (graph u).succs) ∧
      ∀ u ∈ List.range 12, x ∈ (graph u).succs → u ∈ before) : Own graph before x :=
  Own.of_range hg h.1 h.2.1 h.2.2

theorem atLevel {L : Nat} {x : ScopeId} (h : (graph x).level = L) : AtLevel graph L x :=
  ⟨h.ge, fun _ => h⟩

theorem stands (hg : Linked graph 12) : Stands graph env code 1 2 11 [2, 4, 3, 5, 7, 6, 9, 10, 8]
    where
  silent := rfl
  succs := rfl
  level := rfl
  entry u hu := by
    have hnone : ∀ u ∈ List.range 12, 1 ∉ (graph u).succs := by decide
    exact hnone u (List.mem_range.mpr (hg.bound u 1 hu).1) hu.2
  nodup := by decide
  exit := rfl
  ends := rfl
  follows := by
    have hbody : Shape graph env (.ifStmt 3 (.breakStmt 5 .done) .done (.stmt 6 .done)) 1 3
        (graph 3).items 9 (some (8, 9)) [5, 7, 6] :=
      ⟨5, 7, 6, [5], [7], [6], rfl, rfl, rfl,
        ⟨own hg (by decide), rfl, [], rfl, rfl, rfl, 8, 9, rfl, rfl⟩,
        ⟨own hg (by decide), rfl, [], rfl, rfl, rfl, rfl⟩,
        .inr ⟨Code.noConfusion, rfl, own hg (by decide), atLevel rfl, [], rfl, [], rfl, rfl, rfl, rfl⟩⟩
    have hloop : Shape graph env code 0 2 (graph 2).items 11 none [4, 3, 5, 7, 6, 9, 10, 8] :=
      .inl ⟨4, 3, 9, 8, [3, 5, 7, 6], [9, 10], [8], rfl, rfl, own hg (by decide), rfl, rfl, rfl, rfl,
        .inr ⟨Code.noConfusion, rfl, own hg (by decide), atLevel rfl, _, rfl, hbody⟩,
        ⟨10, rfl, own hg (by decide), rfl, Nat.zero_le _, rfl, own hg (by decide), rfl, rfl, rfl⟩,
        .inr ⟨Code.noConfusion, rfl, own hg (by decide), atLevel rfl, [], rfl, [], rfl, rfl, rfl, rfl⟩⟩
    exact .inr ⟨Code.noConfusion, rfl, own hg (by decide), atLevel rfl, _, rfl, hloop⟩

end BreakInLoop

section
variable {cfg : Cfg} {info : Info} {E : Env} {st : Traverse} {code : Code} {fuel : Nat}
  {x k : ScopeId} {F : List ScopeId}

/-- A graph that is built and stands for some code is printed as the text of that code. -/
theorem run_prints (hrun : Traverse.run cfg info E fuel = some st)
    (h : Stands st.graph E code 1 x k F) (o : Options) (level : Nat) :
    ∃ least, ∀ fuel ≥ least,
      printAllScopes st.graph o fuel 1 level = some (code.lines E o level) := by
  have howes := Traverse.run_owes hrun
  have hfirst : 1 < st.idGen := by
    by_contra hn
    have hempty := h.succs
    rw [howes.fresh 1 (Nat.not_lt.mp hn)] at hempty
    cases hempty
  exact h.printAllScopes howes.linked hfirst o level

theorem run_prints_loop :
    ∃ st, Traverse.run BreakInLoop.cfg BreakInLoop.info BreakInLoop.env 12 = some st ∧
      ∃ least, ∀ fuel ≥ least, printAllScopes st.graph ⟨true, true⟩ fuel 1 0 =
        some (BreakInLoop.code.lines BreakInLoop.env ⟨true, true⟩ 0) := by
  obtain ⟨st, hrun, hgraph, hgen⟩ := BreakInLoop.run_graph
  have hg := (Traverse.run_owes hrun).linked
  rw [hgraph, hgen] at hg
  have hstands := BreakInLoop.stands hg
  rw [← hgraph] at hstands
  exact ⟨st, hrun, run_prints hrun hstands ⟨true, true⟩ 0⟩

end

end SystemcCompiler.ScopeGraph
