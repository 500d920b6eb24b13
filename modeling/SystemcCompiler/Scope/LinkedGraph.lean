import SystemcCompiler.Scope.TraverseProc

/-! The scope graphs that are built: every edge into a scope is recorded as a predecessor of it,
so that printing waits for what comes before a scope and for nothing else. -/
namespace SystemcCompiler.ScopeGraph
open StmtInfo (Ptr Info)

variable {g : Graph} {n : Nat} {owed owed' : List ScopeId} {s t x : ScopeId}

/-- A graph of the scopes below `n`, where the predecessors of the scopes `owed` are still to be
recorded. -/
structure Owes (g : Graph) (n : Nat) (owed : List ScopeId) : Prop where
  fresh : ∀ t, n ≤ t → g t = {}
  bound : ∀ u, ∀ t ∈ (g u).succs, t < n
  count : ∀ t, t ≠ deadScope →
    (g t).preds.length + owed.count t = ∑ u ∈ Finset.range n, (g u).succs.count t

namespace Owes

theorem perm (h : Owes g n owed) (hperm : owed.Perm owed') : Owes g n owed' where
  fresh := h.fresh
  bound := h.bound
  count t ht := by
    rw [← hperm.count_eq t]
    exact h.count t ht

theorem create (h : Owes g n owed) (level : Nat) :
    Owes (Function.update g n { level := level }) (n + 1) owed where
  fresh t ht := by
    have hne : t ≠ n := by omega
    rw [Function.update_of_ne hne]
    exact h.fresh t (by omega)
  bound u t ht := by
    by_cases hu : u = n
    · subst hu
      rw [Function.update_self] at ht
      exact absurd ht List.not_mem_nil
    · rw [Function.update_of_ne hu] at ht
      exact Nat.lt_succ_of_lt (h.bound u t ht)
  count t ht := by
    have hpreds : (Function.update g n { level := level } t).preds = (g t).preds := by
      by_cases htn : t = n
      · rw [htn, Function.update_self, h.fresh n (Nat.le_refl n)]
      · rw [Function.update_of_ne htn]
    rw [hpreds, h.count t ht, Finset.sum_range_succ, Function.update_self]
    simp only [List.count_nil, Nat.add_zero]
    apply Finset.sum_congr rfl
    intro u hu
    rw [Function.update_of_ne (Finset.mem_range.mp hu).ne]

/-- What neither successors nor predecessors depend on. -/
theorem modify (h : Owes g n owed) (hs : s < n) (f : CodeScope → CodeScope)
    (hsuccs : (f (g s)).succs = (g s).succs) (hpreds : (f (g s)).preds = (g s).preds) :
    Owes (g.modify s f) n owed := by
  have hsame : ∀ u, (g.modify s f u).succs = (g u).succs ∧
      (g.modify s f u).preds = (g u).preds := by
    intro u
    unfold Graph.modify
    by_cases hu : u = s
    · rw [hu, Function.update_self]
      exact ⟨hsuccs, hpreds⟩
    · rw [Function.update_of_ne hu]
      exact ⟨rfl, rfl⟩
  constructor
  · intro t ht
    have hne : t ≠ s := (Nat.lt_of_lt_of_le hs ht).ne'
    unfold Graph.modify
    rw [Function.update_of_ne hne]
    exact h.fresh t ht
  · intro u t ht
    rw [(hsame u).1] at ht
    exact h.bound u t ht
  · intro t ht
    rw [(hsame t).2, h.count t ht]
    apply Finset.sum_congr rfl
    intro u _
    rw [(hsame u).1]

theorem succs_addScopeSucc (u : ScopeId) :
    (g.addScopeSucc s x u).succs = (g u).succs ++ if u = s then [x] else [] := by
  unfold Graph.addScopeSucc Graph.modify
  by_cases hu : u = s
  · rw [hu, Function.update_self, if_pos rfl]
  · rw [Function.update_of_ne hu, if_neg hu, List.append_nil]

theorem sum_addScopeSucc (hs : s < n) :
    ∑ u ∈ Finset.range n, (g.addScopeSucc s x u).succs.count t =
      (∑ u ∈ Finset.range n, (g u).succs.count t) + if x = t then 1 else 0 := by
  have hpoint : ∀ u, (g.addScopeSucc s x u).succs.count t =
      (g u).succs.count t + if u = s then (if x = t then 1 else 0) else 0 := by
    intro u
    rw [succs_addScopeSucc, List.count_append]
    by_cases hu : u = s
    · rw [if_pos hu, if_pos hu, List.count_singleton]
      simp only [beq_iff_eq]
    · rw [if_neg hu, if_neg hu, List.count_nil]
  rw [Finset.sum_congr rfl fun u _ => hpoint u, Finset.sum_add_distrib, Finset.sum_ite_eq',
    if_pos (Finset.mem_range.mpr hs)]

theorem addScopeSucc (h : Owes g n owed) (hs : s < n) (hx : x < n) :
    Owes (g.addScopeSucc s x) n (x :: owed) where
  fresh t ht := by
    have hne : t ≠ s := (Nat.lt_of_lt_of_le hs ht).ne'
    unfold Graph.addScopeSucc Graph.modify
    rw [Function.update_of_ne hne]
    exact h.fresh t ht
  bound u t ht := by
    rw [succs_addScopeSucc, List.mem_append] at ht
    rcases ht with ht | ht
    · exact h.bound u t ht
    · split at ht
      · exact List.mem_singleton.mp ht ▸ hx
      · exact absurd ht List.not_mem_nil
  count t ht := by
    have hpreds : (g.addScopeSucc s x t).preds = (g t).preds := by
      unfold Graph.addScopeSucc Graph.modify
      by_cases hts : t = s
      · rw [hts, Function.update_self]
      · rw [Function.update_of_ne hts]
    rw [sum_addScopeSucc hs, ← h.count t ht, hpreds, List.count_cons]
    simp only [beq_iff_eq]
    omega

/-- The dead scope has no predecessors. -/
theorem forget (h : Owes g n (deadScope :: owed)) : Owes g n owed where
  fresh := h.fresh
  bound := h.bound
  count t ht := by
    rw [← h.count t ht, List.count_cons_of_ne (Ne.symm ht)]

/-- The predecessors of a scope are recorded. -/
theorem addPreds (preds : List ScopeId)
    (h : Owes g n (List.replicate preds.length s ++ owed)) (hs : s < n) :
    Owes (g.modify s fun c => { c with preds := c.preds ++ preds }) n owed := by
  have hsuccs : ∀ u, (g.modify s (fun c => { c with preds := c.preds ++ preds }) u).succs =
      (g u).succs := by
    intro u
    unfold Graph.modify
    by_cases hu : u = s
    · rw [hu, Function.update_self]
    · rw [Function.update_of_ne hu]
  constructor
  · intro t ht
    have hne : t ≠ s := (Nat.lt_of_lt_of_le hs ht).ne'
    unfold Graph.modify
    rw [Function.update_of_ne hne]
    exact h.fresh t ht
  · intro u t ht
    rw [hsuccs] at ht
    exact h.bound u t ht
  · intro t ht
    have hcount := h.count t ht
    rw [List.count_append, List.count_replicate] at hcount
    rw [Finset.sum_congr rfl fun u _ => congrArg (List.count t) (hsuccs u), ← hcount]
    unfold Graph.modify
    by_cases hts : t = s
    · rw [hts, Function.update_self, List.length_append]
      simp only [beq_self_eq_true, if_true]
      omega
    · have hne : ¬(s == t) = true := fun heq => hts (beq_iff_eq.mp heq).symm
      rw [Function.update_of_ne hts, if_neg hne, Nat.zero_add]

theorem addScopePred {p : ScopeId} (h : Owes g n (s :: owed)) (hs : s < n) :
    Owes (g.addScopePred s p) n owed :=
  addPreds [p] h hs

/-- When nothing is owed, the graph is linked. -/
theorem linked (h : Owes g n []) : Linked g n where
  preds t ht := h.count t ht
  bound u t hu := by
    refine ⟨?_, h.bound u t hu.2⟩
    by_contra hn
    rw [Edge, h.fresh u (Nat.not_lt.mp hn)] at hu
    exact List.not_mem_nil hu.2

end Owes

namespace Traverse

/-- Scopes whose predecessors are delayed. -/
def delayedScopes (delayed : List (BlockId × List ScopeInfo)) : List ScopeId :=
  (delayed.flatMap (·.2)).map (·.currScope)

/-- The predecessors of delayed blocks, and those still to be stored, are not recorded yet. -/
structure Inv (st : Traverse) (succs : List ScopeId) : Prop where
  owes : Owes st.graph st.idGen (succs ++ delayedScopes st.delayed)
  curr : st.currScope < st.idGen
  infos : ∀ t ∈ succs ++ delayedScopes st.delayed, t < st.idGen

variable {st st' : Traverse} {succs : List ScopeId} {block : BlockId} {level : Nat} {ptr : Ptr}

namespace Inv

theorem create (h : Inv st succs) (level : Nat) : Inv (st.createScope level).2 succs where
  owes := h.owes.create level
  curr := Nat.lt_succ_of_lt h.curr
  infos t ht := Nat.lt_succ_of_lt (h.infos t ht)

theorem addScopeSucc (h : Inv st succs) (hx : x < st.idGen) :
    Inv (st.addScopeSucc x) (x :: succs) where
  owes := h.owes.addScopeSucc h.curr hx
  curr := h.curr
  infos := List.forall_mem_cons.mpr ⟨hx, h.infos⟩

theorem addDeadScope (h : Inv st succs) : Inv (st.addScopeSucc deadScope) succs where
  owes := (h.owes.addScopeSucc h.curr (Nat.zero_lt_of_lt h.curr)).forget
  curr := h.curr
  infos := h.infos

theorem storeItems (h : Inv st succs) (items : List Item) : Inv (st.storeItems items) succs where
  owes := h.owes.modify h.curr (fun c => { c with items := c.items ++ items }) rfl rfl
  curr := h.curr
  infos := h.infos

theorem setCurrLevel (h : Inv st succs) (level : Nat) : Inv (st.setCurrLevel level) succs where
  owes := h.owes.modify h.curr (fun c => { c with level := level }) rfl rfl
  curr := h.curr
  infos := h.infos

theorem addEmptyScope (h : Inv st succs) (level : Nat) (hx : x < st.idGen) :
    Inv (st.addEmptyScope level x) (x :: succs) := by
  have hadded := (h.create level).addScopeSucc (Nat.lt_succ_self st.idGen)
  constructor
  · have hpred := hadded.owes.addScopePred (p := st.currScope) (Nat.lt_succ_self st.idGen)
    exact hpred.addScopeSucc (Nat.lt_succ_self st.idGen) (Nat.lt_succ_of_lt hx)
  · exact hadded.curr
  · exact List.forall_mem_cons.mpr ⟨Nat.lt_succ_of_lt hx, (h.create level).infos⟩

theorem perm {succs' : List ScopeId} (h : Inv st succs) (hperm : succs.Perm succs') :
    Inv st succs' where
  owes := h.owes.perm (hperm.append_right _)
  curr := h.curr
  infos t ht := h.infos t ((hperm.append_right _).mem_iff.mpr ht)

theorem withLoopStack (h : Inv st succs) (loopStack : List Ptr) :
    Inv { st with loopStack := loopStack } succs :=
  ⟨h.owes, h.curr, h.infos⟩

theorem pushLoop (h : Inv st succs) (hpush : st.pushLoop ptr = some st') : Inv st' succs := by
  unfold Traverse.pushLoop at hpush
  split at hpush
  · cases hpush
    exact h
  · split at hpush
    · cases hpush
    · cases hpush
      exact h.withLoopStack _

theorem popLoop (h : Inv st succs) (ptr : Ptr) : Inv (st.popLoop ptr) succs := by
  unfold Traverse.popLoop
  split
  · exact h.withLoopStack _
  · exact h

/-- The scope found for a block, or created, exists. -/
theorem getScopeForBlock (h : Inv st succs) (block : BlockId) (level : Nat) :
    Inv (st.getScopeForBlock block level).2 succs ∧
      (st.getScopeForBlock block level).1 < (st.getScopeForBlock block level).2.idGen := by
  unfold Traverse.getScopeForBlock
  split
  · rename_i found info infos hfind
    refine ⟨h, h.infos _ (List.mem_append_right succs ?_)⟩
    have hmem := List.mem_of_find?_eq_some hfind
    apply List.mem_map_of_mem
    exact List.mem_flatMap.mpr ⟨_, hmem, List.mem_cons_self⟩
  · exact ⟨h.create level, Nat.lt_succ_self st.idGen⟩

theorem succeed (h : Inv st succs) (block : BlockId) (level : Nat) :
    Inv (st.succeed block level).1
      ((st.succeed block level).2.map (·.2.currScope) ++ succs) := by
  obtain ⟨hscope, hlt⟩ := h.getScopeForBlock block level
  exact hscope.addScopeSucc hlt

theorem succeedEmpty (h : Inv st succs) (block : BlockId) (level emptyLevel : Nat) :
    Inv (st.succeedEmpty block level emptyLevel).1
      ((st.succeedEmpty block level emptyLevel).2.map (·.2.currScope) ++ succs) := by
  obtain ⟨hscope, hlt⟩ := h.getScopeForBlock block level
  exact hscope.addEmptyScope emptyLevel hlt

end Inv

section
variable {cfg : Cfg} {info : Info} {E : Env} {s : Succs} {b : BlockId}

theorem inv_enterDo (h : Inv st succs) (hs : enterDo cfg info E st block = some st') :
    Inv st' succs := by
  unfold enterDo at hs
  split at hs
  · rw [Option.bind_eq_some_iff] at hs
    rename_i loop _ _
    obtain ⟨level, -, hpush⟩ := hs
    have hdo := (h.storeItems [⟨.doStmt, E.termStr loop⟩]).setCurrLevel level
    have hcreated := hdo.create (level + 1)
    have hbody := hcreated.addScopeSucc (Nat.lt_succ_self _)
    apply Inv.pushLoop _ hpush
    exact ⟨hbody.owes.addScopePred (Nat.lt_succ_self _), Nat.lt_succ_self _, hcreated.infos⟩
  · cases hs
    exact h

theorem inv_visitElem (h : Inv st succs) (hs : visitElem info E st ptr = some st') :
    Inv st' succs := by
  unfold visitElem at hs
  rw [Option.map_eq_some_iff] at hs
  obtain ⟨level, -, rfl⟩ := hs
  dsimp only
  split
  · exact (h.setCurrLevel _).storeItems _
  · exact h.setCurrLevel _

theorem inv_visitElems {elems : List Ptr} (h : Inv st succs)
    (hs : elems.foldlM (visitElem info E) st = some st') : Inv st' succs := by
  induction elems generalizing st with
  | nil =>
    cases hs
    exact h
  | cons e es ih =>
    rw [List.foldlM_cons, Option.bind_eq_bind, Option.bind_eq_some_iff] at hs
    obtain ⟨mid, he, hs⟩ := hs
    exact ih (inv_visitElem h he) hs

/-- What is to be stored of the successors of a block is what is owed for them. -/
def Owed (s : Succs) : Prop :=
  Inv s.1 (s.2.map (·.2.currScope))

theorem owed_succeed (h : Inv st []) (block : BlockId) (level : Nat) :
    Owed (st.succeed block level) := by
  have hs := h.succeed block level
  rw [List.append_nil] at hs
  exact hs

theorem owed_visitIf {elseEmpty : Bool} {thenBlock elseBlock : BlockId} (h : Inv st [])
    (hs : visitIf E st ptr elseEmpty thenBlock elseBlock = some s) : Owed s := by
  unfold visitIf at hs
  split at hs
  · cases hs
  · cases hs
    have hthen : Owed (if E.termCond ptr = some false then (st.addScopeSucc deadScope, [])
        else st.succeed thenBlock (st.level + 1)) := by
      split
      · exact h.addDeadScope
      · exact owed_succeed h _ _
    generalize (if E.termCond ptr = some false then ((st.addScopeSucc deadScope, []) : Succs)
      else st.succeed thenBlock (st.level + 1)) = t at hthen ⊢
    have helse : ∀ e : Succs, e = (if E.termCond ptr = some true then
          (t.1.addScopeSucc deadScope, [])
        else if elseEmpty = true then t.1.succeedEmpty elseBlock (st.level + 1) (st.level + 1)
        else t.1.succeed elseBlock (st.level + 1)) →
        Inv e.1 (e.2.map (·.2.currScope) ++ t.2.map (·.2.currScope)) := by
      rintro e rfl
      split
      · exact hthen.addDeadScope
      · split
        · exact hthen.succeedEmpty _ _ _
        · exact hthen.succeed _ _
    have hboth := (helse _ rfl).storeItems [⟨.ifStmt, E.termStr ptr⟩]
    unfold Owed
    rw [List.map_append]
    exact hboth.perm List.perm_append_comm

theorem owed_visitLoop {doWhile : Bool} {bodyBlock exitBlock : Option BlockId} (h : Inv st [])
    (hs : visitLoop E st ptr doWhile bodyBlock exitBlock = some s) : Owed s := by
  unfold visitLoop at hs
  dsimp only at hs
  split at hs
  · rename_i body _
    rw [Option.map_eq_some_iff] at hs
    obtain ⟨entered, hpush, rfl⟩ := hs
    obtain ⟨hscope, hlt⟩ := h.getScopeForBlock body (st.level + 1)
    have hloop := (hscope.addEmptyScope (st.level + 1) hlt).storeItems
      [⟨.loop (E.forExtrCntr ptr), E.termStr ptr⟩]
    exact (hloop.pushLoop hpush).storeItems [nullItem]
  · have hexit : Inv ((if (doWhile || st.loopStack.head? == some ptr) = true then st
        else st.storeItems (initItems E ptr)).popLoop ptr) [] := by
      apply Inv.popLoop
      split
      · exact h
      · exact h.storeItems _
    split at hs
    · cases hs
      exact hexit.storeItems [nullItem]
    · cases hs
      exact (owed_succeed hexit _ _).storeItems [nullItem]

theorem owed_visitJump (h : Inv st []) (items : List Item) (loopStack : List Ptr)
    (block : BlockId) : Owed (st.visitJump items loopStack block) :=
  owed_succeed ((h.storeItems items).withLoopStack loopStack) _ _

theorem owed_visitTerm (h : Inv st []) (hs : visitTerm cfg info E st block = some s) :
    Owed s := by
  unfold visitTerm at hs
  dsimp only at hs
  split at hs
  · split at hs
    · split at hs
      · cases hs
        exact h
      · cases hs
    · cases hs
      exact owed_succeed h _ _
    · cases hs
  · rw [Option.bind_eq_some_iff] at hs
    obtain ⟨level, -, hs⟩ := hs
    have hlevel := h.setCurrLevel level
    split at hs
    · exact owed_visitIf hlevel hs
    · exact owed_visitLoop hlevel hs
    · split at hs
      · cases hs
        exact owed_visitJump hlevel _ _ _
      · split at hs
        · cases hs
        · cases hs
          exact owed_visitJump hlevel _ _ _
    · split at hs
      · cases hs
      · cases hs
        exact owed_visitJump hlevel _ _ _
    · cases hs

theorem infos_addInfo {delayed : List (BlockId × List ScopeInfo)} {succ : BlockId × ScopeInfo}
    (hany : delayed.any (·.1 == succ.1) = true) :
    ((addInfo succ delayed).flatMap (·.2)).Perm (succ.2 :: delayed.flatMap (·.2)) := by
  induction delayed with
  | nil => cases hany
  | cons d ds ih =>
    unfold addInfo
    split
    · rw [List.flatMap_cons, List.flatMap_cons, List.append_assoc]
      exact List.perm_middle
    · rename_i hne
      rw [List.any_cons, Bool.or_eq_true, beq_iff_eq] at hany
      rw [List.flatMap_cons, List.flatMap_cons]
      exact ((ih (hany.resolve_left hne)).append_left d.2).trans List.perm_middle

theorem delayedScopes_delay (delayed : List (BlockId × List ScopeInfo))
    (succ : BlockId × ScopeInfo) :
    (delayedScopes (delay delayed succ)).Perm
      (succ.2.currScope :: delayedScopes delayed) := by
  unfold delay
  split
  · rename_i hany
    exact (infos_addInfo hany).map _
  · exact ((List.perm_orderedInsert _ _ _).flatMap_right _).map _

theorem delayedScopes_foldl (succs : List (BlockId × ScopeInfo))
    (delayed : List (BlockId × List ScopeInfo)) :
    (delayedScopes (succs.foldl delay delayed)).Perm
      (succs.map (·.2.currScope) ++ delayedScopes delayed) := by
  induction succs generalizing delayed with
  | nil => exact List.Perm.refl _
  | cons succ succs ih =>
    have hstep := (delayedScopes_delay delayed succ).append_left (succs.map (·.2.currScope))
    exact ((ih _).trans hstep).trans List.perm_middle

theorem inv_storeSuccs (h : Owed s) : Inv (storeSuccs s) [] := by
  have hperm := (delayedScopes_foldl s.2 s.1.delayed).symm
  exact ⟨h.owes.perm hperm, h.curr, fun t ht => h.infos t (hperm.mem_iff.mpr ht)⟩

theorem inv_visitBlock (h : Inv st []) (hs : visitBlock cfg info E st block = some st') :
    Inv st' [] := by
  unfold visitBlock at hs
  rw [Option.bind_eq_some_iff] at hs
  obtain ⟨entered, henter, hs⟩ := hs
  rw [Option.bind_eq_some_iff] at hs
  obtain ⟨visited, helems, hs⟩ := hs
  rw [Option.map_eq_some_iff] at hs
  obtain ⟨s, hterm, rfl⟩ := hs
  exact inv_storeSuccs (owed_visitTerm (inv_visitElems (inv_enterDo h henter) helems) hterm)

theorem inv_prepareNextBlock (h : Inv st [])
    (hs : prepareNextBlock st = some (block, st')) : Inv st' [] := by
  unfold prepareNextBlock at hs
  split at hs
  · rename_i last first rest hlast
    split at hs
    · rename_i hsame
      cases hs
      have hsplit : st.delayed.dropLast ++ [(block, first :: rest)] = st.delayed :=
        List.dropLast_append_getLast? _ hlast
      have hlast : (first :: rest).map (·.currScope) =
          List.replicate ((first :: rest).map (·.prevScope)).length first.currScope := by
        rw [List.eq_replicate_iff, List.length_map, List.length_map]
        refine ⟨rfl, List.forall_mem_map.mpr (List.forall_mem_cons.mpr ⟨rfl, fun i hi => ?_⟩)⟩
        have hi := List.all_eq_true.mp hsame i hi
        rw [Bool.and_eq_true, beq_iff_eq] at hi
        exact hi.1
      have hperm : (delayedScopes st.delayed).Perm
          (List.replicate ((first :: rest).map (·.prevScope)).length first.currScope ++
            delayedScopes st.delayed.dropLast) := by
        conv_lhs => rw [← hsplit]
        unfold delayedScopes
        rw [← hlast, List.flatMap_append, List.map_append, List.flatMap_singleton]
        exact List.perm_append_comm
      have hscope : first.currScope < st.idGen := by
        apply h.infos first.currScope
        rw [List.nil_append, hperm.mem_iff, ← hlast]
        exact List.mem_append_left _ List.mem_cons_self
      constructor
      · exact (h.owes.perm hperm).addPreds _ hscope
      · exact hscope
      · intro t ht
        apply h.infos t
        rw [List.nil_append] at ht ⊢
        exact hperm.mem_iff.mpr (List.mem_append_right _ ht)
    · cases hs
  · cases hs

theorem inv_runBlocks {fuel : Nat} (h : Inv st [])
    (hs : runBlocks cfg info E fuel st = some st') : Inv st' [] ∧ st'.delayed = [] := by
  induction fuel generalizing st with
  | zero => cases hs
  | succ fuel ih =>
    unfold runBlocks at hs
    split at hs
    · rename_i hdone
      cases hs
      exact ⟨h, hdone⟩
    · rw [Option.bind_eq_some_iff] at hs
      obtain ⟨next, hnext, hs⟩ := hs
      rw [Option.bind_eq_some_iff] at hs
      obtain ⟨visited, hvisit, hs⟩ := hs
      exact ih (inv_visitBlock (inv_prepareNextBlock h hnext) hvisit) hs

theorem inv_initContext : Inv initContext [] := by
  have hempty : Owes (fun _ => {}) 1 [] := by
    constructor
    · exact fun t _ => rfl
    · exact fun u t ht => absurd ht List.not_mem_nil
    · intro t _
      simp
  exact ⟨hempty.create 0, Nat.lt_succ_self 1, fun t ht => absurd ht List.not_mem_nil⟩

theorem run_owes {fuel : Nat} (hs : run cfg info E fuel = some st) :
    Owes st.graph st.idGen [] := by
  unfold run at hs
  rw [Option.bind_eq_some_iff] at hs
  obtain ⟨visited, hvisit, hs⟩ := hs
  obtain ⟨h, hdone⟩ := inv_runBlocks (inv_visitBlock inv_initContext hvisit) hs
  have howes := h.owes
  rw [hdone] at howes
  exact howes

end

end Traverse

end SystemcCompiler.ScopeGraph
