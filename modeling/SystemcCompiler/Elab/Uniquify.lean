import SystemcCompiler.Elab.VerilogModule
import SystemcCompiler.Library.Unfolding

/-! `ElabDatabase::uniquifyVerilogModules`: modules that `isEquivalentTo` finds
equal are replaced by the first of them. -/
namespace SystemcCompiler.Elab
open Unfolding

variable {Obj : Type} [DecidableEq Obj]

/-- The inner loop: modules equivalent to `it` leave the list. -/
def mergeInto (it : VerilogModule Obj) : List (VerilogModule Obj) →
    (Obj → Option (VerilogModule Obj)) →
    Option (List (VerilogModule Obj) × (Obj → Option (VerilogModule Obj)))
  | [], verModMap => some ([], verModMap)
  | uit :: rest, verModMap =>
    match it.isEquivalentTo uit with
    | none => none
    | some true => mergeInto it rest (Function.update verModMap uit.modObj (some it))
    | some false => (mergeInto it rest verModMap).map fun (kept, verModMap) =>
        (uit :: kept, verModMap)

/-- The outer loop, with the length of the list as fuel. -/
def uniquifyFrom : Nat → List (VerilogModule Obj) → (Obj → Option (VerilogModule Obj)) →
    Option (List (VerilogModule Obj) × (Obj → Option (VerilogModule Obj)))
  | _, [], verModMap => some ([], verModMap)
  | 0, _ :: _, _ => none
  | fuel + 1, it :: rest, verModMap => do
    let (rest, verModMap) ← mergeInto it rest verModMap
    let (kept, verModMap) ← uniquifyFrom fuel rest verModMap
    some (it :: kept, verModMap)

/-- The modules of a design, one for each elaborated module object. -/
structure Design (Obj : Type) where
  verilogMods : List (VerilogModule Obj)
  modObj_nodup : (verilogMods.map (·.modObj)).Nodup

namespace Design

def verModMap (d : Design Obj) (o : Obj) : Option (VerilogModule Obj) :=
  d.verilogMods.find? fun m => m.modObj = o

/-- The modules that are left and the new `verModMap`; `none` for an exception. -/
def uniquifyVerilogModules (d : Design Obj) :
    Option (List (VerilogModule Obj) × (Obj → Option (VerilogModule Obj))) :=
  uniquifyFrom d.verilogMods.length d.verilogMods d.verModMap

end Design

/-- The objects of the instances in the text; an intrinsic module has none. -/
def VerilogModule.childObjs (m : VerilogModule Obj) : List Obj :=
  match m.verilogIntrinsic with
  | some _ => []
  | none => m.instances.map (·.modObj)

/-- The design as printed, from any module object downwards: a path of instance
positions leads to the text of a module. -/
def expanded (noFuncCallThread : Bool) (verModMap : Obj → Option (VerilogModule Obj)) :
    LabelledGraph Obj ModuleText where
  label o := (verModMap o).map (·.serializeToStream noFuncCallThread)
  children o := ((verModMap o).map VerilogModule.childObjs).getD []

/-- What `isEquivalentTo` does not compare of the text of a module. -/
def VerilogModule.uncheckedText (noFuncCallThread : Bool) (m : VerilogModule Obj) :=
  match m.verilogIntrinsic with
  | some _ => none
  | none => some (m.portText, m.signalText, m.paramText,
      m.processes.map (serializeProcess noFuncCallThread), m.svaPropCode)

/-- What `isEquivalentTo` does not compare is the same: ports with their
directions, declared variables, processes, properties and the child modules. -/
def UncheckedSame (d : Design Obj) (noFuncCallThread : Bool) (m m' : VerilogModule Obj) : Prop :=
  m.uncheckedText noFuncCallThread = m'.uncheckedText noFuncCallThread ∧
    ∀ (i : Nat) c c', m.childObjs[i]? = some c → m'.childObjs[i]? = some c' → ∀ path,
      (expanded noFuncCallThread d.verModMap).labelAt c path =
        (expanded noFuncCallThread d.verModMap).labelAt c' path

section
variable {m m' : VerilogModule Obj}

private theorem map_eq_of_forall₂ {α β : Type} {r : α → α → Prop} {f : α → β} {xs ys : List α}
    (h : List.Forall₂ r xs ys) (hf : ∀ x y, r x y → f x = f y) : xs.map f = ys.map f := by
  induction h with
  | nil => rfl
  | cons hfirst _ ih => rw [List.map_cons, List.map_cons, hf _ _ hfirst, ih]

omit [DecidableEq Obj] in
/-- The texts of equivalent modules differ only in what is not compared. -/
theorem serializeToStream_eq_iff (noFuncCallThread : Bool) (h : m.isEquivalentTo m' = some true) :
    m.serializeToStream noFuncCallThread = m'.serializeToStream noFuncCallThread ↔
      m.uncheckedText noFuncCallThread = m'.uncheckedText noFuncCallThread := by
  obtain ⟨-, ⟨code, hcode, hcode', hname⟩ | ⟨hn, hn', -, -, hinsts, hasns, -⟩⟩ :=
    (VerilogModule.isEquivalentTo_iff m m').mp h
  · simp [VerilogModule.serializeToStream, VerilogModule.uncheckedText, hcode, hcode', hname]
  · have hassign : m.assignText = m'.assignText := by
      refine map_eq_of_forall₂ (sameList_iff.mp hasns) fun a b hab => ?_
      simp only [sameAssignment, VerilogVar.same, Bool.and_eq_true, beq_iff_eq] at hab
      grind
    have hinst : m.instances.map (fun inst => (inst.name, inst.bindings)) =
        m'.instances.map fun inst => (inst.name, inst.bindings) :=
      map_eq_of_forall₂ (sameList_iff.mp hinsts) fun a b hab =>
        (VerilogModuleInstance.same_iff a b).mp hab
    simp only [VerilogModule.serializeToStream, VerilogModule.uncheckedText, hn, hn', hassign,
      hinst, ModuleText.module.injEq, Option.some.injEq, Prod.mk.injEq, true_and]

omit [DecidableEq Obj] in
theorem childObjs_length (h : m.isEquivalentTo m' = some true) :
    m.childObjs.length = m'.childObjs.length := by
  obtain ⟨-, ⟨code, hcode, hcode', -⟩ | ⟨hn, hn', -, -, hinsts, -⟩⟩ :=
    (VerilogModule.isEquivalentTo_iff m m').mp h
  · simp [VerilogModule.childObjs, hcode, hcode']
  · have hlen := (sameList_iff.mp hinsts).length_eq
    simpa [VerilogModule.childObjs, hn, hn'] using hlen

end

section Merge
variable {it : VerilogModule Obj} {fuel : Nat} {mods kept : List (VerilogModule Obj)}
  {verModMap verModMap' : Obj → Option (VerilogModule Obj)}

/-- Each module of the list is kept or merged into `it`, which alters only its own entry. -/
theorem mergeInto_spec (h : mergeInto it mods verModMap = some (kept, verModMap')) :
    kept.Sublist mods ∧ (∀ m ∈ kept, it.isEquivalentTo m ≠ some true) ∧
      (∀ m ∈ mods, m ∈ kept ∨
        (it.isEquivalentTo m = some true ∧ verModMap' m.modObj = some it)) ∧
      ∀ o, verModMap' o = verModMap o ∨
        ∃ m ∈ mods, it.isEquivalentTo m = some true ∧ m.modObj = o ∧ verModMap' o = some it := by
  induction mods generalizing kept verModMap with
  | nil =>
    simp only [mergeInto, Option.some.injEq, Prod.mk.injEq] at h
    obtain ⟨rfl, rfl⟩ := h
    simp
  | cons uit rest ih =>
    rw [mergeInto] at h
    split at h
    · cases h
    · rename_i hequiv
      obtain ⟨hsub, hkept, hcases, hframe⟩ := ih h
      have hown : verModMap' uit.modObj = some it := by
        rcases hframe uit.modObj with hsame | ⟨_, _, _, _, hit⟩
        · rw [hsame, Function.update_self]
        · exact hit
      refine ⟨hsub.cons uit, hkept, ?_, fun o => ?_⟩
      · intro m hm
        rcases List.mem_cons.mp hm with rfl | hm
        · exact .inr ⟨hequiv, hown⟩
        · exact hcases m hm
      · by_cases ho : o = uit.modObj
        · exact .inr ⟨uit, List.mem_cons_self, hequiv, ho.symm, ho ▸ hown⟩
        · rcases hframe o with hsame | ⟨m, hm, hmerged⟩
          · exact .inl (by rw [hsame, Function.update_of_ne ho])
          · exact .inr ⟨m, List.mem_cons_of_mem _ hm, hmerged⟩
    · rename_i hequiv
      obtain ⟨⟨kept', map'⟩, hrest, heq⟩ := Option.map_eq_some_iff.mp h
      simp only [Prod.mk.injEq] at heq
      obtain ⟨rfl, rfl⟩ := heq
      obtain ⟨hsub, hkept, hcases, hframe⟩ := ih hrest
      refine ⟨hsub.cons_cons uit, ?_, ?_, fun o => ?_⟩
      · intro m hm
        rcases List.mem_cons.mp hm with rfl | hm
        · simp [hequiv]
        · exact hkept m hm
      · intro m hm
        rcases List.mem_cons.mp hm with rfl | hm
        · exact .inl List.mem_cons_self
        · exact (hcases m hm).imp_left (List.mem_cons_of_mem _)
      · rcases hframe o with hsame | ⟨m, hm, hmerged⟩
        · exact .inl hsame
        · exact .inr ⟨m, List.mem_cons_of_mem _ hm, hmerged⟩

/-- Every module is mapped to an equivalent one of the list, equivalent modules
to the same one. -/
theorem uniquifyFrom_spec (h : uniquifyFrom fuel mods verModMap = some (kept, verModMap'))
    (hnodup : (mods.map (·.modObj)).Nodup)
    (hown : ∀ m ∈ mods, verModMap m.modObj = some m) :
    (∀ m ∈ mods, ∃ r ∈ mods, verModMap' m.modObj = some r ∧
        (r = m ∨ r.isEquivalentTo m = some true)) ∧
      (∀ m ∈ mods, ∀ m' ∈ mods, m.isEquivalentTo m' = some true →
        verModMap' m.modObj = verModMap' m'.modObj) ∧
      ∀ o, o ∉ mods.map (·.modObj) → verModMap' o = verModMap o := by
  induction fuel generalizing mods kept verModMap with
  | zero =>
    cases mods with
    | nil =>
      simp only [uniquifyFrom, Option.some.injEq, Prod.mk.injEq] at h
      simp [h.2]
    | cons it rest => simp [uniquifyFrom] at h
  | succ fuel ih =>
    cases mods with
    | nil =>
      simp only [uniquifyFrom, Option.some.injEq, Prod.mk.injEq] at h
      simp [h.2]
    | cons it rest =>
      obtain ⟨⟨rest', map₁⟩, hmerge, hrest⟩ := Option.bind_eq_some_iff.mp h
      obtain ⟨⟨kept', map₂⟩, hrec, heq⟩ := Option.bind_eq_some_iff.mp hrest
      simp only [Option.some.injEq, Prod.mk.injEq] at heq
      obtain ⟨-, rfl⟩ := heq
      obtain ⟨hsub, hkept, hcases, hframe⟩ := mergeInto_spec hmerge
      obtain ⟨hfresh, hnodup'⟩ := List.nodup_cons.mp hnodup
      have hinj : ∀ m ∈ rest, ∀ m' ∈ rest, m.modObj = m'.modObj → m = m' :=
        fun m hm m' hm' heq => List.inj_on_of_nodup_map hnodup' hm hm' heq
      have hown₁ : ∀ m ∈ rest', map₁ m.modObj = some m := by
        intro m hm
        rcases hframe m.modObj with hsame | ⟨m', hm', hequiv, hobj, -⟩
        · rw [hsame, hown m (List.mem_cons_of_mem _ (hsub.subset hm))]
        · obtain rfl := hinj m' hm' m (hsub.subset hm) hobj
          exact absurd hequiv (hkept m' hm)
      obtain ⟨hreps, hsame, hout⟩ := ih hrec (hnodup'.sublist (hsub.map _)) hown₁
      -- `it` and the modules merged into it are not touched by the later passes
      have hself : map₂ it.modObj = some it := by
        rw [hout it.modObj fun hmem => hfresh (List.map_subset _ hsub.subset hmem)]
        rcases hframe it.modObj with hkeep | ⟨_, _, _, _, hit⟩
        · rw [hkeep, hown it List.mem_cons_self]
        · exact hit
      have hit : ∀ m ∈ it :: rest, (m = it ∨ it.isEquivalentTo m = some true) →
          map₂ m.modObj = some it := by
        rintro m hm (rfl | hequiv)
        · exact hself
        · rcases List.mem_cons.mp hm with rfl | hm
          · exact hself
          · have hgone : m.modObj ∉ rest'.map (·.modObj) := by
              intro hmem
              obtain ⟨m', hm', hobj⟩ := List.mem_map.mp hmem
              obtain rfl := hinj m' (hsub.subset hm') m hm hobj
              exact hkept m' hm' hequiv
            rw [hout m.modObj hgone]
            exact ((hcases m hm).resolve_left fun hin => hkept m hin hequiv).2
      have hsplit : ∀ m ∈ it :: rest, (m = it ∨ it.isEquivalentTo m = some true) ∨ m ∈ rest' := by
        intro m hm
        rcases List.mem_cons.mp hm with rfl | hm
        · exact .inl (.inl rfl)
        · exact (hcases m hm).symm.imp_left fun hmerged => .inr hmerged.1
      have hclass : ∀ m m', m.isEquivalentTo m' = some true →
          (m = it ∨ it.isEquivalentTo m = some true) →
          m' = it ∨ it.isEquivalentTo m' = some true := by
        rintro m m' hequiv (rfl | hm)
        · exact .inr hequiv
        · exact .inr (VerilogModule.isEquivalentTo_trans hm hequiv)
      refine ⟨fun m hm => ?_, fun m hm m' hm' hequiv => ?_, fun o ho => ?_⟩
      · rcases hsplit m hm with hfirst | hin
        · exact ⟨it, List.mem_cons_self, hit m hm hfirst, hfirst.imp_left Eq.symm⟩
        · obtain ⟨r, hr, hmap, hrel⟩ := hreps m hin
          exact ⟨r, List.mem_cons_of_mem _ (hsub.subset hr), hmap, hrel⟩
      · rcases hsplit m hm with hfirst | hin
        · rw [hit m hm hfirst, hit m' hm' (hclass m m' hequiv hfirst)]
        · rcases hsplit m' hm' with hfirst' | hin'
          · have hback := VerilogModule.isEquivalentTo_symm hequiv
            rw [hit m' hm' hfirst', hit m hm (hclass m' m hback hfirst')]
          · exact hsame m hin m' hin' hequiv
      · obtain ⟨hne, hnot⟩ := not_or.mp (mt List.mem_cons.mpr ho)
        rw [hout o fun hmem => hnot (List.map_subset _ hsub.subset hmem)]
        rcases hframe o with hkeep | ⟨m, hm, -, hobj, -⟩
        · exact hkeep
        · exact absurd (List.mem_map.mpr ⟨m, hm, hobj⟩) hnot

end Merge

namespace Design
variable (d : Design Obj)

theorem verModMap_of_mem {m : VerilogModule Obj} (hm : m ∈ d.verilogMods) :
    d.verModMap m.modObj = some m := by
  have hfound : (d.verilogMods.find? fun x => x.modObj = m.modObj).isSome = true := by
    rw [List.find?_isSome]
    exact ⟨m, hm, by simp⟩
  obtain ⟨x, hx⟩ := Option.isSome_iff_exists.mp hfound
  have hobj : x.modObj = m.modObj := by simpa using List.find?_some hx
  have hsame : x = m :=
    List.inj_on_of_nodup_map d.modObj_nodup (List.mem_of_find?_eq_some hx) hm hobj
  rw [verModMap, hx, hsame]

theorem verModMap_of_notMem {o : Obj} (ho : o ∉ d.verilogMods.map (·.modObj)) :
    d.verModMap o = none := by
  rw [verModMap, List.find?_eq_none]
  intro m hm heq
  exact ho (List.mem_map.mpr ⟨m, hm, by simpa using heq⟩)

/-- Merging keeps the design exactly when equivalent modules agree in everything
that is printed and not compared. -/
theorem uniquify_preserves_iff (noFuncCallThread : Bool) {mods : List (VerilogModule Obj)}
    {verModMap : Obj → Option (VerilogModule Obj)}
    (h : d.uniquifyVerilogModules = some (mods, verModMap)) :
    (∀ o path, (expanded noFuncCallThread verModMap).labelAt o path =
        (expanded noFuncCallThread d.verModMap).labelAt o path) ↔
      ∀ m ∈ d.verilogMods, ∀ m' ∈ d.verilogMods, m.isEquivalentTo m' = some true →
        UncheckedSame d noFuncCallThread m m' := by
  obtain ⟨hreps, hsame, hout⟩ :=
    uniquifyFrom_spec h d.modObj_nodup fun m hm => d.verModMap_of_mem hm
  let rep : Obj → Obj := fun o => ((verModMap o).map (·.modObj)).getD o
  have hrep : ∀ o, verModMap o = d.verModMap (rep o) := by
    intro o
    by_cases ho : o ∈ d.verilogMods.map (·.modObj)
    · obtain ⟨m, hm, rfl⟩ := List.mem_map.mp ho
      obtain ⟨r, hr, hmap, -⟩ := hreps m hm
      simp only [rep, hmap, Option.map_some, Option.getD_some, d.verModMap_of_mem hr]
    · have hnone := hout o ho
      rw [d.verModMap_of_notMem ho] at hnone
      simp only [rep, hnone, Option.map_none, Option.getD_none, d.verModMap_of_notMem ho]
  have hgraph : expanded noFuncCallThread verModMap =
      (expanded noFuncCallThread d.verModMap).redirect rep := by
    simp only [expanded, LabelledGraph.redirect, hrep]
  rw [hgraph, LabelledGraph.labelAt_redirect_iff]
  have hlook : ∀ m ∈ d.verilogMods, ∀ m' ∈ d.verilogMods, m.isEquivalentTo m' = some true →
      ((∀ path, (expanded noFuncCallThread d.verModMap).labelAt m.modObj path =
        (expanded noFuncCallThread d.verModMap).labelAt m'.modObj path) ↔
        UncheckedSame d noFuncCallThread m m') := by
    intro m hm m' hm' hequiv
    have hchildren : ∀ m ∈ d.verilogMods,
        (expanded noFuncCallThread d.verModMap).children m.modObj = m.childObjs := by
      intro m hm
      simp [expanded, d.verModMap_of_mem hm]
    have hlen := childObjs_length hequiv
    rw [← hchildren m hm, ← hchildren m' hm'] at hlen
    rw [LabelledGraph.labelAt_eq_iff _ hlen, hchildren m hm, hchildren m' hm', UncheckedSame,
      ← serializeToStream_eq_iff noFuncCallThread hequiv]
    simp [expanded, d.verModMap_of_mem hm, d.verModMap_of_mem hm']
  constructor
  · intro hall m hm m' hm' hequiv
    refine (hlook m hm m' hm' hequiv).mp fun path => ?_
    have hto : rep m.modObj = rep m'.modObj := by
      obtain ⟨r, -, hmap, -⟩ := hreps m hm
      simp only [rep, ← hsame m hm m' hm' hequiv, hmap, Option.map_some, Option.getD_some]
    rw [← hall m.modObj path, hto, hall m'.modObj path]
  · intro hunchecked o path
    by_cases ho : o ∈ d.verilogMods.map (·.modObj)
    · obtain ⟨m, hm, rfl⟩ := List.mem_map.mp ho
      obtain ⟨r, hr, hmap, heq | hequiv⟩ := hreps m hm
      · simp only [rep, hmap, heq, Option.map_some, Option.getD_some]
      · simp only [rep, hmap, Option.map_some, Option.getD_some]
        exact (hlook r hr m hm hequiv).mpr (hunchecked r hr m hm hequiv) path
    · have hnone := hout o ho
      rw [d.verModMap_of_notMem ho] at hnone
      simp only [rep, hnone, Option.map_none, Option.getD_none]

/-- A module with a constant and instances only. -/
private def plainModule (modObj : Nat) (typeName : String) (n : Int)
    (instances : List (VerilogModuleInstance Nat)) : VerilogModule Nat where
  modObj
  typeName
  name := typeName
  verilogIntrinsic := none
  dataVars := [⟨modObj, "N", 32, [], [n], true, false⟩]
  channelVars := []
  verilogPorts := []
  verilogSignals := []
  instances
  processes := []
  assignments := []
  requiredVars := [modObj]
  svaPropCode := ""

/-- Two children with the same constant become one module. -/
theorem uniquify_preserves_twins :
    let twins : Design Nat :=
      ⟨[plainModule 0 "Top" 7 [⟨"a", 1, []⟩, ⟨"b", 2, []⟩], plainModule 1 "Child" 1 [],
        plainModule 2 "Child" 1 []], by decide⟩
    ∃ mods verModMap, twins.uniquifyVerilogModules = some (mods, verModMap) ∧
      mods.map (·.modObj) = [0, 1] ∧
      ((∀ o path, (expanded false verModMap).labelAt o path =
          (expanded false twins.verModMap).labelAt o path) ↔
        ∀ m ∈ twins.verilogMods, ∀ m' ∈ twins.verilogMods, m.isEquivalentTo m' = some true →
          UncheckedSame twins false m m') := by
  intro twins
  exact ⟨_, _, rfl, by decide, twins.uniquify_preserves_iff false rfl⟩

/-- `struct Parent { Child c; Parent(int n) : c("c", n) {} }` in two instances:
the children differ, the parents are merged. -/
theorem merged_parents_share_child :
    let nested : Design Nat :=
      ⟨[plainModule 0 "Top" 7 [⟨"a", 1, []⟩, ⟨"b", 3, []⟩],
        plainModule 1 "Parent" 7 [⟨"c", 2, []⟩], plainModule 2 "Child" 1 [],
        plainModule 3 "Parent" 7 [⟨"c", 4, []⟩], plainModule 4 "Child" 2 []], by decide⟩
    ∃ mods verModMap, nested.uniquifyVerilogModules = some (mods, verModMap) ∧
      mods.map (·.modObj) = [0, 1, 2, 4] ∧
      (expanded false verModMap).labelAt 0 [1, 0] ≠
        (expanded false nested.verModMap).labelAt 0 [1, 0] := by
  intro nested
  exact ⟨_, _, rfl, by decide, by decide⟩

end Design
end SystemcCompiler.Elab
