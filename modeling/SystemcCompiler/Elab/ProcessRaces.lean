import SystemcCompiler.Elab.UseDefErrors

/-! What the check of a module gives for its processes: the order in which they run is not seen,
and methods agree with the `always_comb` blocks that are printed for them. -/
namespace SystemcCompiler.UseDefErrors
open Set Relation DeltaCycle

namespace UseDefMaps
variable (m : UseDefMaps) (p : ProcessView) (ptr : Nat)

def DefinesVar : Prop :=
  ∃ x ∈ m.defined, x.proc = p ∧ x.var.address = ptr ∧ x.kind ≠ .vkChannel

def DrivesChannel : Prop :=
  ∃ x ∈ m.defined, x.proc = p ∧ x.var.address = ptr ∧ x.kind = .vkChannel

def UsesVar : Prop := ∃ x ∈ m.used, x.proc = p ∧ x.var.address = ptr ∧ x.isVariable

def ReadsChannel : Prop :=
  ∃ x ∈ m.used, x.proc = p ∧ x.var.address = ptr ∧ x.kind = .vkChannel

end UseDefMaps

/-- The maps have what the processes access. What is used as a constant is not defined. -/
structure Recorded {α : Type} (m : UseDefMaps) (proc : ProcessView → Process Nat Nat α) :
    Prop where
  defs : ∀ p, ∀ ptr ∈ (proc p).defs, m.DefinesVar p ptr
  drives : ∀ p, ∀ ptr ∈ (proc p).drives, m.DrivesChannel p ptr
  uses : ∀ p, ∀ ptr ∈ (proc p).uses, m.UsesVar p ptr ∨ ∀ q, ¬ m.DefinesVar q ptr

/-- Processes with one function are those of modular interface elements. -/
def ElementsIndependent {α : Type} (proc : ProcessView → Process Nat Nat α) : Prop :=
  ∀ p q, p ≠ q → p.location = q.location → (proc p).Independent (proc q)

def UseDefMaps.OrderFree (m : UseDefMaps) : Prop :=
  ∀ (α : Type) (proc : ProcessView → Process Nat Nat α), Recorded m proc →
    ElementsIndependent proc → ∀ order order' : List ProcessView, order.Nodup →
      order.Perm order' → ∀ s, evaluate (order.map proc) s = evaluate (order'.map proc) s

/-- A variable that one process defines and does not use, and another one uses and does not
define. -/
structure UseDefMaps.Handover (m : UseDefMaps) (p q : ProcessView) (ptr : Nat) : Prop where
  location : p.location ≠ q.location
  defines : m.DefinesVar p ptr
  notUses : ¬ m.UsesVar p ptr
  uses : m.UsesVar q ptr
  notDefines : ¬ m.DefinesVar q ptr

def UseDefMaps.HasOutput (m : UseDefMaps) (p : ProcessView) : Prop :=
  ∃ ptr, m.DefinesVar p ptr ∨ m.DrivesChannel p ptr

/-- Several processes with access to one variable or channel. -/
def MultAccess (id : ScDiagID) : Prop :=
  id = .multProcAccessVar ∨ id = .multCombDriveSig ∨ id = .multSeqDriveSig

section Races
variable {m : UseDefMaps} {bad : ScDiagID → Prop} {α : Type}
  {proc : ProcessView → Process Nat Nat α} {p q : ProcessView} {ptr : Nat}

theorem conflict_iff_shared (hcomb : bad .multCombDriveSig) (x y : Access) :
    x.Conflict bad y ↔ x.Shared y := by
  simp [Access.Conflict, hcomb]

/-- Nothing is reported for several processes. -/
structure NotShared (m : UseDefMaps) : Prop where
  defined : ∀ x ∈ m.defined, ∀ y ∈ m.defined, ¬ x.Shared y
  used : ∀ x ∈ m.used, ∀ y ∈ m.used, x.isVariable → y.isVariable → ¬ x.Shared y

theorem apart_of_comb (hcomb : bad .multCombDriveSig) (l : List Access) :
    Apart (·.var.address) (Access.Conflict bad) l := by
  have heq : Access.Conflict bad = Access.Shared :=
    funext fun x => funext fun y => propext (conflict_iff_shared hcomb x y)
  rw [heq]
  exact shared_apart l

theorem NotShared.of_clean (hmult : ∀ id, MultAccess id → bad id) (hss : ¬ bad .ssSigSensThread)
    (hclean : ¬ (detectUseDefErrors m .empty).Has bad) : NotShared m := by
  have hcomb : bad .multCombDriveSig := hmult _ (.inr (.inl rfl))
  rw [detectUseDefErrors_has bad (hmult _ (.inr (.inr rfl))) (hmult _ (.inl rfl)) hss
    (apart_of_comb hcomb _)] at hclean
  simp only [not_or] at hclean
  refine ⟨fun x hx y hy hxy => ?_, fun x hx y hy hx' hy' hxy => ?_⟩
  · exact hclean.2.1 ⟨x, hx, y, hy, (conflict_iff_shared hcomb x y).mpr hxy⟩
  · exact hclean.2.2.1
      ⟨x, List.mem_filter.mpr ⟨hx, hx'⟩, y, List.mem_filter.mpr ⟨hy, hy'⟩, hxy⟩

namespace NotShared

theorem defines (h : NotShared m) (hloc : p.location ≠ q.location) (hp : m.DefinesVar p ptr) :
    ¬ m.DefinesVar q ptr := by
  rintro ⟨y, hy, rfl, hptr, -⟩
  obtain ⟨x, hx, rfl, rfl, -⟩ := hp
  exact h.defined x hx y hy ⟨hptr.symm, hloc⟩

theorem drives (h : NotShared m) (hloc : p.location ≠ q.location) (hp : m.DrivesChannel p ptr) :
    ¬ m.DrivesChannel q ptr := by
  rintro ⟨y, hy, rfl, hptr, -⟩
  obtain ⟨x, hx, rfl, rfl, -⟩ := hp
  exact h.defined x hx y hy ⟨hptr.symm, hloc⟩

theorem uses (h : NotShared m) (hloc : p.location ≠ q.location) (hp : m.UsesVar p ptr) :
    ¬ m.UsesVar q ptr := by
  rintro ⟨y, hy, rfl, hptr, hy'⟩
  obtain ⟨x, hx, rfl, rfl, hx'⟩ := hp
  exact h.used x hx y hy hx' hy' ⟨hptr.symm, hloc⟩

theorem disjoint_touches (h : NotShared m) (hrec : Recorded m proc)
    (hloc : p.location ≠ q.location) (hq : ∀ ptr, ¬ m.Handover p q ptr) :
    Disjoint (proc p).defs (proc q).touches := by
  refine disjoint_left.mpr fun ptr hdef htouch => ?_
  have hp := hrec.defs p ptr hdef
  rcases htouch with huse | hdef'
  · rcases hrec.uses q ptr huse with huse | hconst
    · have hnot : ¬ m.UsesVar p ptr := fun huse' => h.uses hloc huse' huse
      exact hq ptr ⟨hloc, hp, hnot, huse, h.defines hloc hp⟩
    · exact hconst p hp
  · exact h.defines hloc hp (hrec.defs q ptr hdef')

end NotShared

theorem commute_of_notShared (h : NotShared m) (hrec : Recorded m proc)
    (hmif : ElementsIndependent proc)
    (hsafe : ∀ p q ptr, m.Handover p q ptr → ¬ m.HasOutput q) (hne : p ≠ q) :
    Commute (proc p) (proc q) := by
  have hsilent : ∀ p q ptr, m.Handover p q ptr → Commute (proc q) (proc p) := by
    intro p q ptr hptr
    refine .of_silent (fun v hv => ?_) fun c hc => ?_
    · exact hsafe p q ptr hptr ⟨v, .inl (hrec.defs q v hv)⟩
    · exact hsafe p q ptr hptr ⟨c, .inr (hrec.drives q c hc)⟩
  by_cases hloc : p.location = q.location
  · exact (hmif p q hne hloc).commute
  · by_cases hpq : ∃ ptr, m.Handover p q ptr
    · obtain ⟨ptr, hptr⟩ := hpq
      exact (hsilent p q ptr hptr).symm
    by_cases hqp : ∃ ptr, m.Handover q p ptr
    · obtain ⟨ptr, hptr⟩ := hqp
      exact hsilent q p ptr hptr
    · have hdrives : Disjoint (proc p).drives (proc q).drives := disjoint_left.mpr
        fun c hp hq => h.drives hloc (hrec.drives p c hp) (hrec.drives q c hq)
      exact Process.Independent.commute
        ⟨h.disjoint_touches hrec hloc (not_exists.mp hpq),
          h.disjoint_touches hrec (Ne.symm hloc) (not_exists.mp hqp), hdrives⟩

/-- Sets one variable. -/
def setVar (ptr : Nat) : Process Nat Nat Bool where
  uses := ∅
  defs := {ptr}
  reads := ∅
  drives := ∅
  vars := fun f _ => Function.update f ptr true
  writes := fun _ _ _ => none
  vars_frame := fun _ _ _ hv => Function.update_of_ne hv _ _
  writes_frame := fun _ _ _ _ => rfl
  vars_local := fun _ _ _ _ _ _ v hv => by simp [mem_singleton_iff.mp hv]
  writes_local := fun _ _ _ _ _ _ => rfl

/-- Copies a variable to another one. -/
def copyVar (ptr out : Nat) : Process Nat Nat Bool where
  uses := {ptr}
  defs := {out}
  reads := ∅
  drives := ∅
  vars := fun f _ => Function.update f out (f ptr)
  writes := fun _ _ _ => none
  vars_frame := fun _ _ _ hv => Function.update_of_ne hv _ _
  writes_frame := fun _ _ _ _ => rfl
  vars_local := fun _ _ _ _ hf _ v hv => by simp [mem_singleton_iff.mp hv, hf (.inl rfl)]
  writes_local := fun _ _ _ _ _ _ => rfl

/-- Writes a variable to a channel. -/
def copyToChannel (ptr out : Nat) : Process Nat Nat Bool where
  uses := {ptr}
  defs := ∅
  reads := ∅
  drives := {out}
  vars := fun f _ => f
  writes := fun f _ c => if c = out then some (f ptr) else none
  vars_frame := fun _ _ _ _ => rfl
  writes_frame := fun _ _ _ hc => if_neg hc
  vars_local := fun _ _ _ _ _ _ _ hv => hv.elim
  writes_local := fun _ _ _ _ hf _ => by simp [hf (.inl rfl)]

def idle : Process Nat Nat Bool where
  uses := ∅
  defs := ∅
  reads := ∅
  drives := ∅
  vars := fun f _ => f
  writes := fun _ _ _ => none
  vars_frame := fun _ _ _ _ => rfl
  writes_frame := fun _ _ _ _ => rfl
  vars_local := fun _ _ _ _ _ _ _ hv => hv.elim
  writes_local := fun _ _ _ _ _ _ => rfl

/-- Two processes with given bodies among idle ones. -/
def pairOf (p q : ProcessView) (first second : Process Nat Nat Bool) (r : ProcessView) :
    Process Nat Nat Bool :=
  if r = p then first else if r = q then second else idle

theorem pairOf_first (p q : ProcessView) (first second : Process Nat Nat Bool) :
    pairOf p q first second p = first := if_pos rfl

theorem pairOf_second (hne : q ≠ p) (first second : Process Nat Nat Bool) :
    pairOf p q first second q = second := by
  simp [pairOf, hne]

theorem pairOf_cases (hne : q ≠ p) (first second : Process Nat Nat Bool) (r : ProcessView) :
    r = p ∧ pairOf p q first second r = first ∨ r = q ∧ pairOf p q first second r = second ∨
      pairOf p q first second r = idle := by
  by_cases hp : r = p
  · exact .inl ⟨hp, hp ▸ pairOf_first p q first second⟩
  by_cases hq : r = q
  · exact .inr (.inl ⟨hq, hq ▸ pairOf_second hne first second⟩)
  · exact .inr (.inr (by simp [pairOf, hp, hq]))

theorem idle_independent (P : Process Nat Nat Bool) : idle.Independent P :=
  ⟨disjoint_bot_left, disjoint_left.mpr fun _ _ h => h.elim id id, disjoint_bot_left⟩

theorem pairOf_elementsIndependent (hloc : p.location ≠ q.location)
    (first second : Process Nat Nat Bool) : ElementsIndependent (pairOf p q first second) := by
  intro r r' hne heq
  have hidle : pairOf p q first second r = idle ∨ pairOf p q first second r' = idle := by
    unfold pairOf
    grind
  rcases hidle with h | h
  · rw [h]
    exact idle_independent _
  · rw [h]
    exact (idle_independent _).symm

namespace UseDefMaps.Handover

theorem ne (h : m.Handover p q ptr) : q ≠ p := fun heq => h.location (heq ▸ rfl)

theorem recorded (h : m.Handover p q ptr) {second : Process Nat Nat Bool}
    (hdefs : ∀ v ∈ second.defs, m.DefinesVar q v)
    (hdrives : ∀ c ∈ second.drives, m.DrivesChannel q c) (huses : second.uses ⊆ {ptr}) :
    Recorded m (pairOf p q (setVar ptr) second) := by
  refine ⟨fun r v hv => ?_, fun r c hc => ?_, fun r v hv => ?_⟩
  · rcases pairOf_cases h.ne (setVar ptr) second r with ⟨rfl, heq⟩ | ⟨rfl, heq⟩ | heq
    all_goals rw [heq] at hv
    · exact mem_singleton_iff.mp hv ▸ h.defines
    · exact hdefs v hv
    · exact hv.elim
  · rcases pairOf_cases h.ne (setVar ptr) second r with ⟨rfl, heq⟩ | ⟨rfl, heq⟩ | heq
    all_goals rw [heq] at hc
    · exact hc.elim
    · exact hdrives c hc
    · exact hc.elim
  · rcases pairOf_cases h.ne (setVar ptr) second r with ⟨rfl, heq⟩ | ⟨rfl, heq⟩ | heq
    all_goals rw [heq] at hv
    · exact hv.elim
    · exact .inl (mem_singleton_iff.mp (huses hv) ▸ h.uses)
    · exact hv.elim

/-- Both orders give the same result only if the reader does not see the variable. -/
theorem evaluate_eq (h : m.Handover p q ptr) (hfree : m.OrderFree)
    (second : Process Nat Nat Bool) (hdefs : ∀ v ∈ second.defs, m.DefinesVar q v)
    (hdrives : ∀ c ∈ second.drives, m.DrivesChannel q c) (huses : second.uses ⊆ {ptr})
    (s : Store Nat Nat Bool) :
    (s.run (setVar ptr)).run second = (s.run second).run (setVar ptr) := by
  have horder := hfree Bool _ (h.recorded hdefs hdrives huses)
    (pairOf_elementsIndependent h.location _ _) [p, q] [q, p]
    (List.nodup_cons.mpr ⟨by simp [h.ne.symm], List.nodup_singleton q⟩) (List.Perm.swap q p []) s
  simpa [pairOf_first, pairOf_second h.ne] using horder

theorem not_orderFree (h : m.Handover p q ptr) (hout : m.HasOutput q) : ¬ m.OrderFree := by
  intro hfree
  let s : Store Nat Nat Bool := ⟨fun _ => false, fun _ => false, fun _ => false⟩
  obtain ⟨out, hdef | hdrive⟩ := hout
  · have hne : out ≠ ptr := fun heq => h.notDefines (heq ▸ hdef)
    have heq := congrArg (fun s => s.vars out) (h.evaluate_eq hfree (copyVar ptr out)
      (fun v hv => mem_singleton_iff.mp hv ▸ hdef) (fun _ hc => hc.elim) (Subset.refl _) s)
    simp [Store.run, setVar, copyVar, s, hne] at heq
  · have heq := congrArg (fun s => s.next out) (h.evaluate_eq hfree
      (copyToChannel ptr out) (fun _ hv => hv.elim)
      (fun c hc => mem_singleton_iff.mp hc ▸ hdrive) (Subset.refl _) s)
    simp [Store.run, setVar, copyToChannel, s] at heq

end UseDefMaps.Handover

end Races

/-- Combinational methods among the processes of a module and those outside. -/
def methods {E α : Type} (d : Design (ProcessView ⊕ E) Nat Nat α) : Set (ProcessView ⊕ E) :=
  {p | p ∈ d.procs ∧ ∃ q, p = .inl q ∧ q.isCombinational}

/-- The module as it is simulated. `block` is what the `always_comb` block of a method computes.
Processes outside do not drive what the methods drive. -/
structure Simulates {E α : Type} (m : UseDefMaps) (d : Design (ProcessView ⊕ E) Nat Nat α)
    (block : ProcessView ⊕ E → Block Nat α) : Prop where
  drives : ∀ p, .inl p ∈ d.procs → ∀ ptr ∈ (d.proc (.inl p)).drives, m.DrivesChannel p ptr
  reads : ∀ p, .inl p ∈ d.procs → p.isCombinational →
    ∀ ptr ∈ (block (.inl p)).reads, m.ReadsChannel p ptr
  computes : ∀ p, .inl p ∈ d.procs → p.isCombinational →
    (d.proc (.inl p)).Computes (block (.inl p))
  outside : ∀ e, .inr e ∈ d.procs → ∀ ptr ∈ (d.proc (.inr e)).drives,
    ∀ p, p.isCombinational → ¬ m.DrivesChannel p ptr
  elements : ∀ p q, .inl p ∈ d.procs → .inl q ∈ d.procs → p ≠ q → p.location = q.location →
    Disjoint (d.proc (.inl p)).drives (d.proc (.inl q)).drives
  wakes : ∀ p, .inl p ∈ d.procs → ∀ g g', ¬ d.wakes (.inl p) g g' →
    ∀ event ∈ p.staticSensitivity, event.kind = .any →
      ∀ var ∈ event.source.channel.verVars, g var.address = g' var.address

section Methods
variable {E α : Type} {m : UseDefMaps} {d : Design (ProcessView ⊕ E) Nat Nat α}
  {block : ProcessView ⊕ E → Block Nat α} {p q : ProcessView} {bad : ScDiagID → Prop}

/-- Everything but the note on threads. -/
def ExceptThreads (id : ScDiagID) : Prop := id ≠ .ssSigSensThread

structure MethodsChecked (m : UseDefMaps) : Prop where
  shared : NotShared m
  own : ∀ p ptr, p.isCombinational → m.DrivesChannel p ptr → ¬ m.ReadsChannel p ptr
  sensitive : ∀ x ∈ m.used, ¬ x.NonSensitive

theorem lookup_of_nodup {A B : Type} [BEq A] [LawfulBEq A] {l : List (A × B)}
    (hl : (l.map (·.1)).Nodup) {entry : A × B} (hentry : entry ∈ l) :
    l.lookup entry.1 = some entry.2 := by
  obtain ⟨first, rest, rfl⟩ := List.append_of_mem hentry
  refine List.lookup_eq_some_iff.mpr ⟨first, rest, rfl, fun other hother => ?_⟩
  rw [List.map_append, List.nodup_append] at hl
  have hne := hl.2.2 other.1 (List.mem_map_of_mem hother) entry.1 (List.mem_cons_self ..)
  simpa using hne.symm

theorem mem_used_isUsed {x : Access} (hx : x ∈ m.used) {var : Elab.VerilogVar}
    (hvar : x.var.address = var.address) : m.isUsed x.proc var := by
  obtain ⟨entry, hentry, hx⟩ := List.mem_flatMap.mp hx
  obtain ⟨v, hv, rfl⟩ := List.mem_map.mp hx
  have hlookup := lookup_of_nodup m.useKeys_nodup hentry
  rw [UseDefMaps.isUsed, hlookup]
  exact List.any_eq_true.mpr ⟨v, hv, by simpa using hvar⟩

theorem MethodsChecked.of_clean
    (hclean : ¬ (detectUseDefErrors m .empty).Has ExceptThreads) : MethodsChecked m := by
  have hshared : NotShared m := .of_clean
    (by rintro id (rfl | rfl | rfl) <;> simp [ExceptThreads]) (by simp [ExceptThreads]) hclean
  rw [detectUseDefErrors_has ExceptThreads (by simp [ExceptThreads]) (by simp [ExceptThreads])
    (by simp [ExceptThreads]) (apart_of_comb (by simp [ExceptThreads]) _)] at hclean
  simp only [not_or, not_and, not_exists] at hclean
  obtain ⟨-, -, -, hown, hsens⟩ := hclean
  refine ⟨hshared, ?_, fun x hx => hsens (by simp [ExceptThreads]) x hx⟩
  rintro p ptr hcomb ⟨x, hx, rfl, rfl, hkind⟩ ⟨y, hy, hproc, hptr, -⟩
  refine hown x hx ⟨hcomb, hkind, hproc ▸ mem_used_isUsed hy hptr, ?_⟩
  split_ifs <;> simp [ExceptThreads]

theorem Simulates.combinational (hm : MethodsChecked m) (h : Simulates m d block) :
    Combinational d (methods d) block where
  mem := fun _ hp => hp.1
  computes := by
    rintro _ ⟨hmem, p, rfl, hp⟩
    exact h.computes p hmem hp
  single := by
    rintro _ ⟨hmem, p, rfl, hp⟩ q hq hne
    rw [← (h.computes p hmem hp).drives_eq]
    cases q with
    | inl q =>
      have hpq : p ≠ q := fun heq => hne (heq ▸ rfl)
      by_cases hloc : p.location = q.location
      · exact h.elements p q hmem hq hpq hloc
      · exact disjoint_left.mpr fun ptr hptr hptr' =>
          hm.shared.drives hloc (h.drives p hmem ptr hptr) (h.drives q hq ptr hptr')
    | inr e =>
      exact disjoint_left.mpr fun ptr hptr hptr' =>
        h.outside e hq ptr hptr' p hp (h.drives p hmem ptr hptr)
  sensitive := by
    rintro _ ⟨hmem, p, rfl, hp⟩ g g' hwakes ptr hptr
    obtain ⟨x, hx, rfl, rfl, hkind⟩ := h.reads p hmem hp ptr hptr
    have hmethod : x.proc.isScMethod := (Bool.and_eq_true_iff.mp hp).1
    have hsens : x.proc.isSensitive x.var := by
      by_contra hnot
      exact hm.sensitive x hx ⟨hmethod, hkind, hnot⟩
    simp only [ProcessView.isSensitive, List.any_eq_true, Bool.and_eq_true, beq_iff_eq] at hsens
    obtain ⟨event, hevent, hany, var, hvar, haddr⟩ := hsens
    exact haddr ▸ h.wakes x.proc hmem g g' hwakes event hevent hany var hvar

theorem Simulates.singleDriven (hm : MethodsChecked m) (h : Simulates m d block) :
    SingleDriven (methods d) block where
  single := by
    intro p hp q hq hne
    have hdrives := (h.combinational hm).single p hp q hq.1 hne
    rwa [((h.combinational hm).computes q hq).drives_eq] at hdrives
  noLoop := by
    rintro _ ⟨hmem, p, rfl, hp⟩
    refine disjoint_left.mpr fun ptr hread hdrive => ?_
    rw [← (h.computes p hmem hp).drives_eq] at hdrive
    exact hm.own p ptr hp (h.drives p hmem ptr hdrive) (h.reads p hmem hp ptr hread)

end Methods

/-- `y = !x` in a method, `x` from outside. -/
def inverter : ProcessView :=
  ⟨0, .scMethod, 0, [⟨.any, ⟨[], .vars [varX]⟩⟩]⟩

def inverterMaps : UseDefMaps where
  procUseVars := [(inverter, [(varX, .vkChannel)])]
  procDefVars := [(inverter, [(chanY, .vkChannel)])]
  verVar2Value := fun _ => none
  useKeys_nodup := List.nodup_singleton _

def inverterBlock : Block Nat Bool where
  reads := {0}
  drives := {1}
  value := fun g _ => !g 0
  value_local := fun _ _ hg _ _ => congrArg Bool.not (hg rfl)

def inverterProcess : Process Nat Nat Bool where
  uses := ∅
  defs := ∅
  reads := {0}
  drives := {1}
  vars := fun f _ => f
  writes := fun _ g c => if c = 1 then some (!g 0) else none
  vars_frame := fun _ _ _ _ => rfl
  writes_frame := fun _ _ _ hc => if_neg hc
  vars_local := fun _ _ _ _ _ _ _ hv => hv.elim
  writes_local := fun _ _ _ _ _ hg => by simp [hg rfl]

def inverterDesign : Design (ProcessView ⊕ Empty) Nat Nat Bool where
  procs := [.inl inverter]
  proc := fun _ => inverterProcess
  wakes := fun _ g g' => g 0 ≠ g' 0

def allLow : Nat → Bool := fun _ => false

end SystemcCompiler.UseDefErrors
