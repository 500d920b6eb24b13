import SystemcCompiler.Elab.VerilogModule
import SystemcCompiler.Library.DeltaCycle

/-! The check of a module for variables and channels that several processes access, and for
methods that read channels they are not sensitive to. -/
namespace SystemcCompiler.UseDefErrors
open Elab

inductive ProcessKind where
  | scMethod | scThread | scCThread
  deriving DecidableEq

/-- `location` is the declaration of the process function. -/
structure ProcessView where
  id : Nat
  kind : ProcessKind
  location : Nat
  staticSensitivity : List SensEvent
  deriving DecidableEq

namespace ProcessView

def isScMethod (p : ProcessView) : Bool := p.kind == .scMethod

def isScThread (p : ProcessView) : Bool := p.kind == .scThread

def isCombinational (p : ProcessView) : Bool :=
  p.isScMethod && p.staticSensitivity.all fun sens => sens.kind == .any

end ProcessView

inductive VarKind where
  | vkConst | vkChannel | vkVariable
  deriving DecidableEq

inductive ScDiagID where
  | multProcAccessVar
  | multCombDriveSig
  | multSeqDriveSig
  | useDefInSameProc
  | useDefArrInSameProc
  | nonSensitiv2Used
  | ssSigSensThread
  deriving DecidableEq

/-- The others are warnings and remarks. -/
def ScDiagID.isError : ScDiagID → Bool
  | .multProcAccessVar | .multSeqDriveSig | .nonSensitiv2Used => true
  | _ => false

structure Report where
  id : ScDiagID
  loc : Nat
  arg : String
  deriving DecidableEq

/-- `diagIssues` are kept to report nothing twice for one place. -/
structure Diagnostics where
  diagIssues : List (Nat × ScDiagID)
  reported : List Report
  listed : ∀ issue ∈ diagIssues, ∃ r ∈ reported, r.id = issue.2

namespace Diagnostics

def empty : Diagnostics := ⟨[], [], by simp⟩

theorem listed_cons {d : Diagnostics} (r : Report) :
    ∀ issue ∈ (r.loc, r.id) :: d.diagIssues, ∃ s ∈ d.reported ++ [r], s.id = issue.2 := by
  intro issue hissue
  rcases List.mem_cons.mp hissue with rfl | hissue
  · exact ⟨r, by simp⟩
  · obtain ⟨s, hs, hid⟩ := d.listed issue hissue
    exact ⟨s, List.mem_append_left _ hs, hid⟩

def reportScDiag (d : Diagnostics) (loc : Nat) (id : ScDiagID) (arg : String) : Diagnostics :=
  if (loc, id) ∈ d.diagIssues then d
  else ⟨(loc, id) :: d.diagIssues, d.reported ++ [⟨id, loc, arg⟩], listed_cons ⟨id, loc, arg⟩⟩

def Has (bad : ScDiagID → Prop) (d : Diagnostics) : Prop := ∃ r ∈ d.reported, bad r.id

variable {bad : ScDiagID → Prop}

@[simp] theorem has_empty : ¬ empty.Has bad := by
  simp [Has, empty]

/-- Leaving out what was reported before does not hide a kind of diagnostics. -/
@[simp] theorem has_reportScDiag (d : Diagnostics) (loc : Nat) (id : ScDiagID) (arg : String) :
    (d.reportScDiag loc id arg).Has bad ↔ d.Has bad ∨ bad id := by
  unfold reportScDiag
  split_ifs with hmem
  · refine ⟨Or.inl, fun h => h.elim (fun h => h) fun hid => ?_⟩
    obtain ⟨r, hr, hid'⟩ := d.listed _ hmem
    exact ⟨r, hr, hid' ▸ hid⟩
  · simp [Has, or_and_right, exists_or]

end Diagnostics

/-- The maps of a module in the order the loops run over them: the variables each process uses
and defines. `verVar2Value` is the text of the value of a variable. -/
structure UseDefMaps where
  procUseVars : List (ProcessView × List (VerilogVar × VarKind))
  procDefVars : List (ProcessView × List (VerilogVar × VarKind))
  verVar2Value : Nat → Option String
  useKeys_nodup : (procUseVars.map (·.1)).Nodup

/-- `std::unordered_map` from variables to the process that comes first. -/
abbrev FirstProcess := List (Nat × ProcessView)

structure DefScan where
  defVars : FirstProcess
  isCombProc : Bool
  diags : Diagnostics

def checkDefinedVar (proc : ProcessView) (s : DefScan) (procVar : VerilogVar × VarKind) :
    DefScan :=
  match s.defVars.lookup procVar.1.address with
  | none => { s with defVars := (procVar.1.address, proc) :: s.defVars }
  | some oth =>
    if proc.location = oth.location then s
    else if procVar.2 = .vkChannel then
      -- the flag is not set again for the next variable of the process
      let isCombProc := s.isCombProc && oth.isCombinational
      { s with
        isCombProc := isCombProc
        diags := s.diags.reportScDiag proc.location
          (if isCombProc then .multCombDriveSig else .multSeqDriveSig) procVar.1.name }
    else
      { s with diags := s.diags.reportScDiag proc.location .multProcAccessVar procVar.1.name }

def checkDefinedProc (s : DefScan) (entry : ProcessView × List (VerilogVar × VarKind)) :
    DefScan :=
  entry.2.foldl (checkDefinedVar entry.1) { s with isCombProc := entry.1.isCombinational }

def checkDefined (m : UseDefMaps) (d : Diagnostics) : Diagnostics :=
  (m.procDefVars.foldl checkDefinedProc ⟨[], true, d⟩).diags

def checkUsedVar (proc : ProcessView) (s : FirstProcess × Diagnostics)
    (procVar : VerilogVar × VarKind) : FirstProcess × Diagnostics :=
  if procVar.1.isConstant || procVar.2 != .vkVariable then s
  else
    match s.1.lookup procVar.1.address with
    | none => ((procVar.1.address, proc) :: s.1, s.2)
    | some oth =>
      if proc.location = oth.location then s
      else (s.1, s.2.reportScDiag proc.location .multProcAccessVar procVar.1.name)

def checkUsed (m : UseDefMaps) (d : Diagnostics) : Diagnostics :=
  (m.procUseVars.foldl (fun s entry => entry.2.foldl (checkUsedVar entry.1) s) ([], d)).2

/-- `procUseVars[proc].count(var)` -/
def UseDefMaps.isUsed (m : UseDefMaps) (proc : ProcessView) (var : VerilogVar) : Bool :=
  ((m.procUseVars.lookup proc).getD []).any fun procVar => procVar.1.address == var.address

def checkUseOfDefinedVar (m : UseDefMaps) (proc : ProcessView) (d : Diagnostics)
    (procVar : VerilogVar × VarKind) : Diagnostics :=
  if procVar.2 = .vkChannel ∧ m.isUsed proc procVar.1 then
    d.reportScDiag proc.location
      (if procVar.1.arrayDims.isEmpty then .useDefInSameProc else .useDefArrInSameProc)
      procVar.1.name
  else d

def checkUseOfDefined (m : UseDefMaps) (d : Diagnostics) : Diagnostics :=
  m.procDefVars.foldl (fun d entry =>
    if entry.1.isCombinational then entry.2.foldl (checkUseOfDefinedVar m entry.1) d else d) d

def ProcessView.isSensitive (proc : ProcessView) (var : VerilogVar) : Bool :=
  proc.staticSensitivity.any fun event =>
    event.kind == .any && event.source.channel.verVars.any (·.address == var.address)

/-- The search stops after the sixth one. -/
def nonSensChannels (proc : ProcessView) (procVars : List (VerilogVar × VarKind)) :
    List String :=
  ((procVars.filter fun procVar =>
    procVar.2 == .vkChannel && !proc.isSensitive procVar.1).take 6).map (·.1.name)

def checkSensitive (m : UseDefMaps) (d : Diagnostics) : Diagnostics :=
  m.procUseVars.foldl (fun d entry =>
    if entry.1.isScMethod ∧ nonSensChannels entry.1 entry.2 ≠ [] then
      d.reportScDiag entry.1.location .nonSensitiv2Used
        (", ".intercalate (nonSensChannels entry.1 entry.2))
    else d) d

/-- `asString().find("sc_signal")` of the value of a variable. -/
def UseDefMaps.isScSignal (m : UseDefMaps) (var : VerilogVar) : Bool :=
  match m.verVar2Value var.address with
  | some value => decide ("sc_signal".toList <:+: value.toList)
  | none => false

def checkThreadSensitive (m : UseDefMaps) (d : Diagnostics) : Diagnostics :=
  m.procUseVars.foldl (fun d entry =>
    if entry.1.isScThread then
      (entry.1.staticSensitivity.flatMap (·.source.channel.verVars)).foldl (fun d var =>
        if m.isScSignal var then d.reportScDiag entry.1.location .ssSigSensThread "" else d) d
    else d) d

def detectUseDefErrors (m : UseDefMaps) (d : Diagnostics) : Diagnostics :=
  checkThreadSensitive m (checkSensitive m (checkUseOfDefined m (checkUsed m (checkDefined m d))))

structure Access where
  proc : ProcessView
  var : VerilogVar
  kind : VarKind
  deriving DecidableEq

def accesses (procVars : List (ProcessView × List (VerilogVar × VarKind))) : List Access :=
  procVars.flatMap fun entry => entry.2.map fun procVar => ⟨entry.1, procVar.1, procVar.2⟩

namespace UseDefMaps

def defined (m : UseDefMaps) : List Access := accesses m.procDefVars

def used (m : UseDefMaps) : List Access := accesses m.procUseVars

end UseDefMaps

/-- Uses of variables other than constants. -/
def Access.isVariable (x : Access) : Bool := !x.var.isConstant && x.kind == .vkVariable

/-- One variable, processes with different functions. -/
def Access.Shared (x y : Access) : Prop :=
  x.var.address = y.var.address ∧ x.proc.location ≠ y.proc.location

instance (x y : Access) : Decidable (x.Shared y) := inferInstanceAs (Decidable (_ ∧ _))

section First

/-- Only the first element with each key is compared with the later ones. That is enough if a
pair that is told apart is not joined by a third element. -/
structure Apart {A K : Type} (key : A → K) (R : A → A → Prop) (l : List A) : Prop where
  key_eq : ∀ x ∈ l, ∀ y ∈ l, R x y → key x = key y
  irrefl : ∀ x ∈ l, ¬ R x x
  symm : ∀ x ∈ l, ∀ y ∈ l, R x y → R y x
  split : ∀ x ∈ l, ∀ y ∈ l, ∀ z ∈ l, key z = key x → R x y → R x z ∨ R z y

variable {A K : Type} {key : A → K} {R : A → A → Prop} {l done : List A} {a z : A}

def AnyPair (R : A → A → Prop) (l : List A) : Prop := ∃ x ∈ l, ∃ y ∈ l, R x y

theorem Apart.anyPair_cons (h : Apart key R l) (ha : a ∈ l) (hdone : done ⊆ l) :
    AnyPair R (a :: done) ↔ AnyPair R done ∨ ∃ y ∈ done, R a y := by
  constructor
  · rintro ⟨x, hx, y, hy, hxy⟩
    rw [List.mem_cons] at hx hy
    rcases hx with hx | hx
    · rw [hx] at hxy
      rcases hy with hy | hy
      · exact absurd (hy ▸ hxy) (h.irrefl a ha)
      · exact .inr ⟨y, hy, hxy⟩
    · rcases hy with hy | hy
      · rw [hy] at hxy
        exact .inr ⟨x, hx, h.symm x (hdone hx) a ha hxy⟩
      · exact .inl ⟨x, hx, y, hy, hxy⟩
  · rintro (⟨x, hx, y, hy, hxy⟩ | ⟨y, hy, hay⟩)
    · exact ⟨x, List.mem_cons_of_mem a hx, y, List.mem_cons_of_mem a hy, hxy⟩
    · exact ⟨a, List.mem_cons_self .., y, List.mem_cons_of_mem a hy, hay⟩

theorem Apart.anyPair_first (h : Apart key R l) (ha : a ∈ l) (hdone : done ⊆ l) (hz : z ∈ done)
    (hkey : key z = key a) : AnyPair R (a :: done) ↔ AnyPair R done ∨ R a z := by
  rw [h.anyPair_cons ha hdone]
  constructor
  · rintro (hold | ⟨y, hy, hay⟩)
    · exact .inl hold
    · rcases h.split a ha y (hdone hy) z (hdone hz) hkey hay with haz | hzy
      · exact .inr haz
      · exact .inl ⟨z, hz, y, hy, hzy⟩
  · rintro (hold | haz)
    · exact .inl hold
    · exact .inr ⟨z, hz, haz⟩

theorem Apart.anyPair_new (h : Apart key R l) (ha : a ∈ l) (hdone : done ⊆ l)
    (hnew : ∀ y ∈ done, key y ≠ key a) : AnyPair R (a :: done) ↔ AnyPair R done := by
  rw [h.anyPair_cons ha hdone, or_iff_left]
  rintro ⟨y, hy, hay⟩
  exact hnew y hy (h.key_eq a ha y (hdone hy) hay).symm

end First

/-- The map has the variables that are done, each with a process that accesses it. -/
structure FirstProcess.Covers (table : FirstProcess) (done : List Access) : Prop where
  found : ∀ ptr q, table.lookup ptr = some q → ∃ x ∈ done, x.var.address = ptr ∧ x.proc = q
  missing : ∀ ptr, table.lookup ptr = none → ∀ x ∈ done, x.var.address ≠ ptr

namespace FirstProcess.Covers
variable {table : FirstProcess} {done : List Access}

theorem nil : FirstProcess.Covers [] [] := by
  constructor <;> simp

theorem old (h : Covers table done) {x : Access} {q : ProcessView}
    (hx : table.lookup x.var.address = some q) : Covers table (x :: done) := by
  refine ⟨fun ptr q hq => ?_, fun ptr hnone y hy => ?_⟩
  · obtain ⟨y, hy, heq⟩ := h.found ptr q hq
    exact ⟨y, List.mem_cons_of_mem x hy, heq⟩
  · rcases List.mem_cons.mp hy with rfl | hy
    · rintro rfl
      simp [hx] at hnone
    · exact h.missing ptr hnone y hy

theorem new (h : Covers table done) (x : Access) :
    Covers ((x.var.address, x.proc) :: table) (x :: done) := by
  refine ⟨fun ptr q hq => ?_, fun ptr hnone y hy => ?_⟩
  · rw [List.lookup_cons] at hq
    split at hq
    next heq =>
      obtain rfl : ptr = x.var.address := by simpa using heq
      exact ⟨x, List.mem_cons_self .., rfl, Option.some.inj hq⟩
    next =>
      obtain ⟨y, hy, heq⟩ := h.found ptr q hq
      exact ⟨y, List.mem_cons_of_mem x hy, heq⟩
  · rw [List.lookup_cons] at hnone
    split at hnone
    next => contradiction
    next hne =>
      rcases List.mem_cons.mp hy with rfl | hy
      · rintro rfl
        simp at hne
      · exact h.missing ptr hnone y hy

end FirstProcess.Covers

section Verdict
variable {bad : ScDiagID → Prop} {m : UseDefMaps}

theorem has_foldl {A : Type} {step : Diagnostics → A → Diagnostics} (Reports : A → Prop)
    (hstep : ∀ d a, (step d a).Has bad ↔ d.Has bad ∨ Reports a) (l : List A) (d : Diagnostics) :
    (l.foldl step d).Has bad ↔ d.Has bad ∨ ∃ a ∈ l, Reports a := by
  induction l generalizing d with
  | nil => simp
  | cons a l ih => simp [ih, hstep, or_assoc]

/-- Two drivers of a channel are reported as bad unless both are combinational and that is not
bad; two processes that define one variable always are. -/
def Access.Conflict (bad : ScDiagID → Prop) (x y : Access) : Prop :=
  x.Shared y ∧ (x.kind = .vkChannel → x.proc.isCombinational → y.proc.isCombinational →
    bad .multCombDriveSig)

/-- A process function is combinational in all its processes, and a variable is a channel in
all of them. -/
structure Consistent (l : List Access) : Prop where
  comb : ∀ x ∈ l, ∀ y ∈ l, x.proc.location = y.proc.location →
    x.proc.isCombinational = y.proc.isCombinational
  kind : ∀ x ∈ l, ∀ y ∈ l, x.var.address = y.var.address →
    (x.kind = .vkChannel ↔ y.kind = .vkChannel)

theorem shared_apart (l : List Access) : Apart (·.var.address) Access.Shared l where
  key_eq := fun x _ y _ h => h.1
  irrefl := fun x _ h => h.2 rfl
  symm := fun x _ y _ h => ⟨h.1.symm, h.2.symm⟩
  split := by
    intro x _ y _ z _ hz h
    by_cases hloc : x.proc.location = z.proc.location
    · exact .inr ⟨hz.trans h.1, hloc ▸ h.2⟩
    · exact .inl ⟨hz.symm, hloc⟩

theorem Consistent.conflict_apart {l : List Access} (h : Consistent l) :
    Apart (·.var.address) (Access.Conflict bad) l where
  key_eq := fun x _ y _ hxy => hxy.1.1
  irrefl := fun x _ hxx => hxx.1.2 rfl
  symm := fun x hx y hy hxy => ⟨⟨hxy.1.1.symm, hxy.1.2.symm⟩, fun hchan hy' hx' =>
    hxy.2 ((h.kind x hx y hy hxy.1.1).mpr hchan) hx' hy'⟩
  split := by
    intro x hx y hy z hz hkey hxy
    have hkind := h.kind z hz x hx hkey
    by_cases hxz : x.Conflict bad z
    · exact .inl hxz
    · refine .inr ⟨⟨hkey.trans hxy.1.1, fun hloc => ?_⟩, fun hchan hz' hy' => ?_⟩
      · -- `z` has the function of `y`, so it is in conflict with `x` as `y` is
        have hcomb := h.comb z hz y hy hloc
        exact hxz ⟨⟨hkey.symm, hloc ▸ hxy.1.2⟩, fun hchan hx' hz' =>
          hxy.2 hchan hx' (hcomb ▸ hz')⟩
      · by_cases hloc : x.proc.location = z.proc.location
        · exact hxy.2 (hkind.mp hchan) (h.comb x hx z hz hloc ▸ hz') hy'
        · by_contra hbad
          refine hxz ⟨⟨hkey.symm, hloc⟩, fun hchan' hx' _ => hxy.2 hchan' hx' hy'⟩

structure DefInv (bad : ScDiagID → Prop) (d : Diagnostics) (done : List Access) (s : DefScan) :
    Prop where
  covers : s.defVars.Covers done
  has : s.diags.Has bad ↔ d.Has bad ∨ AnyPair (Access.Conflict bad) done

/-- Once the flag is lost in a combinational process, something has been reported. -/
structure FlagOf (bad : ScDiagID → Prop) (p : ProcessView) (s : DefScan) : Prop where
  comb : s.isCombProc → p.isCombinational
  lost : s.isCombProc = false → p.isCombinational → s.diags.Has bad

theorem driveReport_iff {x z : Access} {s : DefScan} (hseq : bad .multSeqDriveSig)
    (hshared : x.Shared z) (hchan : x.kind = .vkChannel) (hflag : FlagOf bad x.proc s) :
    s.diags.Has bad ∨ bad (if s.isCombProc && z.proc.isCombinational then .multCombDriveSig
      else .multSeqDriveSig) ↔ s.diags.Has bad ∨ x.Conflict bad z := by
  cases hcomb : s.isCombProc with
  | false =>
    have hconf : s.diags.Has bad ∨ x.Conflict bad z := by
      by_cases hx : x.proc.isCombinational
      · exact .inl (hflag.lost hcomb hx)
      · exact .inr ⟨hshared, fun _ h => absurd h hx⟩
    simp [hseq, hconf]
  | true =>
    have hx := hflag.comb hcomb
    cases hz : z.proc.isCombinational <;> simp [Access.Conflict, hshared, hchan, hx, hz, hseq]

theorem checkDefinedVar_step (hseq : bad .multSeqDriveSig) (hvar : bad .multProcAccessVar)
    {l done : List Access} {x : Access} {d : Diagnostics} {s : DefScan}
    (hl : Apart (·.var.address) (Access.Conflict bad) l) (hx : x ∈ l)
    (hdone : done ⊆ l) (hs : DefInv bad d done s) (hflag : FlagOf bad x.proc s) :
    DefInv bad d (x :: done) (checkDefinedVar x.proc s (x.var, x.kind)) ∧
      FlagOf bad x.proc (checkDefinedVar x.proc s (x.var, x.kind)) := by
  unfold checkDefinedVar
  cases hfind : s.defVars.lookup x.var.address with
  | none =>
    refine ⟨⟨hs.covers.new x, ?_⟩, ⟨hflag.comb, hflag.lost⟩⟩
    rw [hl.anyPair_new hx hdone (hs.covers.missing _ hfind)]
    exact hs.has
  | some oth =>
    obtain ⟨z, hz, hkey, rfl⟩ := hs.covers.found _ oth hfind
    have hfirst := hl.anyPair_first hx hdone hz hkey
    dsimp only
    by_cases hloc : x.proc.location = z.proc.location
    · rw [if_pos hloc]
      refine ⟨⟨hs.covers.old hfind, ?_⟩, hflag⟩
      rw [hfirst, hs.has, or_iff_left fun h : x.Conflict bad z => h.1.2 hloc]
    · rw [if_neg hloc]
      by_cases hchan : x.kind = .vkChannel
      · rw [if_pos hchan]
        refine ⟨⟨hs.covers.old hfind, ?_⟩, ⟨fun h => ?_, fun h _ => ?_⟩⟩
        · rw [hfirst, Diagnostics.has_reportScDiag, ← or_assoc, ← hs.has]
          exact driveReport_iff hseq ⟨hkey.symm, hloc⟩ hchan hflag
        · exact hflag.comb (Bool.and_eq_true_iff.mp h).1
        · rw [Diagnostics.has_reportScDiag, if_neg (Bool.eq_false_iff.mp h)]
          exact .inr hseq
      · rw [if_neg hchan]
        refine ⟨⟨hs.covers.old hfind, ?_⟩, ⟨hflag.comb, fun _ _ => ?_⟩⟩
        · have hconf : x.Conflict bad z := ⟨⟨hkey.symm, hloc⟩, fun h => absurd h hchan⟩
          rw [hfirst, Diagnostics.has_reportScDiag, ← or_assoc, ← hs.has]
          simp [hconf, hvar]
        · rw [Diagnostics.has_reportScDiag]
          exact .inr hvar

theorem checkDefinedProc_step (hseq : bad .multSeqDriveSig) (hvar : bad .multProcAccessVar)
    {l : List Access} {p : ProcessView} {d : Diagnostics}
    (hl : Apart (·.var.address) (Access.Conflict bad) l)
    (procVars : List (VerilogVar × VarKind)) (hsub : ∀ v ∈ procVars, ⟨p, v.1, v.2⟩ ∈ l)
    {done : List Access} {s : DefScan} (hdone : done ⊆ l) (hs : DefInv bad d done s)
    (hflag : FlagOf bad p s) :
    DefInv bad d ((procVars.map fun v => ⟨p, v.1, v.2⟩).reverse ++ done)
      (procVars.foldl (checkDefinedVar p) s) := by
  induction procVars generalizing done s with
  | nil => exact hs
  | cons v procVars ih =>
    have hv : (⟨p, v.1, v.2⟩ : Access) ∈ l := hsub v (List.mem_cons_self ..)
    obtain ⟨hs', hflag'⟩ := checkDefinedVar_step hseq hvar hl hv hdone hs hflag
    have hdone' : (⟨p, v.1, v.2⟩ : Access) :: done ⊆ l := List.cons_subset.mpr ⟨hv, hdone⟩
    simpa using ih (fun w hw => hsub w (List.mem_cons_of_mem v hw)) hdone' hs' hflag'

theorem anyPair_congr {A : Type} {R : A → A → Prop} {l l' : List A} (h : ∀ x, x ∈ l ↔ x ∈ l') :
    AnyPair R l ↔ AnyPair R l' := by
  simp [AnyPair, h]

theorem checkDefined_inv (hseq : bad .multSeqDriveSig) (hvar : bad .multProcAccessVar)
    {l done : List Access} {d : Diagnostics} {s : DefScan}
    (hl : Apart (·.var.address) (Access.Conflict bad) l)
    (entries : List (ProcessView × List (VerilogVar × VarKind))) (hsub : accesses entries ⊆ l)
    (hdone : done ⊆ l) (hs : DefInv bad d done s) :
    (entries.foldl checkDefinedProc s).diags.Has bad ↔
      d.Has bad ∨ AnyPair (Access.Conflict bad) (accesses entries ++ done) := by
  induction entries generalizing done s with
  | nil => exact hs.has
  | cons entry entries ih =>
    have hentry : ∀ v ∈ entry.2, (⟨entry.1, v.1, v.2⟩ : Access) ∈ l := fun v hv =>
      hsub (List.mem_append_left _ (List.mem_map_of_mem hv))
    have hstep := checkDefinedProc_step hseq hvar hl entry.2 hentry hdone
      (s := { s with isCombProc := entry.1.isCombinational })
      ⟨hs.covers, hs.has⟩ ⟨id, fun h h' => absurd (h.symm.trans h') Bool.false_ne_true⟩
    have hdone' : (entry.2.map fun v => (⟨entry.1, v.1, v.2⟩ : Access)).reverse ++ done ⊆ l := by
      intro x hx
      rcases List.mem_append.mp hx with hx | hx
      · obtain ⟨v, hv, rfl⟩ := List.mem_map.mp (List.mem_reverse.mp hx)
        exact hentry v hv
      · exact hdone hx
    rw [List.foldl_cons, checkDefinedProc,
      ih (fun x hx => hsub (List.mem_append_right _ hx)) hdone' hstep]
    refine or_congr_right (anyPair_congr fun x => ?_)
    simp only [accesses, List.flatMap_cons, List.mem_append, List.mem_reverse]
    tauto

theorem checkDefined_has (hseq : bad .multSeqDriveSig) (hvar : bad .multProcAccessVar)
    (hm : Apart (·.var.address) (Access.Conflict bad) m.defined) (d : Diagnostics) :
    (checkDefined m d).Has bad ↔ d.Has bad ∨ AnyPair (Access.Conflict bad) m.defined := by
  have h := checkDefined_inv hseq hvar (s := ⟨[], true, d⟩) (d := d) hm m.procDefVars
    (List.Subset.refl _) (List.nil_subset _) ⟨.nil, by simp [AnyPair]⟩
  rwa [List.append_nil] at h

structure UseInv (bad : ScDiagID → Prop) (d : Diagnostics) (done : List Access)
    (s : FirstProcess × Diagnostics) : Prop where
  covers : s.1.Covers done
  has : s.2.Has bad ↔ d.Has bad ∨ AnyPair Access.Shared done

theorem checkUsedVar_step (hvar : bad .multProcAccessVar) {done : List Access} {x : Access}
    {d : Diagnostics} {s : FirstProcess × Diagnostics} (hx : x.isVariable)
    (hs : UseInv bad d done s) :
    UseInv bad d (x :: done) (checkUsedVar x.proc s (x.var, x.kind)) := by
  have hapart := shared_apart (x :: done)
  have hmem := List.mem_cons_self (a := x) (l := done)
  have hdone : done ⊆ x :: done := List.subset_cons_self x done
  have hskip : ¬ (x.var.isConstant || x.kind != .vkVariable) := by
    simp [Access.isVariable] at hx
    simp [hx]
  unfold checkUsedVar
  rw [if_neg hskip]
  cases hfind : s.1.lookup x.var.address with
  | none =>
    refine ⟨hs.covers.new x, ?_⟩
    rw [hapart.anyPair_new hmem hdone (hs.covers.missing _ hfind)]
    exact hs.has
  | some oth =>
    obtain ⟨z, hz, hkey, rfl⟩ := hs.covers.found _ oth hfind
    have hfirst := hapart.anyPair_first hmem hdone hz hkey
    dsimp only
    by_cases hloc : x.proc.location = z.proc.location
    · rw [if_pos hloc]
      refine ⟨hs.covers.old hfind, ?_⟩
      rw [hfirst, hs.has, or_iff_left fun h : x.Shared z => h.2 hloc]
    · rw [if_neg hloc]
      refine ⟨hs.covers.old hfind, ?_⟩
      have hshared : x.Shared z := ⟨hkey.symm, hloc⟩
      rw [hfirst, Diagnostics.has_reportScDiag, ← or_assoc, ← hs.has]
      simp [hshared, hvar]

theorem checkUsedProc_step (hvar : bad .multProcAccessVar) (p : ProcessView)
    (procVars : List (VerilogVar × VarKind)) {d : Diagnostics} {done : List Access}
    {s : FirstProcess × Diagnostics} (hs : UseInv bad d done s) :
    UseInv bad d
      (((procVars.map fun v => (⟨p, v.1, v.2⟩ : Access)).filter Access.isVariable).reverse ++ done)
      (procVars.foldl (checkUsedVar p) s) := by
  induction procVars generalizing done s with
  | nil => exact hs
  | cons v procVars ih =>
    rw [List.foldl_cons, List.map_cons]
    cases hx : (⟨p, v.1, v.2⟩ : Access).isVariable with
    | true => simpa [List.filter_cons, hx] using ih (checkUsedVar_step hvar hx hs)
    | false =>
      have hskip : (v.1.isConstant || v.2 != .vkVariable) = true := by
        simpa [Access.isVariable, Decidable.imp_iff_not_or] using hx
      have hsame : checkUsedVar p s v = s := if_pos hskip
      rw [hsame]
      simpa [List.filter_cons, hx] using ih hs

theorem checkUsed_inv (hvar : bad .multProcAccessVar)
    (entries : List (ProcessView × List (VerilogVar × VarKind))) {d : Diagnostics}
    {done : List Access} {s : FirstProcess × Diagnostics} (hs : UseInv bad d done s) :
    (entries.foldl (fun s entry => entry.2.foldl (checkUsedVar entry.1) s) s).2.Has bad ↔
      d.Has bad ∨ AnyPair Access.Shared ((accesses entries).filter Access.isVariable ++ done) := by
  induction entries generalizing done s with
  | nil => exact hs.has
  | cons entry entries ih =>
    rw [List.foldl_cons, ih (checkUsedProc_step hvar entry.1 entry.2 hs)]
    refine or_congr_right (anyPair_congr fun x => ?_)
    simp only [accesses, List.flatMap_cons, List.filter_append, List.mem_append, List.mem_reverse]
    tauto

theorem checkUsed_has (hvar : bad .multProcAccessVar) (m : UseDefMaps) (d : Diagnostics) :
    (checkUsed m d).Has bad ↔
      d.Has bad ∨ AnyPair Access.Shared (m.used.filter Access.isVariable) := by
  have h := checkUsed_inv hvar m.procUseVars (s := ([], d)) (d := d)
    ⟨.nil, by simp [AnyPair]⟩
  rwa [List.append_nil] at h

def UseDefMaps.UsesOwn (m : UseDefMaps) (bad : ScDiagID → Prop) (x : Access) : Prop :=
  x.proc.isCombinational ∧ x.kind = .vkChannel ∧ m.isUsed x.proc x.var ∧
    bad (if x.var.arrayDims.isEmpty then .useDefInSameProc else .useDefArrInSameProc)

theorem checkUseOfDefined_has (m : UseDefMaps) (d : Diagnostics) :
    (checkUseOfDefined m d).Has bad ↔ d.Has bad ∨ ∃ x ∈ m.defined, m.UsesOwn bad x := by
  have hproc : ∀ (d : Diagnostics) (entry : ProcessView × List (VerilogVar × VarKind)),
      (if entry.1.isCombinational then entry.2.foldl (checkUseOfDefinedVar m entry.1) d
        else d).Has bad ↔
      d.Has bad ∨ ∃ v ∈ entry.2, m.UsesOwn bad ⟨entry.1, v.1, v.2⟩ := by
    intro d entry
    split_ifs with hcomb
    · refine has_foldl _ (fun d v => ?_) entry.2 d
      unfold checkUseOfDefinedVar UseDefMaps.UsesOwn
      split_ifs with huse <;> simp_all
    · simp [UseDefMaps.UsesOwn, hcomb]
  rw [checkUseOfDefined, has_foldl _ hproc]
  simp [UseDefMaps.defined, accesses]
  grind

/-- A channel read in a method that no default event of the method is for. -/
def Access.NonSensitive (x : Access) : Prop :=
  x.proc.isScMethod ∧ x.kind = .vkChannel ∧ ¬ x.proc.isSensitive x.var

instance (x : Access) : Decidable x.NonSensitive := inferInstanceAs (Decidable (_ ∧ _))

theorem nonSensChannels_ne_nil (p : ProcessView) (procVars : List (VerilogVar × VarKind)) :
    nonSensChannels p procVars ≠ [] ↔
      ∃ v ∈ procVars, v.2 = .vkChannel ∧ ¬ p.isSensitive v.1 := by
  simp [nonSensChannels]

theorem checkSensitive_has (m : UseDefMaps) (d : Diagnostics) :
    (checkSensitive m d).Has bad ↔
      d.Has bad ∨ bad .nonSensitiv2Used ∧ ∃ x ∈ m.used, x.NonSensitive := by
  have hproc : ∀ (d : Diagnostics) (entry : ProcessView × List (VerilogVar × VarKind)),
      (if entry.1.isScMethod ∧ nonSensChannels entry.1 entry.2 ≠ [] then
        d.reportScDiag entry.1.location .nonSensitiv2Used
          (", ".intercalate (nonSensChannels entry.1 entry.2))
        else d).Has bad ↔
      d.Has bad ∨ bad .nonSensitiv2Used ∧
        ∃ v ∈ entry.2, (⟨entry.1, v.1, v.2⟩ : Access).NonSensitive := by
    intro d entry
    have hne := nonSensChannels_ne_nil entry.1 entry.2
    split_ifs with h
    · have hex := hne.mp h.2
      rw [Diagnostics.has_reportScDiag]
      simp only [Access.NonSensitive, h.1, hex, true_and, and_true]
    · simp only [hne, not_and] at h
      simp_all [Access.NonSensitive]
  rw [checkSensitive, has_foldl _ hproc]
  simp [UseDefMaps.used, accesses]
  grind

theorem checkThreadSensitive_has (hss : ¬ bad .ssSigSensThread) (m : UseDefMaps)
    (d : Diagnostics) : (checkThreadSensitive m d).Has bad ↔ d.Has bad := by
  have hvars : ∀ (d : Diagnostics) (loc : Nat) (vars : List VerilogVar),
      (vars.foldl (fun d var => if m.isScSignal var then d.reportScDiag loc .ssSigSensThread ""
        else d) d).Has bad ↔ d.Has bad := by
    intro d loc vars
    rw [has_foldl fun _ => False]
    · simp
    · intro d var
      split_ifs <;> simp [hss]
  rw [checkThreadSensitive, has_foldl fun _ => False]
  · simp
  · intro d entry
    split_ifs
    · simp [hvars]
    · simp

variable (bad) in
theorem detectUseDefErrors_has (hseq : bad .multSeqDriveSig) (hvar : bad .multProcAccessVar)
    (hss : ¬ bad .ssSigSensThread)
    (hm : Apart (·.var.address) (Access.Conflict bad) m.defined) (d : Diagnostics) :
    (detectUseDefErrors m d).Has bad ↔
      d.Has bad ∨ AnyPair (Access.Conflict bad) m.defined ∨
        AnyPair Access.Shared (m.used.filter Access.isVariable) ∨
        (∃ x ∈ m.defined, m.UsesOwn bad x) ∨
        bad .nonSensitiv2Used ∧ ∃ x ∈ m.used, x.NonSensitive := by
  rw [detectUseDefErrors, checkThreadSensitive_has hss, checkSensitive_has, checkUseOfDefined_has,
    checkUsed_has hvar, checkDefined_has hseq hvar hm]
  simp only [or_assoc]

end Verdict

/-- A method defines `x`, a clocked thread reads it and drives `y`. -/
def writerMethod : ProcessView := ⟨0, .scMethod, 0, []⟩
def readerThread : ProcessView := ⟨1, .scCThread, 1, []⟩
def varX : VerilogVar := ⟨0, "x", 8, [], [], false, false⟩
def chanY : VerilogVar := ⟨1, "y", 8, [], [], false, false⟩

def handover : UseDefMaps where
  procUseVars := [(readerThread, [(varX, .vkVariable)])]
  procDefVars := [(writerMethod, [(varX, .vkVariable)]), (readerThread, [(chanY, .vkChannel)])]
  verVar2Value := fun _ => none
  useKeys_nodup := List.nodup_singleton _

end SystemcCompiler.UseDefErrors
