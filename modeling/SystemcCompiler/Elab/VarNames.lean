import SystemcCompiler.Elab.NameGenerator

/-! Names of the variables in a process: `getVarName` and `getUniqueName` of
`ScVerilogWriter`. Module-level variables have names of the generator of the module, local
ones are kept apart from them. -/
namespace SystemcCompiler.VarNames
open Names FreshName

inductive VarKind where
  | register | comb | readonly | readonlyCdr | combsig | combsigclear | clearsig
  deriving DecidableEq

/-- `VerilogVarTraits` with names, or with the variables that have them. -/
structure VerilogVarTraits (α : Type) where
  kind : VarKind
  isModuleScope : Bool
  currName : Option α
  nextName : Option α

namespace VerilogVarTraits
variable {α β : Type}

def isRegister (t : VerilogVarTraits α) : Bool := t.kind == .register

def isComb (t : VerilogVarTraits α) : Bool := t.kind == .comb

/-- The variable has a name in the module. -/
def isExternal (t : VerilogVarTraits α) : Bool := t.isModuleScope || t.isRegister

/-- Current or next name. It is asserted that they exist. -/
def name (t : VerilogVarTraits α) (next : Bool) : Option α := do
  let currName ← t.currName
  if t.isRegister then
    let nextName ← t.nextName
    some (if next then nextName else currName)
  else some currName

def map (f : α → β) (t : VerilogVarTraits α) : VerilogVarTraits β where
  kind := t.kind
  isModuleScope := t.isModuleScope
  currName := t.currName.map f
  nextName := t.nextName.map f

end VerilogVarTraits

/-- Values of variables: `asString` and `ScState::getLocalRecName`. -/
structure Values (V : Type) where
  asString : V → String
  getLocalRecName : V → String
  asString_ne : ∀ val, asString val ≠ ""

/-- What `ScVerilogWriter` knows of names. A map is a list of its entries, the last one first. -/
structure Writer (V : Type) where
  isCombProcess : Bool
  isClockThreadReset : Bool
  parseSvaArg : Bool
  forLoopInit : Bool
  emptySensitivity : Bool
  varTraits : V → Option (VerilogVarTraits String)
  extrValNames : V → Option String
  varNameIndex : List (String × Nat)
  varIndex : List ((V × Bool) × String)
  extrCombVarUsedRst : List V

def withIndex (origVarName : String) (index : Nat) : String :=
  origVarName ++ "_" ++ toString index

/-- The name in front of a numeric suffix. The first letter is not looked at. -/
def baseName (origVarName : String) : Option String :=
  let suffix := (origVarName.toList.drop 1).reverse.takeWhile (· ≠ '_')
  let i := origVarName.toList.length - 1 - suffix.length
  if i ≠ 0 ∧ suffix ≠ [] ∧ suffix.all Char.isDigit then
    some (String.ofList (origVarName.toList.take i))
  else none

namespace Writer
variable {V : Type} [DecidableEq V]

def isRegister (w : Writer V) (val : V) : Bool :=
  !w.isCombProcess && (w.varTraits val).any VerilogVarTraits.isRegister

/-- Traits of a variable that has names in the module, in a thread. -/
def externalTraits (w : Writer V) (val : V) : Option (VerilogVarTraits String) :=
  if w.isCombProcess then none else (w.varTraits val).filter VerilogVarTraits.isExternal

/-- Index of the next name. -/
def firstIndex (w : Writer V) (origVarName : String) : Nat :=
  match w.varNameIndex.lookup origVarName with
  | some index => index + 1
  | none =>
    match baseName origVarName with
    | some base => if (w.varNameIndex.lookup base).isSome then 1 else 0
    | none => 0

def isUsed (w : Writer V) (g : UniqueNamesGenerator) (name : String) : Bool :=
  (w.varNameIndex.lookup name).isSome || g.isTaken name w.emptySensitivity

/-- Names that are used, as a set. -/
def usedNames (w : Writer V) (g : UniqueNamesGenerator) : Finset String :=
  (w.varNameIndex.map Prod.fst).toFinset ∪ (g.takenNames ∪ g.localNames)

/-- An empty name is out of range. The loop ends within the rounds it is given. -/
def getUniqueName (w : Writer V) (g : UniqueNamesGenerator) (origVarName : String) :
    Option (String × Writer V) :=
  if origVarName = "" then none
  else do
    let index := w.firstIndex origVarName
    let (name, next) ← search (w.isUsed g) (withIndex origVarName) ((w.usedNames g).card + 2)
      (if index = 0 then origVarName else withIndex origVarName index) (index + 1)
    some (name, { w with varNameIndex := (origVarName, next - 1) :: w.varNameIndex })

/-- The name in `varIndex`, or a new one. -/
def storedName (w : Writer V) (g : UniqueNamesGenerator) (viKey : V × Bool) (origVarName : String) :
    Option (String × Writer V) :=
  match w.varIndex.lookup viKey with
  | some finalName => some (finalName, w)
  | none => do
    let (finalName, w) ← w.getUniqueName g origVarName
    some (finalName, { w with varIndex := (viKey, finalName) :: w.varIndex })

/-- Name of a variable that has none in the module. -/
def getLocalName (vals : Values V) (w : Writer V) (g : UniqueNamesGenerator) (val : V) :
    Option (String × Writer V × UniqueNamesGenerator) := do
  let isNext := !w.forLoopInit && w.isRegister val && !w.isClockThreadReset
  let varName := avoidKeyword (vals.asString val)
  let recPrefix := vals.getLocalRecName val
  let origVarName := if w.forLoopInit then varName
    else if isNext then varName ++ "_next"
    else if recPrefix = "" then varName else recPrefix ++ "_" ++ varName
  let (finalName, w) ← w.storedName g (val, isNext) origVarName
  let g := if w.emptySensitivity ∧ ¬w.forLoopInit then g.addTakenName finalName else g
  some (finalName, w, g.addLocalName finalName)

/-- The name to read and to write. -/
def getVarName (vals : Values V) (w : Writer V) (g : UniqueNamesGenerator) (val : V) :
    Option (String × Writer V × UniqueNamesGenerator) := do
  match w.externalTraits val with
  | some t =>
    let vname ← t.name (!w.isClockThreadReset || w.parseSvaArg)
    let used := if w.isClockThreadReset ∧ t.isComb then w.extrCombVarUsedRst.insert val
      else w.extrCombVarUsedRst
    some (vname, { w with extrCombVarUsedRst := used }, g)
  | none =>
    match w.extrValNames val with
    | some name => some (name, w, g)
    | none => w.getLocalName vals g val

end Writer

theorem mem_of_lookup {α β : Type} [BEq α] [LawfulBEq α] {l : List (α × β)} {a : α} {b : β}
    (h : l.lookup a = some b) : (a, b) ∈ l := by
  obtain ⟨l₁, l₂, rfl, -⟩ := List.lookup_eq_some_iff.mp h
  simp

section Indices
variable {base orig name : String} {k i : Nat} {l : List (String × Nat)}

theorem withIndex_injective (orig : String) : Function.Injective (withIndex orig) :=
  numbered_injective (orig ++ "_")

/-- The name in front of an index is found again. -/
theorem baseName_withIndex (h : base ≠ "") (k : Nat) : baseName (withIndex base k) = some base := by
  have hnil : base.toList ≠ [] := by simpa using h
  obtain ⟨c, letters, hletters⟩ := List.exists_cons_of_ne_nil hnil
  have hname : (withIndex base k).toList = base.toList ++ '_' :: Nat.toDigits 10 k := by
    simp [withIndex]
  have hdigits : ∀ d ∈ (Nat.toDigits 10 k).reverse, d.isDigit = true := fun d hd =>
    Nat.isDigit_of_mem_toDigits (by decide) (by decide) (List.mem_reverse.mp hd)
  have hsuffix : ((withIndex base k).toList.drop 1).reverse.takeWhile (· ≠ '_') =
      (Nat.toDigits 10 k).reverse := by
    rw [hname, hletters]
    simp only [List.cons_append, List.drop_succ_cons, List.drop_zero, List.reverse_append,
      List.reverse_cons, List.append_assoc, List.cons_append, List.nil_append]
    rw [List.takeWhile_append_of_pos]
    · simp
    · intro d hd
      have := hdigits d hd
      simp only [decide_eq_true_eq]
      rintro rfl
      exact absurd this (by decide)
  have hlength : (withIndex base k).toList.length =
      base.toList.length + (Nat.toDigits 10 k).length + 1 := by
    rw [hname, List.length_append, List.length_cons]
    omega
  have hpos : 0 < base.toList.length := List.length_pos_iff.mpr hnil
  have hi : (withIndex base k).toList.length - 1 - (Nat.toDigits 10 k).reverse.length =
      base.toList.length := by
    rw [hlength, List.length_reverse]
    omega
  have htaken : (withIndex base k).toList.take base.toList.length = base.toList := by
    rw [hname, List.take_left']
    rfl
  unfold baseName
  simp only [hsuffix, hi, htaken]
  rw [if_pos ⟨by omega, by simp, List.all_eq_true.mpr hdigits⟩]
  simp

theorem withIndex_base (h : base ≠ "") (ho : orig ≠ "")
    (heq : withIndex base k = withIndex orig i) : base = orig ∧ k = i := by
  have hbase := baseName_withIndex h k
  rw [heq, baseName_withIndex ho i] at hbase
  cases hbase
  exact ⟨rfl, withIndex_injective base heq⟩

/-- A name that has been given: an original name, or one with an index up to the last. -/
def Issued (l : List (String × Nat)) (name : String) : Prop :=
  (l.lookup name).isSome ∨
    ∃ base k i, base ≠ "" ∧ name = withIndex base k ∧ l.lookup base = some i ∧ 1 ≤ k ∧ k ≤ i

theorem lookup_cons_ne (h : base ≠ orig) : ((orig, i) :: l).lookup base = l.lookup base := by
  have hne : (base == orig) = false := by simpa using h
  rw [List.lookup_cons, hne]

/-- A later index of a name keeps the names given before. -/
theorem Issued.cons (h : Issued l name) (hle : ∀ j, l.lookup orig = some j → j ≤ i) :
    Issued ((orig, i) :: l) name := by
  rcases h with h | ⟨base, k, j, hne, rfl, hj, hk, hkj⟩
  · left
    rw [List.lookup_cons]
    split
    · rfl
    · exact h
  · right
    by_cases hb : base = orig
    · subst hb
      exact ⟨base, k, i, hne, rfl, List.lookup_cons_self, hk, hkj.trans (hle j hj)⟩
    · exact ⟨base, k, j, hne, rfl, (lookup_cons_ne hb).trans hj, hk, hkj⟩

end Indices

section UniqueNames
variable {V : Type} {w w' : Writer V} {g : UniqueNamesGenerator}
  {orig name : String}

theorem Writer.isUsed_mem (h : w.isUsed g name = true) : name ∈ w.usedNames g := by
  rw [isUsed, Bool.or_eq_true, UniqueNamesGenerator.isTaken_eq_true] at h
  rcases h with h | h | h
  · apply Finset.mem_union_left
    obtain ⟨i, hi⟩ := Option.isSome_iff_exists.mp h
    exact List.mem_toFinset.mpr (List.mem_map.mpr ⟨_, mem_of_lookup hi, rfl⟩)
  · exact Finset.mem_union_right _ (Finset.mem_union_left _ h)
  · exact Finset.mem_union_right _ (Finset.mem_union_right _ h.2)

/-- The search ends. -/
theorem Writer.exists_getUniqueName (w : Writer V) (g : UniqueNamesGenerator) (h : orig ≠ "") :
    ∃ name w', w.getUniqueName g orig = some (name, w') := by
  obtain ⟨name, next, hs⟩ := exists_search (withIndex_injective orig) (w.usedNames g)
    (fun _ hn => Writer.isUsed_mem hn)
    (if w.firstIndex orig = 0 then orig else withIndex orig (w.firstIndex orig))
    (w.firstIndex orig + 1)
  rw [getUniqueName, if_neg h]
  simp only [hs]
  exact ⟨_, _, rfl⟩

/-- What one request for a name does. -/
structure NewName (w : Writer V) (g : UniqueNamesGenerator) (name : String) (w' : Writer V) :
    Prop where
  notTaken : g.isTaken name w.emptySensitivity = false
  notIssued : ¬Issued w.varNameIndex name
  issued : Issued w'.varNameIndex name
  kept : ∀ n, Issued w.varNameIndex n → Issued w'.varNameIndex n
  same : ∃ entry, w' = { w with varNameIndex := entry :: w.varNameIndex }

theorem Writer.getUniqueName_spec (h : w.getUniqueName g orig = some (name, w')) :
    NewName w g name w' := by
  rw [getUniqueName] at h
  split at h
  · cases h
  rename_i hne
  obtain ⟨⟨name, next⟩, hs, hw⟩ := Option.bind_eq_some_iff.mp h
  cases hw
  have hfound := search_found hs
  obtain ⟨hlookup, htaken⟩ := Bool.or_eq_false_iff.mp hfound.free
  have hshape : w.firstIndex orig = 0 ∧ next = 1 ∧ name = orig ∨
      name = withIndex orig (next - 1) ∧ w.firstIndex orig ≤ next - 1 ∧ 1 ≤ next - 1 := by
    have hle := hfound.le_last
    by_cases hlast : next = w.firstIndex orig + 1
    · have hfirst := hfound.first hlast
      split at hfirst
      · rename_i hzero
        exact .inl ⟨hzero, by omega, hfirst⟩
      · have hsub : next - 1 = w.firstIndex orig := by omega
        exact .inr ⟨by rw [hfirst, hsub], by omega, by omega⟩
    · exact .inr ⟨(hfound.numbered (by omega)).2, by omega, by omega⟩
  have hlater : ∀ j, w.varNameIndex.lookup orig = some j → j < w.firstIndex orig := by
    intro j hj
    simp [firstIndex, hj]
  refine ⟨htaken, ?_, ?_, ?_, ⟨_, rfl⟩⟩
  · rintro (hkey | ⟨base, k, j, hbase, heq, hj, hk, hkj⟩)
    · rw [hkey] at hlookup
      cases hlookup
    · rcases hshape with ⟨hzero, -, hname⟩ | ⟨hname, hle, -⟩
      · -- the base of the original name has been asked for
        rw [hname] at hlookup heq
        have hnone : w.varNameIndex.lookup orig = none := by simpa using hlookup
        rw [firstIndex, hnone, heq, baseName_withIndex hbase] at hzero
        simp [hj] at hzero
      · obtain ⟨rfl, rfl⟩ := withIndex_base hbase hne (heq.symm.trans hname)
        have := hlater j hj
        omega
  · rcases hshape with ⟨-, -, hname⟩ | ⟨hname, -, hpos⟩
    · left
      rw [hname, List.lookup_cons_self]
      rfl
    · exact .inr ⟨orig, next - 1, next - 1, hne, hname, List.lookup_cons_self, hpos, Nat.le_refl _⟩
  · intro n hn
    refine hn.cons fun j hj => ?_
    have := hlater j hj
    rcases hshape with ⟨hzero, -, -⟩ | ⟨-, hle, -⟩ <;> omega

end UniqueNames

/-- Verilog variables of a module. Their names are taken and differ. -/
structure Module where
  nameGen : UniqueNamesGenerator
  vars : List String
  nodup : vars.Nodup
  taken : ∀ name ∈ vars, name ∈ nameGen.takenNames

/-- Verilog variables of the module that stand for values in a process. A variable of the
module scope and a register of a thread have the names that are asserted. -/
structure Elaborated (V : Type) (n : Nat) where
  varTraits : V → Option (VerilogVarTraits (Fin n))
  extrValNames : V → Option (Fin n)
  named : ∀ val t, varTraits val = some t → t.isExternal = true → ∀ next, (t.name next).isSome

/-- What a request names: a Verilog variable of the module, a variable of the process, or
nothing that is asked for again. -/
inductive Named (V : Type) (n : Nat) where
  | moduleVar (i : Fin n)
  | localVar (val : V)
  | unique (k : Nat)
  deriving DecidableEq

/-- A name that was asked for, and the names of the module at that time. -/
structure Answer (V : Type) (n : Nat) where
  named : Named V n
  name : String
  vars : List String

/-- A process while its code is generated. `vars` are the variables of the module so far. -/
structure Session (V : Type) (n : Nat) where
  writer : Writer V
  nameGen : UniqueNamesGenerator
  vars : List String
  uniques : List String
  answers : List (Answer V n)

inductive Request (V : Type) where
  | getVarName (val : V)
  | getUniqueName (origVarName : String) (nonempty : origVarName ≠ "")
  | setResetSection (isReset : Bool)
  | setParseSvaArg (isAssert : Bool)
  | setForLoopInit (mode : Bool)
  | createProcessLocalVariable (suggestedName : String)

section Sessions
variable {V : Type} [DecidableEq V] {n : Nat}

def Elaborated.externalTraits (e : Elaborated V n) (isCombProcess : Bool) (val : V) :
    Option (VerilogVarTraits (Fin n)) :=
  if isCombProcess then none else (e.varTraits val).filter VerilogVarTraits.isExternal

/-- What the name of a value is for. -/
def Elaborated.namedBy (e : Elaborated V n) (w : Writer V) (val : V) : Named V n :=
  match e.externalTraits w.isCombProcess val with
  | some t =>
    ((t.name (!w.isClockThreadReset || w.parseSvaArg)).map .moduleVar).getD (.localVar val)
  | none =>
    match e.extrValNames val with
    | some i => .moduleVar i
    | none => .localVar val

def start (m : Module) (e : Elaborated V m.vars.length) (isCombProcess emptySensitivity : Bool) :
    Session V m.vars.length where
  writer := {
    isCombProcess, emptySensitivity
    isClockThreadReset := false
    parseSvaArg := false
    forLoopInit := false
    varTraits := fun val => (e.varTraits val).map (·.map m.vars.get)
    extrValNames := fun val => (e.extrValNames val).map m.vars.get
    varNameIndex := []
    varIndex := []
    extrCombVarUsedRst := [] }
  nameGen := m.nameGen
  vars := m.vars
  uniques := []
  answers := []

def step (vals : Values V) (e : Elaborated V n) (s : Session V n) :
    Request V → Option (Session V n)
  | .getVarName val => do
    let (name, w, g) ← s.writer.getVarName vals s.nameGen val
    some { s with writer := w, nameGen := g,
                  answers := s.answers ++ [⟨e.namedBy s.writer val, name, s.vars⟩] }
  | .getUniqueName origVarName _ => do
    let (name, w) ← s.writer.getUniqueName s.nameGen origVarName
    some { s with writer := w, uniques := s.uniques ++ [name],
                  answers := s.answers ++ [⟨.unique s.uniques.length, name, s.vars⟩] }
  | .setResetSection isReset =>
    some { s with writer := { s.writer with isClockThreadReset := isReset } }
  | .setParseSvaArg isAssert => some { s with writer := { s.writer with parseSvaArg := isAssert } }
  | .setForLoopInit mode => some { s with writer := { s.writer with forLoopInit := mode } }
  | .createProcessLocalVariable suggestedName => do
    let (name, g) ← s.nameGen.getUniqueName suggestedName true
    some { s with nameGen := g, vars := s.vars ++ [name] }

def run (vals : Values V) (e : Elaborated V n) (s : Session V n) (requests : List (Request V)) :
    Option (Session V n) :=
  requests.foldlM (step vals e) s

/-- Names of the process in the order they are kept. -/
def Session.given (s : Session V n) : List String := s.writer.varIndex.map Prod.snd ++ s.uniques

/-- The name that is answered from now on. -/
def Session.nameOf {m : Module} (s : Session V m.vars.length) :
    Named V m.vars.length → Option String
  | .moduleVar i => some (m.vars.get i)
  | .localVar val => s.writer.varIndex.lookup (val, false)
  | .unique k => s.uniques[k]?

/-- The writer has the maps of the elaboration, with names. -/
structure Maps (m : Module) (e : Elaborated V m.vars.length) (w : Writer V) : Prop where
  varTraits : ∀ val, w.varTraits val = (e.varTraits val).map (·.map m.vars.get)
  extrValNames : ∀ val, w.extrValNames val = (e.extrValNames val).map m.vars.get

/-- What holds between the requests of a process. -/
structure Inv (m : Module) (e : Elaborated V m.vars.length) (s : Session V m.vars.length) :
    Prop where
  maps : Maps m e s.writer
  started : m.nameGen.takenNames ⊆ s.nameGen.takenNames
  varsTaken : ∀ name ∈ s.vars, name ∈ s.nameGen.takenNames
  issued : ∀ name ∈ s.given, Issued s.writer.varNameIndex name
  nodup : s.given.Nodup
  fresh : ∀ name ∈ s.given, name ∉ m.nameGen.takenNames
  apart : ∀ entry ∈ s.writer.varIndex, entry.2 ∉ s.vars ∧ entry.2 ∈ s.nameGen.localNames
  answered : ∀ a ∈ s.answers, s.nameOf a.named = some a.name
  outside : ∀ a ∈ s.answers, (∀ i, a.named ≠ .moduleVar i) → a.name ∉ a.vars

end Sessions

section Requests
variable {V : Type} {vals : Values V} {m : Module}
  {e : Elaborated V m.vars.length} {s s' : Session V m.vars.length} {w w' : Writer V}
  {g g' : UniqueNamesGenerator} {val : V} {name orig : String}

theorem VerilogVarTraits.name_map {α β : Type} (f : α → β) (t : VerilogVarTraits α) (next : Bool) :
    (t.map f).name next = (t.name next).map f := by
  have hregister : (t.map f).isRegister = t.isRegister := rfl
  unfold name
  rw [hregister]
  cases hc : t.currName <;> cases hn : t.nextName <;> cases t.isRegister <;> cases next <;>
    simp [map, hc, hn]

theorem Maps.externalTraits (h : Maps m e w) (val : V) : w.externalTraits val =
    (e.externalTraits w.isCombProcess val).map (·.map m.vars.get) := by
  unfold Writer.externalTraits Elaborated.externalTraits
  rw [h.varTraits]
  split
  · rfl
  · cases e.varTraits val with
    | none => rfl
    | some t =>
      have hext : (t.map m.vars.get).isExternal = t.isExternal := rfl
      simp only [Option.map_some, Option.filter_some, hext]
      split <;> rfl

/-- A variable without external names is no register. -/
theorem isRegister_of_none (h : w.externalTraits val = none) : w.isRegister val = false := by
  unfold Writer.externalTraits at h
  unfold Writer.isRegister
  cases hc : w.isCombProcess with
  | true => rfl
  | false =>
    cases ht : w.varTraits val with
    | none => rfl
    | some t =>
      rw [hc, ht] at h
      simp only [Bool.false_eq_true, if_false, Option.filter_some, VerilogVarTraits.isExternal]
        at h
      cases hr : t.isRegister <;> simp_all

variable [DecidableEq V]

theorem inv_start (m : Module) (e : Elaborated V m.vars.length)
    (isCombProcess emptySensitivity : Bool) :
    Inv m e (start m e isCombProcess emptySensitivity) where
  maps := ⟨fun _ => rfl, fun _ => rfl⟩
  started := Finset.Subset.refl _
  varsTaken := m.taken
  issued := nofun
  nodup := List.nodup_nil
  fresh := nofun
  apart := nofun
  answered := nofun
  outside := nofun

/-- What is not of the module has a name of the process. -/
theorem Session.given_of_nameOf {a : Named V m.vars.length}
    (hne : ∀ i, a ≠ .moduleVar i) (ha : s.nameOf a = some name) : name ∈ s.given := by
  cases a with
  | moduleVar i => exact absurd rfl (hne i)
  | localVar val =>
    exact List.mem_append_left _ (List.mem_map.mpr ⟨_, mem_of_lookup ha, rfl⟩)
  | unique k => exact List.mem_append_right _ (List.mem_of_getElem? ha)

theorem Inv.nameOf_ne (h : Inv m e s) {a : Named V m.vars.length} {i : Fin m.vars.length}
    (hne : ∀ j, a ≠ .moduleVar j) (ha : s.nameOf a = some name) : name ≠ m.vars.get i := by
  rintro rfl
  exact h.fresh _ (Session.given_of_nameOf hne ha) (m.taken _ (List.get_mem m.vars i))

/-- Two things that are named have different names. -/
theorem Inv.nameOf_inj (h : Inv m e s) {a b : Named V m.vars.length}
    (ha : s.nameOf a = some name) (hb : s.nameOf b = some name) : a = b := by
  have hlocal : ∀ {val}, s.writer.varIndex.lookup (val, false) = some name →
      name ∈ s.writer.varIndex.map Prod.snd := fun hval =>
    List.mem_map.mpr ⟨_, mem_of_lookup hval, rfl⟩
  obtain ⟨hnodup, hnodup', hdisjoint⟩ := List.nodup_append.mp h.nodup
  cases a with
  | moduleVar i =>
    have hname := (Option.some.inj ha).symm
    cases b with
    | moduleVar j => exact congrArg _ (m.nodup.injective_get (Option.some.inj (ha.trans hb.symm)))
    | localVar val => exact absurd hname (h.nameOf_ne (by simp) hb)
    | unique k => exact absurd hname (h.nameOf_ne (by simp) hb)
  | localVar val =>
    cases b with
    | moduleVar j => exact absurd (Option.some.inj hb).symm (h.nameOf_ne (by simp) ha)
    | localVar val' =>
      cases List.inj_on_of_nodup_map hnodup (mem_of_lookup ha) (mem_of_lookup hb) rfl
      rfl
    | unique k => exact absurd rfl (hdisjoint _ (hlocal ha) _ (List.mem_of_getElem? hb))
  | unique k =>
    cases b with
    | moduleVar j => exact absurd (Option.some.inj hb).symm (h.nameOf_ne (by simp) ha)
    | localVar val => exact absurd rfl (hdisjoint _ (hlocal hb) _ (List.mem_of_getElem? ha))
    | unique k' =>
      obtain ⟨hk, -⟩ := List.getElem?_eq_some_iff.mp ha
      rw [(List.getElem?_inj hk hnodup').mp (ha.trans hb.symm)]

/-- A request for a variable of the module changes no names. -/
theorem getVarName_cases (hm : Maps m e w) (h : w.getVarName vals g val = some (name, w', g')) :
    (∃ i, e.namedBy w val = .moduleVar i ∧ name = m.vars.get i ∧ g' = g ∧
      ∃ used, w' = { w with extrCombVarUsedRst := used }) ∨
    e.namedBy w val = .localVar val ∧ w.isRegister val = false ∧
      w.getLocalName vals g val = some (name, w', g') := by
  unfold Writer.getVarName at h
  unfold Elaborated.namedBy
  cases ht : e.externalTraits w.isCombProcess val with
  | some t =>
    left
    rw [hm.externalTraits, ht] at h
    obtain ⟨vname, hname, hw⟩ := Option.bind_eq_some_iff.mp h
    cases hw
    rw [VerilogVarTraits.name_map] at hname
    obtain ⟨i, hi, rfl⟩ := Option.map_eq_some_iff.mp hname
    exact ⟨i, by simp [hi], rfl, rfl, _, rfl⟩
  | none =>
    have hnone : w.externalTraits val = none := by rw [hm.externalTraits, ht]; rfl
    rw [hnone, hm.extrValNames] at h
    cases hx : e.extrValNames val with
    | some i =>
      rw [hx] at h
      cases h
      exact .inl ⟨i, rfl, rfl, rfl, _, rfl⟩
    | none =>
      rw [hx] at h
      exact .inr ⟨rfl, isRegister_of_none hnone, h⟩

/-- A name of the process, new or not. -/
theorem getLocalName_cases (hr : w.isRegister val = false)
    (h : w.getLocalName vals g val = some (name, w', g')) :
    (w.varIndex.lookup (val, false) = some name ∧ w' = w ∨
      w.varIndex.lookup (val, false) = none ∧ ∃ w₁, NewName w g name w₁ ∧
        w' = { w₁ with varIndex := ((val, false), name) :: w₁.varIndex }) ∧
      (g'.takenNames = g.takenNames ∨ g'.takenNames = insert name g.takenNames) ∧
      g'.localNames = insert name g.localNames := by
  unfold Writer.getLocalName at h
  simp only [hr, Bool.and_false, Bool.false_and, Bool.false_eq_true, if_false] at h
  obtain ⟨⟨finalName, w₂⟩, hfinal, hw⟩ := Option.bind_eq_some_iff.mp h
  cases hw
  refine ⟨?_, ?_, ?_⟩
  · unfold Writer.storedName at hfinal
    cases hl : w.varIndex.lookup (val, false) with
    | some stored =>
      rw [hl] at hfinal
      cases hfinal
      exact .inl ⟨rfl, rfl⟩
    | none =>
      rw [hl] at hfinal
      obtain ⟨⟨new, w₁⟩, hnew, hw⟩ := Option.bind_eq_some_iff.mp hfinal
      cases hw
      exact .inr ⟨rfl, w₁, Writer.getUniqueName_spec hnew, rfl⟩
  · simp only [UniqueNamesGenerator.addLocalName, UniqueNamesGenerator.addTakenName]
    split
    · exact .inr rfl
    · exact .inl rfl
  · simp only [UniqueNamesGenerator.addLocalName, UniqueNamesGenerator.addTakenName]
    split <;> rfl

theorem Inv.addAnswer (h : Inv m e s) {a : Answer V m.vars.length}
    (ha : s.nameOf a.named = some a.name)
    (hvars : (∀ i, a.named ≠ .moduleVar i) → a.name ∉ a.vars) :
    Inv m e { s with answers := s.answers ++ [a] } :=
  { h with
    answered := List.forall_mem_append.mpr ⟨h.answered, List.forall_mem_singleton.mpr ha⟩
    outside := List.forall_mem_append.mpr ⟨h.outside, List.forall_mem_singleton.mpr hvars⟩ }

theorem Inv.setNameGen (h : Inv m e s) (ht : s.nameGen.takenNames ⊆ g.takenNames)
    (hl : s.nameGen.localNames ⊆ g.localNames) : Inv m e { s with nameGen := g } :=
  { h with
    started := h.started.trans ht
    varsTaken := fun n hn => ht (h.varsTaken n hn)
    apart := fun entry hentry => ⟨(h.apart entry hentry).1, hl (h.apart entry hentry).2⟩ }

/-- Modes of the writer do not matter. -/
theorem Inv.setWriter (h : Inv m e s) (hm : Maps m e w)
    (hindex : w.varNameIndex = s.writer.varNameIndex) (hvar : w.varIndex = s.writer.varIndex) :
    Inv m e { s with writer := w } where
  maps := hm
  started := h.started
  varsTaken := h.varsTaken
  issued := by
    simp only [Session.given, hvar, hindex]
    exact h.issued
  nodup := by
    simp only [Session.given, hvar]
    exact h.nodup
  fresh := by
    simp only [Session.given, hvar]
    exact h.fresh
  apart := by
    rw [hvar]
    exact h.apart
  answered := fun a ha => by
    rw [← h.answered a ha]
    cases a.named <;> simp [Session.nameOf, hvar]
  outside := h.outside

/-- A new name is none of those given, and none of the module. -/
theorem Inv.newName (h : Inv m e s) (hnew : NewName s.writer s.nameGen name w) :
    name ∉ s.given ∧ name ∉ m.nameGen.takenNames ∧ name ∉ s.vars := by
  have htaken := (UniqueNamesGenerator.isTaken_eq_false.mp hnew.notTaken).1
  exact ⟨fun hn => hnew.notIssued (h.issued name hn), fun hn => htaken (h.started hn),
    fun hn => htaken (h.varsTaken name hn)⟩

theorem Inv.addUnique (h : Inv m e s) (hnew : NewName s.writer s.nameGen name w) :
    Inv m e { s with writer := w, uniques := s.uniques ++ [name] } := by
  obtain ⟨hgiven, hstart, -⟩ := h.newName hnew
  obtain ⟨entry, rfl⟩ := hnew.same
  have hmem : ∀ n ∈ s.writer.varIndex.map Prod.snd ++ (s.uniques ++ [name]),
      n ∈ s.given ∨ n = name := by
    intro n hn
    rw [← List.append_assoc] at hn
    exact (List.mem_append.mp hn).imp_right List.mem_singleton.mp
  refine ⟨⟨h.maps.varTraits, h.maps.extrValNames⟩, h.started, h.varsTaken, ?_, ?_, ?_, h.apart, ?_,
    h.outside⟩
  · intro n hn
    rcases hmem n hn with hn | rfl
    · exact hnew.kept n (h.issued n hn)
    · exact hnew.issued
  · have hnodup : (s.given ++ [name]).Nodup :=
      List.nodup_append.mpr ⟨h.nodup, List.nodup_singleton name, fun x hx y hy => by
        rw [List.mem_singleton.mp hy]
        rintro rfl
        exact hgiven hx⟩
    simpa [Session.given] using hnodup
  · intro n hn
    rcases hmem n hn with hn | rfl
    · exact h.fresh n hn
    · exact hstart
  · intro a ha
    have hname := h.answered a ha
    cases hc : a.named with
    | unique k =>
      rw [hc] at hname
      obtain ⟨hk, -⟩ := List.getElem?_eq_some_iff.mp hname
      exact (List.getElem?_append_left hk).trans hname
    | _ => rwa [hc] at hname

theorem Inv.addLocal (h : Inv m e s) (hnew : NewName s.writer s.nameGen name w)
    (hnone : s.writer.varIndex.lookup (val, false) = none)
    (ht : s.nameGen.takenNames ⊆ g.takenNames)
    (hl : g.localNames = insert name s.nameGen.localNames) :
    Inv m e { s with
      writer := { w with varIndex := ((val, false), name) :: w.varIndex }, nameGen := g } := by
  obtain ⟨hgiven, hstart, hvars⟩ := h.newName hnew
  obtain ⟨entry, rfl⟩ := hnew.same
  have hmem : ∀ n ∈ name :: s.given, n = name ∨ n ∈ s.given := fun n hn => List.mem_cons.mp hn
  refine ⟨⟨h.maps.varTraits, h.maps.extrValNames⟩, h.started.trans ht,
    fun n hn => ht (h.varsTaken n hn), ?_, List.nodup_cons.mpr ⟨hgiven, h.nodup⟩, ?_, ?_, ?_,
    h.outside⟩
  · intro n hn
    rcases hmem n hn with rfl | hn
    · exact hnew.issued
    · exact hnew.kept n (h.issued n hn)
  · intro n hn
    rcases hmem n hn with rfl | hn
    · exact hstart
    · exact h.fresh n hn
  · intro entry' hentry
    rw [hl]
    rcases List.mem_cons.mp hentry with rfl | hentry
    · exact ⟨hvars, Finset.mem_insert_self _ _⟩
    · exact ⟨(h.apart _ hentry).1, Finset.mem_insert_of_mem (h.apart _ hentry).2⟩
  · intro a ha
    have hname := h.answered a ha
    cases hc : a.named with
    | localVar val' =>
      rw [hc] at hname
      have hne : ((val', false) == (val, false)) = false := by
        by_contra heq
        have heq : val' = val := by simpa using heq
        rw [heq] at hname
        exact absurd (hname.symm.trans hnone) (by simp)
      simpa [Session.nameOf, List.lookup_cons, hne] using hname
    | _ => rwa [hc] at hname

theorem Inv.addVar (h : Inv m e s)
    (hname : s.nameGen.getUniqueName orig true = some (name, g)) :
    Inv m e { s with nameGen := g, vars := s.vars ++ [name] } := by
  obtain ⟨⟨number, hfound⟩, htaken, hlocal⟩ := UniqueNamesGenerator.getUniqueName_found hname
  have hfree := UniqueNamesGenerator.isTaken_eq_false.mp hfound.free
  have hsub : s.nameGen.takenNames ⊆ g.takenNames := by
    rw [htaken]
    exact Finset.subset_insert _ _
  have hkept := h.setNameGen hsub hlocal.ge
  refine { hkept with varsTaken := fun n hn => ?_, apart := fun entry hentry => ?_ }
  · rcases List.mem_append.mp hn with hn | hn
    · exact hkept.varsTaken n hn
    · rw [List.mem_singleton.mp hn, htaken]
      exact Finset.mem_insert_self _ _
  · refine ⟨fun hn => ?_, (hkept.apart entry hentry).2⟩
    rcases List.mem_append.mp hn with hn | hn
    · exact (h.apart entry hentry).1 hn
    · -- names of the process are looked at
      rw [← List.mem_singleton.mp hn] at hfree
      exact hfree.2 rfl (h.apart entry hentry).2

theorem Inv.step (h : Inv m e s) {request : Request V} (hs : step vals e s request = some s') :
    Inv m e s' := by
  cases request with
  | getVarName val =>
    obtain ⟨⟨name, w, g⟩, hname, hs⟩ := Option.bind_eq_some_iff.mp hs
    cases hs
    rcases getVarName_cases h.maps hname with ⟨i, hi, rfl, rfl, used, rfl⟩ | ⟨hi, hr, hlocal⟩
    · rw [hi]
      have hset : Inv m e { s with writer := { s.writer with extrCombVarUsedRst := used } } :=
        h.setWriter ⟨h.maps.varTraits, h.maps.extrValNames⟩ rfl rfl
      exact hset.addAnswer (a := ⟨.moduleVar i, m.vars.get i, s.vars⟩) rfl
        fun hne => absurd rfl (hne i)
    · rw [hi]
      obtain ⟨hcase, ht, hl⟩ := getLocalName_cases hr hlocal
      have hsub : s.nameGen.takenNames ⊆ g.takenNames := by
        rcases ht with ht | ht
        · exact ht.ge
        · rw [ht]
          exact Finset.subset_insert _ _
      rcases hcase with ⟨hstored, rfl⟩ | ⟨hnone, w₁, hnew, rfl⟩
      · have hvars : name ∉ s.vars := (h.apart _ (mem_of_lookup hstored)).1
        exact (h.setNameGen hsub (hl ▸ Finset.subset_insert _ _)).addAnswer hstored fun _ => hvars
      · exact (h.addLocal hnew hnone hsub hl).addAnswer List.lookup_cons_self
          fun _ => (h.newName hnew).2.2
  | getUniqueName origVarName nonempty =>
    obtain ⟨⟨name, w⟩, hname, hs⟩ := Option.bind_eq_some_iff.mp hs
    cases hs
    have hnew := Writer.getUniqueName_spec hname
    exact (h.addUnique hnew).addAnswer (by simp [Session.nameOf]) fun _ => (h.newName hnew).2.2
  | createProcessLocalVariable suggestedName =>
    obtain ⟨⟨name, g⟩, hname, hs⟩ := Option.bind_eq_some_iff.mp hs
    cases hs
    exact h.addVar hname
  | _ =>
    cases hs
    exact h.setWriter ⟨h.maps.varTraits, h.maps.extrValNames⟩ rfl rfl

theorem avoidKeyword_ne (h : orig ≠ "") : avoidKeyword orig ≠ "" := by
  unfold avoidKeyword
  split
  · simp
  · exact h

theorem exists_storedName (w : Writer V) (g : UniqueNamesGenerator) (viKey : V × Bool)
    (h : orig ≠ "") : ∃ name w', w.storedName g viKey orig = some (name, w') := by
  unfold Writer.storedName
  cases w.varIndex.lookup viKey with
  | some finalName => exact ⟨finalName, w, rfl⟩
  | none =>
    obtain ⟨name, w', hname⟩ := w.exists_getUniqueName g h
    rw [hname]
    exact ⟨_, _, rfl⟩

theorem exists_getLocalName (w : Writer V) (g : UniqueNamesGenerator) (val : V) :
    ∃ name w' g', w.getLocalName vals g val = some (name, w', g') := by
  have hvar : avoidKeyword (vals.asString val) ≠ "" := avoidKeyword_ne (vals.asString_ne val)
  unfold Writer.getLocalName
  extract_lets isNext varName recPrefix origVarName
  have horig : origVarName ≠ "" := by
    simp only [origVarName, varName]
    split_ifs <;> simp [hvar]
  obtain ⟨name, w', hname⟩ := exists_storedName w g (val, isNext) horig
  rw [hname]
  exact ⟨_, _, _, rfl⟩

/-- Each request for a variable is answered. -/
theorem exists_getVarName (hm : Maps m e w) (g : UniqueNamesGenerator) (val : V) :
    ∃ name w' g', w.getVarName vals g val = some (name, w', g') := by
  unfold Writer.getVarName
  rw [hm.externalTraits, hm.extrValNames]
  cases ht : e.externalTraits w.isCombProcess val with
  | some t =>
    have hfilter : (e.varTraits val).filter VerilogVarTraits.isExternal = some t := by
      unfold Elaborated.externalTraits at ht
      split at ht
      · cases ht
      · exact ht
    obtain ⟨htraits, hext⟩ := Option.filter_eq_some_iff.mp hfilter
    obtain ⟨i, hi⟩ := Option.isSome_iff_exists.mp
      (e.named val t htraits hext (!w.isClockThreadReset || w.parseSvaArg))
    simp only [Option.map_some, VerilogVarTraits.name_map, hi]
    exact ⟨_, _, _, rfl⟩
  | none =>
    cases e.extrValNames val with
    | some i => exact ⟨_, _, _, rfl⟩
    | none => exact exists_getLocalName w g val

theorem exists_step (h : Inv m e s) (request : Request V) :
    ∃ s', step vals e s request = some s' := by
  cases request with
  | getVarName val =>
    obtain ⟨name, w, g, hname⟩ := exists_getVarName h.maps s.nameGen val
    exact ⟨_, by rw [step, hname]; rfl⟩
  | getUniqueName origVarName nonempty =>
    obtain ⟨name, w, hname⟩ := s.writer.exists_getUniqueName s.nameGen nonempty
    exact ⟨_, by rw [step, hname]; rfl⟩
  | createProcessLocalVariable suggestedName =>
    obtain ⟨name, g, hname⟩ := s.nameGen.exists_getUniqueName suggestedName true
    exact ⟨_, by rw [step, hname]; rfl⟩
  | _ => exact ⟨_, rfl⟩

theorem exists_run (h : Inv m e s) (requests : List (Request V)) :
    ∃ s', run vals e s requests = some s' ∧ Inv m e s' := by
  induction requests generalizing s with
  | nil => exact ⟨s, rfl, h⟩
  | cons request requests ih =>
    obtain ⟨s₁, hstep⟩ := exists_step h request
    obtain ⟨s', hrun, hinv⟩ := ih (h.step hstep)
    exact ⟨s', by rw [run, List.foldlM_cons, hstep]; exact hrun, hinv⟩

end Requests

/-- In each run of a process two names are equal exactly if they name the same. A name of
the process is none that the module has. -/
theorem process_names {V : Type} [DecidableEq V] (vals : Values V) (m : Module)
    (e : Elaborated V m.vars.length) (isCombProcess emptySensitivity : Bool)
    (requests : List (Request V)) :
    ∃ s, run vals e (start m e isCombProcess emptySensitivity) requests = some s ∧
      (∀ a ∈ s.answers, ∀ b ∈ s.answers, a.name = b.name ↔ a.named = b.named) ∧
      ∀ a ∈ s.answers, (∀ i, a.named ≠ .moduleVar i) →
        a.name ∉ m.nameGen.takenNames ∧ a.name ∉ a.vars ∧
          ∀ val, a.named = .localVar val → a.name ∉ s.vars := by
  obtain ⟨s, hrun, h⟩ := exists_run (inv_start m e isCombProcess emptySensitivity) requests
  refine ⟨s, hrun, fun a ha b hb => ⟨fun heq => ?_, fun heq => ?_⟩, fun a ha hne => ?_⟩
  · exact h.nameOf_inj (h.answered a ha) (heq ▸ h.answered b hb)
  · have hname := h.answered a ha
    rw [heq, h.answered b hb] at hname
    exact (Option.some.inj hname).symm
  · refine ⟨h.fresh _ (Session.given_of_nameOf hne (h.answered a ha)), h.outside a ha hne, ?_⟩
    intro val hval
    have hname := h.answered a ha
    rw [hval] at hname
    exact (h.apart _ (mem_of_lookup hname)).1

/-- A module with the register variable of the elements of a MIF array. -/
def mifArrayModule : Module where
  nameGen := { takenNames := {"m", "m_next"}, changedNames := ∅, localNames := ∅ }
  vars := ["m", "m_next"]
  nodup := by decide
  taken := by decide

def mifArrayValues : Values Bool where
  asString := fun _ => "m"
  getLocalRecName := fun _ => ""
  asString_ne := fun _ => by decide

/-- Two elements, with the same variables. -/
def mifArrayElements : Elaborated Bool mifArrayModule.vars.length where
  varTraits := fun _ => some ⟨.register, true, some ⟨0, by decide⟩, some ⟨1, by decide⟩⟩
  extrValNames := fun _ => some ⟨0, by decide⟩
  named := by
    intro val t h _ next
    cases h
    cases next <;> rfl

/-- Elements of a MIF array have the same name, and a register has two. -/
theorem mif_array_names :
    (run mifArrayValues mifArrayElements (start mifArrayModule mifArrayElements false false)
      [.setResetSection true, .getVarName false, .setResetSection false, .getVarName false,
        .getVarName true]).map (·.answers.map Answer.name) = some ["m", "m_next", "m_next"] := rfl

end SystemcCompiler.VarNames
