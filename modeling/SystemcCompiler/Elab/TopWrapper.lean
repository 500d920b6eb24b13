import SystemcCompiler.Elab.VerilogModule
import SystemcCompiler.Elab.NameGenerator
import SystemcCompiler.Library.RowMajor

/-! The wrapper of the top module, which has a scalar port for each element of its array ports. -/
namespace SystemcCompiler.TopWrapper
open Elab Names Drivers

abbrev Port := PortDirection × VerilogVar

def getArrayIndices (arrSizes : List Nat) (indx : Nat) : List Nat :=
  RowMajor.indices arrSizes indx

def getArrayElementNumber (arrSizes : List Nat) : Nat :=
  if arrSizes.isEmpty then 0 else arrSizes.prod

def isArray (var : VerilogVar) : Bool := !var.arrayDims.isEmpty

/-- `arr_1_2` for element `[1][2]`. -/
def elementName (name : String) (indices : List Nat) : String :=
  indices.foldl (fun arrName indx => arrName ++ "_" ++ toString indx) name

/-- A port in the header with whether a comma is printed before it. -/
structure HeaderItem where
  comma : Bool
  port : Port
  deriving DecidableEq

structure State where
  portNameGen : UniqueNamesGenerator
  header : List HeaderItem
  arrPorts : List (Port × List VerilogVar)
  firstPort : Bool

/-- Names of the module and of its ports are taken. -/
def State.init (name : String) (verilogPorts : List Port) : State where
  portNameGen := verilogPorts.foldl (fun gen port => gen.addTakenName port.2.name)
    (UniqueNamesGenerator.init.addTakenName name)
  header := []
  arrPorts := []
  firstPort := true

/-- A new variable for one element. -/
def elementVar (var : VerilogVar) (name : String) : VerilogVar :=
  { var with name := name, arrayDims := [], initVals := [], hasInitValVars := false }

/-- `firstPort` is not cleared between the elements of an array. -/
def addElements (port : Port) (s : State) : List Nat → Option (State × List VerilogVar)
  | [] => some (s, [])
  | i :: is => do
    let arrName := elementName port.2.name (getArrayIndices port.2.arrayDims i)
    let (name, gen) ← s.portNameGen.getUniqueName arrName false
    let arrPort := elementVar port.2 name
    let s := { s with
      portNameGen := gen
      header := s.header ++ [⟨!s.firstPort, (port.1, arrPort)⟩] }
    let (s, arrPorts) ← addElements port s is
    some (s, arrPort :: arrPorts)

def addPort (s : State) (port : Port) : Option State :=
  if isArray port.2 then do
    let (s, arrPorts) ← addElements port s (List.range (getArrayElementNumber port.2.arrayDims))
    some { s with arrPorts := s.arrPorts ++ [(port, arrPorts)], firstPort := false }
  else some { s with header := s.header ++ [⟨!s.firstPort, port⟩], firstPort := false }

def addPorts (s : State) : List Port → Option State
  | [] => some s
  | port :: ports => do
    let s ← addPort s port
    addPorts s ports

/-- Outputs and the other ports are assigned to, inputs are assigned from. -/
def assign (port : Port) (indices : List Nat) (elem : VerilogVar) : Assignment String :=
  if port.1 = .input then ⟨⟨port.2.name, indices⟩, ⟨elem.name, []⟩⟩
  else ⟨⟨elem.name, []⟩, ⟨port.2.name, indices⟩⟩

def portAssigns (entry : Port × List VerilogVar) : List (Assignment String) :=
  entry.2.zipIdx.map fun (elem, i) =>
    assign entry.1 (getArrayIndices entry.1.2.arrayDims i) elem

structure Wrapper where
  header : List HeaderItem
  locals : List VerilogVar
  assigns : List (Assignment String)
  instName : String
  /-- Ports of the instance with the variables they are connected to. -/
  bindings : List (String × String)

def createTopWrapper (name : String) (verilogPorts : List Port) : Option Wrapper := do
  let s ← addPorts (.init name verilogPorts) verilogPorts
  let (instName, _) ← s.portNameGen.getUniqueName (name ++ "_inst") false
  some
    { header := s.header
      locals := s.arrPorts.map (·.1.2)
      assigns := s.arrPorts.flatMap portAssigns
      instName := instName
      bindings := verilogPorts.map fun port => (port.2.name, port.2.name) }

section Spec
variable {name : String} {port : Port} {ports : List Port} {s s' : State}

/-- A scalar port is printed itself, an array port as elements with the names. -/
def printed (port : Port) (names : List String) : List Port :=
  names.map fun name => (port.1, elementVar port.2 name)

/-- What is printed for each port, and the array ports with their elements. -/
inductive Flattened : List Port → List (Port × List String) → List (List Port) → Prop where
  | nil : Flattened [] [] []
  | scalar {port ports arrPorts out} (h : isArray port.2 = false)
      (rest : Flattened ports arrPorts out) : Flattened (port :: ports) arrPorts ([port] :: out)
  | array {port ports arrPorts out} (h : isArray port.2) (names : List String)
      (hlen : names.length = port.2.arrayDims.prod) (rest : Flattened ports arrPorts out) :
      Flattened (port :: ports) ((port, names) :: arrPorts) (printed port names :: out)

/-- Commas before all but those of the first port. -/
def headerOf (firstPort : Bool) : List (List Port) → List HeaderItem
  | [] => []
  | group :: out => group.map (⟨!firstPort, ·⟩) ++ out.flatten.map (⟨true, ·⟩)

/-- The new names are taken in turn. -/
structure Fresh (names : List String) (g g' : UniqueNamesGenerator) : Prop where
  nodup : names.Nodup
  notTaken : ∀ name ∈ names, name ∉ g.takenNames
  taken : g'.takenNames = g.takenNames ∪ names.toFinset

theorem Fresh.nil (g : UniqueNamesGenerator) : Fresh [] g g :=
  ⟨List.nodup_nil, by simp, by simp⟩

theorem Fresh.append {names names' : List String} {g g' g'' : UniqueNamesGenerator}
    (h : Fresh names g g') (h' : Fresh names' g' g'') : Fresh (names ++ names') g g'' := by
  refine ⟨List.nodup_append.mpr ⟨h.nodup, h'.nodup, ?_⟩, ?_, ?_⟩
  · rintro name hname _ hname' rfl
    apply h'.notTaken name hname'
    rw [h.taken]
    exact Finset.mem_union_right _ (List.mem_toFinset.mpr hname)
  · intro name hname
    rcases List.mem_append.mp hname with hname | hname
    · exact h.notTaken name hname
    · intro htaken
      apply h'.notTaken name hname
      rw [h.taken]
      exact Finset.mem_union_left _ htaken
  · rw [h'.taken, h.taken, Finset.union_assoc, List.toFinset_append]

theorem exists_fresh (g : UniqueNamesGenerator) (suggestedName : String) :
    ∃ name g', g.getUniqueName suggestedName false = some (name, g') ∧ Fresh [name] g g' := by
  obtain ⟨name, g', h⟩ := g.exists_getUniqueName suggestedName false
  obtain ⟨⟨number, hfound⟩, htaken, -⟩ := UniqueNamesGenerator.getUniqueName_found h
  have hfree := (UniqueNamesGenerator.isTaken_eq_false.mp hfound.free).1
  refine ⟨name, g', h, List.nodup_singleton name, by simpa using hfree, ?_⟩
  rw [htaken, List.toFinset_cons, List.toFinset_nil, Finset.insert_eq, Finset.insert_empty,
    Finset.union_comm]

theorem exists_addElements (port : Port) (s : State) (is : List Nat) :
    ∃ s' names, addElements port s is = some (s', names.map (elementVar port.2)) ∧
      names.length = is.length ∧ Fresh names s.portNameGen s'.portNameGen ∧
      s'.header = s.header ++
        names.map (fun name => ⟨!s.firstPort, (port.1, elementVar port.2 name)⟩) ∧
      s'.arrPorts = s.arrPorts ∧ s'.firstPort = s.firstPort := by
  induction is generalizing s with
  | nil => exact ⟨s, [], rfl, rfl, .nil _, by simp, rfl, rfl⟩
  | cons i is ih =>
    obtain ⟨name, g', hname, hfresh⟩ := exists_fresh s.portNameGen
      (elementName port.2.name (getArrayIndices port.2.arrayDims i))
    obtain ⟨s', names, hrest, hlen, hfresh', hheader, harr, hfirst⟩ := ih { s with
      portNameGen := g'
      header := s.header ++ [⟨!s.firstPort, (port.1, elementVar port.2 name)⟩] }
    refine ⟨s', name :: names, ?_, by simp [hlen], hfresh.append hfresh', ?_, harr, hfirst⟩
    · rw [addElements, hname]
      simp only [Option.bind_eq_bind, Option.bind_some, hrest]
      rfl
    · rw [hheader]
      simp

def elementVars (entry : Port × List String) : Port × List VerilogVar :=
  (entry.1, entry.2.map (elementVar entry.1.2))

theorem getArrayElementNumber_of_isArray (h : isArray port.2) :
    getArrayElementNumber port.2.arrayDims = port.2.arrayDims.prod := by
  rw [getArrayElementNumber, if_neg]
  simpa [isArray] using h

/-- What a port adds to the state: its header items with one comma flag, its elements. -/
theorem exists_addPort (s : State) (port : Port) :
    ∃ s' arrPorts group, addPort s port = some s' ∧ Flattened [port] arrPorts [group] ∧
      Fresh (arrPorts.flatMap (·.2)) s.portNameGen s'.portNameGen ∧
      s'.header = s.header ++ group.map (⟨!s.firstPort, ·⟩) ∧
      s'.arrPorts = s.arrPorts ++ arrPorts.map elementVars ∧ s'.firstPort = false := by
  cases harray : isArray port.2 with
  | true =>
    obtain ⟨s', names, helems, hlen, hfresh, hheader, harr, -⟩ :=
      exists_addElements port s (List.range (getArrayElementNumber port.2.arrayDims))
    rw [List.length_range, getArrayElementNumber_of_isArray harray] at hlen
    refine ⟨{ s' with
        arrPorts := s'.arrPorts ++ [elementVars (port, names)]
        firstPort := false }, [(port, names)], printed port names, ?_,
      .array harray names hlen .nil, by simpa using hfresh, ?_, ?_, rfl⟩
    · rw [addPort, if_pos harray, helems]
      rfl
    · simp [hheader, printed]
    · simp [harr]
  | false =>
    refine ⟨{ s with header := s.header ++ [⟨!s.firstPort, port⟩], firstPort := false }, [], [port],
      ?_, .scalar harray .nil, .nil _, rfl, ?_, rfl⟩
    · rw [addPort, if_neg (by simp [harray])]
    · simp

theorem Flattened.cons {arrPorts arrPorts' : List (Port × List String)} {group : List Port}
    {out : List (List Port)} (h : Flattened [port] arrPorts [group])
    (rest : Flattened ports arrPorts' out) :
    Flattened (port :: ports) (arrPorts ++ arrPorts') (group :: out) := by
  cases h with
  | scalar h hnil =>
    cases hnil
    exact .scalar h rest
  | array h names hlen hnil =>
    cases hnil
    exact .array h names hlen rest

theorem exists_addPorts (s : State) (ports : List Port) :
    ∃ s' arrPorts out, addPorts s ports = some s' ∧ Flattened ports arrPorts out ∧
      Fresh (arrPorts.flatMap (·.2)) s.portNameGen s'.portNameGen ∧
      s'.header = s.header ++ headerOf s.firstPort out ∧
      s'.arrPorts = s.arrPorts ++ arrPorts.map elementVars := by
  induction ports generalizing s with
  | nil => exact ⟨s, [], [], rfl, .nil, .nil _, by simp [headerOf], by simp⟩
  | cons port ports ih =>
    obtain ⟨s', arrPorts, group, hport, hflat, hfresh, hheader, harr, hfirst⟩ :=
      exists_addPort s port
    obtain ⟨s'', arrPorts', out, hports, hflat', hfresh', hheader', harr'⟩ := ih s'
    refine ⟨s'', arrPorts ++ arrPorts', group :: out, ?_, hflat.cons hflat', ?_, ?_, ?_⟩
    · rw [addPorts, hport]
      exact hports
    · rw [List.flatMap_append]
      exact hfresh.append hfresh'
    · rw [hheader', hheader, hfirst, List.append_assoc]
      cases out <;> simp [headerOf]
    · simp [harr', harr]

theorem mem_init_taken (name : String) (ports : List Port) (h : port ∈ ports) :
    port.2.name ∈ (State.init name ports).portNameGen.takenNames := by
  have hfold : ∀ (ports : List Port) (g : UniqueNamesGenerator),
      (ports.foldl (fun gen port => gen.addTakenName port.2.name) g).takenNames =
        g.takenNames ∪ (ports.map (·.2.name)).toFinset := by
    intro ports
    induction ports with
    | nil => simp
    | cons port ports ih =>
      intro g
      rw [List.foldl_cons, ih]
      ext name
      simp [UniqueNamesGenerator.addTakenName]
  rw [State.init, hfold]
  exact Finset.mem_union_right _ (List.mem_toFinset.mpr (List.mem_map_of_mem h))

theorem Flattened.keys {arrPorts : List (Port × List String)} {out : List (List Port)}
    (h : Flattened ports arrPorts out) :
    arrPorts.map (·.1) = ports.filter fun port => isArray port.2 := by
  induction h with
  | nil => rfl
  | scalar harray _ ih => simp [harray, ih]
  | array harray names hlen _ ih => simp [harray, ih]

theorem Flattened.length_eq {arrPorts : List (Port × List String)} {out : List (List Port)}
    (h : Flattened ports arrPorts out) :
    ∀ entry ∈ arrPorts, entry.2.length = entry.1.2.arrayDims.prod := by
  induction h with
  | nil => simp
  | scalar harray _ ih => exact ih
  | array harray names hlen _ ih => exact List.forall_mem_cons.mpr ⟨hlen, ih⟩

theorem Flattened.printed_mem {arrPorts : List (Port × List String)} {out : List (List Port)}
    (h : Flattened ports arrPorts out) :
    ∀ entry ∈ arrPorts, ∀ name ∈ entry.2,
      (entry.1.1, elementVar entry.1.2 name) ∈ out.flatten := by
  induction h with
  | nil => simp
  | scalar harray _ ih =>
    exact fun entry hentry name hname => List.mem_append_right _ (ih entry hentry name hname)
  | array harray names hlen _ ih =>
    refine List.forall_mem_cons.mpr ⟨fun name hname => ?_, fun entry hentry name hname => ?_⟩
    · exact List.mem_append_left _ (List.mem_map_of_mem hname)
    · exact List.mem_append_right _ (ih entry hentry name hname)

theorem Flattened.scalar_mem {arrPorts : List (Port × List String)} {out : List (List Port)}
    (h : Flattened ports arrPorts out) :
    ∀ port ∈ ports, isArray port.2 = false → port ∈ out.flatten := by
  induction h with
  | nil => simp
  | scalar _ _ ih =>
    exact List.forall_mem_cons.mpr ⟨fun _ => List.mem_cons_self ..,
      fun port hport hscalar => List.mem_cons_of_mem _ (ih port hport hscalar)⟩
  | array harray _ _ _ ih =>
    exact List.forall_mem_cons.mpr ⟨fun hscalar => by simp [harray] at hscalar,
      fun port hport hscalar => List.mem_append_right _ (ih port hport hscalar)⟩

/-- Printed names and names of the arrays are those of the ports and of the elements. -/
theorem Flattened.names_perm {arrPorts : List (Port × List String)} {out : List (List Port)}
    (h : Flattened ports arrPorts out) :
    (out.flatten.map (·.2.name) ++ arrPorts.map (·.1.2.name)).Perm
      (ports.map (·.2.name) ++ arrPorts.flatMap (·.2)) := by
  induction h with
  | nil => exact .nil
  | scalar harray _ ih => exact ih.cons _
  | @array port ports arrPorts out harray names hlen _ ih =>
    refine List.perm_iff_count.mpr fun name => ?_
    have hcount := List.perm_iff_count.mp ih name
    have hnames : (printed port names).map (·.2.name) = names := by
      simp [printed, elementVar, Function.comp_def]
    simp only [List.count_append, List.flatten_cons, List.map_append, List.map_cons, hnames,
      List.count_cons, List.flatMap_cons] at hcount ⊢
    omega

theorem headerOf_ports (firstPort : Bool) (out : List (List Port)) :
    (headerOf firstPort out).map (·.port) = out.flatten := by
  cases out <;> simp [headerOf, Function.comp_def]

end Spec

section Connections
variable {ports : List Port} {arrPorts : List (Port × List String)}

/-- Array ports with names for their elements. -/
structure Named (ports : List Port) (arrPorts : List (Port × List String)) : Prop where
  ports_nodup : (ports.map (·.2.name)).Nodup
  keys : arrPorts.map (·.1) = ports.filter fun port => isArray port.2
  length_eq : ∀ entry ∈ arrPorts, entry.2.length = entry.1.2.arrayDims.prod
  names_nodup : (arrPorts.flatMap (·.2)).Nodup
  new : ∀ port ∈ ports, ∀ entry ∈ arrPorts, port.2.name ∉ entry.2

def assigns (arrPorts : List (Port × List String)) : List (Assignment String) :=
  arrPorts.flatMap fun entry => portAssigns (elementVars entry)

/-- The assignment of element number `i`. -/
theorem mem_portAssigns {entry : Port × List String} {a : Assignment String} :
    a ∈ portAssigns (elementVars entry) ↔ ∃ i, ∃ hi : i < entry.2.length,
      a = assign entry.1 (getArrayIndices entry.1.2.arrayDims i)
        (elementVar entry.1.2 entry.2[i]) := by
  simp only [portAssigns, elementVars, List.mem_map, List.mem_zipIdx_iff_getElem?, Prod.exists]
  constructor
  · rintro ⟨elem, i, helem, rfl⟩
    obtain ⟨hi, rfl⟩ := List.getElem?_eq_some_iff.mp helem
    rw [List.length_map] at hi
    exact ⟨i, hi, by rw [List.getElem_map]⟩
  · rintro ⟨i, hi, rfl⟩
    exact ⟨_, i, by rw [List.getElem?_map, List.getElem?_eq_getElem hi]; rfl, rfl⟩

theorem assign_left (port : Port) (indices : List Nat) (elem : VerilogVar) :
    (assign port indices elem).left =
      if port.1 = .input then ⟨port.2.name, indices⟩ else ⟨elem.name, []⟩ := by
  unfold assign
  split_ifs <;> rfl

/-- The variable an assignment of an array port drives. -/
theorem left_var_mem {entry : Port × List String} {a : Assignment String}
    (ha : a ∈ portAssigns (elementVars entry)) :
    entry.1.1 = .input ∧ a.left.var = entry.1.2.name ∨
      entry.1.1 ≠ .input ∧ a.left.var ∈ entry.2 := by
  obtain ⟨i, hi, rfl⟩ := mem_portAssigns.mp ha
  rw [assign_left]
  split_ifs with hin
  · exact .inl ⟨hin, rfl⟩
  · exact .inr ⟨hin, List.getElem_mem hi⟩

namespace Named

theorem mem_ports (h : Named ports arrPorts) {entry : Port × List String}
    (hentry : entry ∈ arrPorts) : entry.1 ∈ ports := by
  have hmem := List.mem_map_of_mem (f := (·.1)) hentry
  rw [h.keys] at hmem
  exact (List.mem_filter.mp hmem).1

theorem disjoint (h : Named ports arrPorts) : arrPorts.Pairwise fun entry entry' =>
    entry.1.2.name ≠ entry'.1.2.name ∧ ∀ name ∈ entry.2, name ∉ entry'.2 := by
  have hports : (arrPorts.map fun entry => entry.1.2.name).Nodup := by
    have heq : arrPorts.map (fun entry => entry.1.2.name) =
        (ports.filter fun port => isArray port.2).map (·.2.name) := by
      rw [← h.keys, List.map_map]
      rfl
    rw [heq]
    exact h.ports_nodup.sublist (List.filter_sublist.map _)
  have hnames := (List.nodup_flatMap.mp h.names_nodup).2
  exact (List.pairwise_map.mp hports).and (hnames.imp fun hdis name hname hname' =>
    hdis hname hname')

theorem not_overlap_entries (h : Named ports arrPorts) {entry entry' : Port × List String}
    (hentry : entry ∈ arrPorts) (hentry' : entry' ∈ arrPorts)
    (hne : entry.1.2.name ≠ entry'.1.2.name) (hdis : ∀ name ∈ entry.2, name ∉ entry'.2)
    {a b : Assignment String} (ha : a ∈ portAssigns (elementVars entry))
    (hb : b ∈ portAssigns (elementVars entry')) : ¬ Overlap a.left b.left := by
  intro hov
  have hvar := hov.var_eq
  rcases left_var_mem ha with ⟨-, ha⟩ | ⟨-, ha⟩
  · rcases left_var_mem hb with ⟨-, hb⟩ | ⟨-, hb⟩
    · exact hne (ha.symm.trans (hvar.trans hb))
    · exact h.new entry.1 (h.mem_ports hentry) entry' hentry' (ha ▸ hvar ▸ hb)
  · rcases left_var_mem hb with ⟨-, hb⟩ | ⟨-, hb⟩
    · exact h.new entry'.1 (h.mem_ports hentry') entry hentry (hb ▸ hvar ▸ ha)
    · exact hdis _ ha (hvar ▸ hb)

theorem not_overlap_elements (h : Named ports arrPorts) {entry : Port × List String}
    (hentry : entry ∈ arrPorts) :
    (portAssigns (elementVars entry)).Pairwise fun a b => ¬ Overlap a.left b.left := by
  rw [List.pairwise_iff_getElem]
  intro i j hi hj hij hov
  simp only [portAssigns, elementVars, List.length_map, List.length_zipIdx] at hi hj
  simp only [portAssigns, elementVars, List.getElem_map, List.getElem_zipIdx, assign_left,
    Nat.zero_add] at hov
  have hlen := h.length_eq entry hentry
  split_ifs at hov with hin
  · obtain ⟨p, q, hpq⟩ := hov
    have hidx : getArrayIndices entry.1.2.arrayDims i ++ p =
        getArrayIndices entry.1.2.arrayDims j ++ q := congrArg Ref.idx hpq
    have hsame := (List.append_inj hidx (by simp [getArrayIndices])).1
    exact hij.ne (RowMajor.indices_inj (hlen ▸ hi) (hlen ▸ hj) hsame)
  · have hnodup := (List.nodup_flatMap.mp h.names_nodup).1 entry hentry
    exact hij.ne (hnodup.getElem_inj_iff.mp hov.var_eq)

theorem singleDriver (h : Named ports arrPorts) : SingleDriver (assigns arrPorts) := by
  refine List.pairwise_flatMap.mpr ⟨fun entry hentry => h.not_overlap_elements hentry, ?_⟩
  refine h.disjoint.imp_of_mem fun {entry entry'} hentry hentry' hdis a ha b hb => ?_
  exact h.not_overlap_entries hentry hentry' hdis.1 hdis.2 ha hb

theorem ne_of_shared (h : Named ports arrPorts) {entry entry' : Port × List String}
    (hentry : entry ∈ arrPorts) (hentry' : entry' ∈ arrPorts) {name : String}
    (hname : name ∈ entry.2) (hname' : name ∈ entry'.2) : entry = entry' := by
  have hsymm : Std.Symm fun entry entry' : Port × List String =>
      ∀ name ∈ entry.2, name ∉ entry'.2 := ⟨fun _ _ hdis name hn hn' => hdis name hn' hn⟩
  by_contra hne
  exact List.Pairwise.forall (h.disjoint.imp And.right) hentry hentry' hne name hname hname'

theorem exists_names (h : Named ports arrPorts) :
    ∀ port ∈ ports, isArray port.2 → ∃ names, (port, names) ∈ arrPorts := by
  intro port hport harray
  have hmem : port ∈ arrPorts.map (·.1) := by
    rw [h.keys]
    exact List.mem_filter.mpr ⟨hport, harray⟩
  obtain ⟨entry, hentry, rfl⟩ := List.mem_map.mp hmem
  exact ⟨entry.2, hentry⟩

/-- No assignment drives what is outside the array inputs and the new output ports. -/
theorem not_step (h : Named ports arrPorts) {entry : Port × List String}
    (hentry : entry ∈ arrPorts) {r s : Ref String}
    (hr : entry.1.1 = .input ∧ r.var ∈ entry.2 ∨ entry.1.1 ≠ .input ∧ r.var = entry.1.2.name) :
    ¬ Step (assigns arrPorts) r s := by
  rintro ⟨a, ha, rest, rfl, -⟩
  obtain ⟨entry', hentry', ha⟩ := List.mem_flatMap.mp ha
  rw [Ref.elem_var] at hr
  rcases left_var_mem ha with ⟨hin, ha⟩ | ⟨hout, ha⟩
  · rcases hr with ⟨-, hr⟩ | ⟨hout, hr⟩
    · exact h.new entry'.1 (h.mem_ports hentry') entry hentry (ha ▸ hr)
    · have hport : entry'.1 = entry.1 := List.inj_on_of_nodup_map h.ports_nodup
        (h.mem_ports hentry') (h.mem_ports hentry) (ha.symm.trans hr)
      exact hout (hport ▸ hin)
  · rcases hr with ⟨hin, hr⟩ | ⟨-, hr⟩
    · obtain rfl := h.ne_of_shared hentry' hentry ha hr
      exact hout hin
    · exact h.new entry.1 (h.mem_ports hentry) entry' hentry' (hr ▸ ha)

/-- The element under the indices and the wrapper port with its name are connected. -/
theorem driven (h : Named ports arrPorts) {entry : Port × List String}
    (hentry : entry ∈ arrPorts) {indices : List Nat}
    (hindices : RowMajor.Within entry.1.2.arrayDims indices)
    (hi : RowMajor.number entry.1.2.arrayDims indices < entry.2.length) :
    (entry.1.1 = .input → Driven (assigns arrPorts) ⟨entry.1.2.name, indices⟩
      ⟨entry.2[RowMajor.number entry.1.2.arrayDims indices], []⟩) ∧
    (entry.1.1 ≠ .input → Driven (assigns arrPorts)
      ⟨entry.2[RowMajor.number entry.1.2.arrayDims indices], []⟩ ⟨entry.1.2.name, indices⟩) := by
  have hmem : assign entry.1 indices (elementVar entry.1.2
      entry.2[RowMajor.number entry.1.2.arrayDims indices]) ∈ assigns arrPorts :=
    List.mem_flatMap.mpr ⟨entry, hentry, mem_portAssigns.mpr
      ⟨_, hi, by rw [getArrayIndices, RowMajor.indices_number hindices]⟩⟩
  have hstep := Step.of_mem hmem []
  rw [Ref.elem_nil, Ref.elem_nil] at hstep
  refine ⟨fun hin => ?_, fun hout => ?_⟩
  · rw [assign, if_pos hin] at hstep
    exact ⟨.single hstep, fun s => h.not_step hentry (.inl ⟨hin, List.getElem_mem hi⟩)⟩
  · rw [assign, if_neg hout] at hstep
    exact ⟨.single hstep, fun s => h.not_step hentry (.inr ⟨hout, rfl⟩)⟩

/-- An element for all indices of the array ports, each with a connected name of its own. -/
theorem exists_elem (h : Named ports arrPorts) : ∃ elem : Port → List Nat → String,
    ∀ port ∈ ports, isArray port.2 →
      ∀ indices, RowMajor.Within port.2.arrayDims indices →
        (∃ entry ∈ arrPorts, entry.1 = port ∧ elem port indices ∈ entry.2) ∧
        (port.1 = .input →
          Driven (assigns arrPorts) ⟨port.2.name, indices⟩ ⟨elem port indices, []⟩) ∧
        (port.1 ≠ .input →
          Driven (assigns arrPorts) ⟨elem port indices, []⟩ ⟨port.2.name, indices⟩) ∧
        ∀ port' ∈ ports, isArray port'.2 →
          ∀ indices', RowMajor.Within port'.2.arrayDims indices' →
            elem port indices = elem port' indices' → port = port' ∧ indices = indices' := by
  choose! names hnames using h.exists_names
  have hlt : ∀ port ∈ ports, isArray port.2 → ∀ indices,
      RowMajor.Within port.2.arrayDims indices →
        RowMajor.number port.2.arrayDims indices < (names port).length := by
    intro port hport harray indices hindices
    rw [h.length_eq _ (hnames port hport harray)]
    exact RowMajor.number_lt hindices
  refine ⟨fun port indices => (names port)[RowMajor.number port.2.arrayDims indices]?.getD "", ?_⟩
  intro port hport harray indices hindices
  have hi := hlt port hport harray indices hindices
  have hentry := hnames port hport harray
  have hdriven := h.driven hentry hindices hi
  simp only [List.getElem?_eq_getElem hi, Option.getD_some]
  refine ⟨⟨_, hentry, rfl, List.getElem_mem hi⟩, hdriven.1, hdriven.2, ?_⟩
  intro port' hport' harray' indices' hindices' heq
  have hi' := hlt port' hport' harray' indices' hindices'
  rw [List.getElem?_eq_getElem hi', Option.getD_some] at heq
  have hsame := h.ne_of_shared hentry (hnames port' hport' harray') (List.getElem_mem hi)
    (heq ▸ List.getElem_mem hi')
  obtain rfl : port = port' := congrArg Prod.fst hsame
  have hnodup := (List.nodup_flatMap.mp h.names_nodup).1 _ hentry
  have hnumber := hnodup.getElem_inj_iff.mp heq
  refine ⟨rfl, ?_⟩
  rw [← RowMajor.indices_number hindices, hnumber, RowMajor.indices_number hindices']

/-- The names of the ports and of the elements. -/
theorem all_nodup (h : Named ports arrPorts) :
    (ports.map (·.2.name) ++ arrPorts.flatMap (·.2)).Nodup := by
  refine List.nodup_append.mpr ⟨h.ports_nodup, h.names_nodup, ?_⟩
  intro name hname other hother heq
  obtain ⟨port, hport, rfl⟩ := List.mem_map.mp hname
  obtain ⟨entry, hentry, hmem⟩ := List.mem_flatMap.mp hother
  exact h.new port hport entry hentry (heq ▸ hmem)

end Named
end Connections

/-- A module's ports have different names. -/
structure Interface where
  name : String
  verilogPorts : List Port
  names_nodup : (verilogPorts.map (·.2.name)).Nodup

def Interface.createTopWrapper (m : Interface) : Option Wrapper :=
  TopWrapper.createTopWrapper m.name m.verilogPorts

theorem exists_createTopWrapper (m : Interface) : ∃ w arrPorts out,
    m.createTopWrapper = some w ∧ Named m.verilogPorts arrPorts ∧
      Flattened m.verilogPorts arrPorts out ∧ w.header = headerOf true out ∧
      w.locals = arrPorts.map (·.1.2) ∧ w.assigns = assigns arrPorts ∧
      w.instName ∉ m.verilogPorts.map (·.2.name) ++ arrPorts.flatMap (·.2) := by
  obtain ⟨s, arrPorts, out, hs, hflat, hfresh, hheader, harr⟩ :=
    exists_addPorts (.init m.name m.verilogPorts) m.verilogPorts
  obtain ⟨instName, g, hinst, hnew⟩ := exists_fresh s.portNameGen (m.name ++ "_inst")
  have htaken : ∀ port ∈ m.verilogPorts,
      port.2.name ∈ (State.init m.name m.verilogPorts).portNameGen.takenNames :=
    fun port hport => mem_init_taken m.name m.verilogPorts hport
  refine ⟨⟨s.header, s.arrPorts.map (·.1.2), s.arrPorts.flatMap portAssigns, instName,
      m.verilogPorts.map fun port => (port.2.name, port.2.name)⟩, arrPorts, out, ?_,
    ⟨m.names_nodup, hflat.keys, hflat.length_eq, hfresh.nodup, ?_⟩, hflat, hheader, ?_, ?_, ?_⟩
  · rw [Interface.createTopWrapper, TopWrapper.createTopWrapper, hs, Option.bind_eq_bind,
      Option.bind_some, hinst]
    rfl
  · intro port hport entry hentry hname
    exact hfresh.notTaken _ (List.mem_flatMap.mpr ⟨entry, hentry, hname⟩) (htaken port hport)
  · simp [harr, State.init, elementVars]
  · simp [harr, State.init, assigns, List.flatMap_map]
  · intro hmem
    apply hnew.notTaken instName (List.mem_singleton_self _)
    rw [hfresh.taken]
    rcases List.mem_append.mp hmem with hmem | hmem
    · obtain ⟨port, hport, rfl⟩ := List.mem_map.mp hmem
      exact Finset.mem_union_left _ (htaken port hport)
    · exact Finset.mem_union_right _ (List.mem_toFinset.mpr hmem)

/-- Where a generated module is put in its wrapper: the names are different, nothing has two
drivers, and each element of an array port is connected to a port of its own. -/
theorem createTopWrapper_connects (m : Interface) : ∃ w, m.createTopWrapper = some w ∧
    (w.header.map (·.port.2.name) ++ w.locals.map (·.name) ++ [w.instName]).Nodup ∧
    (∀ port ∈ m.verilogPorts, isArray port.2 = false → port ∈ w.header.map (·.port)) ∧
    SingleDriver w.assigns ∧
    ∃ elem : Port → List Nat → String, ∀ port ∈ m.verilogPorts, isArray port.2 →
      ∀ indices, RowMajor.Within port.2.arrayDims indices →
        (port.1, elementVar port.2 (elem port indices)) ∈ w.header.map (·.port) ∧
        (port.1 = .input →
          Driven w.assigns ⟨port.2.name, indices⟩ ⟨elem port indices, []⟩) ∧
        (port.1 ≠ .input →
          Driven w.assigns ⟨elem port indices, []⟩ ⟨port.2.name, indices⟩) ∧
        ∀ port' ∈ m.verilogPorts, isArray port'.2 →
          ∀ indices', RowMajor.Within port'.2.arrayDims indices' →
            elem port indices = elem port' indices' → port = port' ∧ indices = indices' := by
  obtain ⟨w, arrPorts, out, hw, hnamed, hflat, hheader, hlocals, hassigns, hinst⟩ :=
    exists_createTopWrapper m
  have hprinted : w.header.map (·.port) = out.flatten := hheader ▸ headerOf_ports true out
  refine ⟨w, hw, ?_, ?_, hassigns ▸ hnamed.singleDriver, ?_⟩
  · have hperm := hflat.names_perm
    have hall : (m.verilogPorts.map (·.2.name) ++ arrPorts.flatMap (·.2) ++ [w.instName]).Nodup :=
      List.nodup_append.mpr ⟨hnamed.all_nodup, List.nodup_singleton _,
        fun name hname other hother =>
          (List.mem_singleton.mp hother) ▸ fun heq => hinst (heq ▸ hname)⟩
    have hnames : w.header.map (·.port.2.name) = out.flatten.map (·.2.name) := by
      rw [← hprinted, List.map_map]
      rfl
    rw [hnames, hlocals, List.map_map]
    exact (hperm.append_right _).nodup_iff.mpr hall
  · intro port hport hscalar
    rw [hprinted]
    exact hflat.scalar_mem port hport hscalar
  · obtain ⟨elem, helem⟩ := hnamed.exists_elem
    refine ⟨elem, fun port hport harray indices hindices => ?_⟩
    obtain ⟨⟨entry, hentry, rfl, hname⟩, hconnected⟩ := helem port hport harray indices hindices
    rw [hprinted, hassigns]
    exact ⟨hflat.printed_mem entry hentry _ hname, hconnected⟩

/-- How many ports are printed for a port. -/
def printedNumber (port : Port) : Nat := if isArray port.2 then port.2.arrayDims.prod else 1

/-- One comma between two ports. -/
def CommasBetween : List HeaderItem → Prop
  | [] => True
  | item :: items => item.comma = false ∧ ∀ next ∈ items, next.comma

/-- The first port stands for one port, or nothing is printed at all. -/
def FirstPortFits : List Port → Prop
  | [] => True
  | port :: ports =>
    printedNumber port = 1 ∨ printedNumber port = 0 ∧ ∀ next ∈ ports, printedNumber next = 0

theorem Flattened.lengths {ports : List Port} {arrPorts : List (Port × List String)}
    {out : List (List Port)} (h : Flattened ports arrPorts out) :
    out.map List.length = ports.map printedNumber := by
  induction h with
  | nil => rfl
  | scalar harray _ ih => simp [printedNumber, harray, ih]
  | array harray names hlen _ ih => simp [printedNumber, harray, printed, hlen, ih]

/-- The header is well formed exactly if the first port is not an array of several elements, and
not an empty array before other ports. -/
theorem commasBetween_iff (m : Interface) (w : Wrapper) (hw : m.createTopWrapper = some w) :
    CommasBetween w.header ↔ FirstPortFits m.verilogPorts := by
  obtain ⟨w', arrPorts, out, hw', -, hflat, hheader, -⟩ := exists_createTopWrapper m
  obtain rfl : w' = w := Option.some.inj (hw'.symm.trans hw)
  have hlengths := hflat.lengths
  rw [hheader]
  generalize m.verilogPorts = ports at hlengths
  cases out with
  | nil =>
    obtain rfl : ports = [] := by simpa using hlengths
    simp [headerOf, CommasBetween, FirstPortFits]
  | cons group out =>
    cases ports with
    | nil => simp at hlengths
    | cons port ports =>
      obtain ⟨hgroup, hrest⟩ := List.cons_eq_cons.mp hlengths
      rw [headerOf, FirstPortFits, ← hgroup]
      have hzero : (∀ next ∈ ports, printedNumber next = 0) ↔ out.flatten = [] := by
        have hmap : (∀ n ∈ ports.map printedNumber, n = 0) ↔
            ∀ n ∈ out.map List.length, n = 0 := by
          rw [hrest]
        simpa only [List.forall_mem_map, List.length_eq_zero_iff,
          List.flatten_eq_nil_iff] using hmap
      rw [hzero]
      rcases group with _ | ⟨first, _ | ⟨second, group⟩⟩
      · cases out.flatten <;> simp [CommasBetween]
      · have hcommas : ∀ next ∈ out.flatten.map (HeaderItem.mk true), next.comma := by
          rw [List.forall_mem_map]
          exact fun _ _ => rfl
        simpa [CommasBetween] using hcommas
      · simp [CommasBetween]

/-- `clk` and an array input with two elements. -/
def clkPort : Port := (.input, ⟨0, "clk", 1, [], [], false, false⟩)
def arrPort : Port := (.input, ⟨1, "in", 8, [2], [], false, false⟩)

theorem arrPort_nodup : ([arrPort, clkPort].map (·.2.name)).Nodup := by
  decide

/-- With the array first a comma is missing. -/
theorem arrPort_first : ¬ ∃ w, Interface.createTopWrapper ⟨"top", _, arrPort_nodup⟩ = some w ∧
    CommasBetween w.header := by
  rintro ⟨w, hw, hcommas⟩
  rw [commasBetween_iff _ w hw] at hcommas
  simp [FirstPortFits, printedNumber, isArray, arrPort] at hcommas

end SystemcCompiler.TopWrapper
