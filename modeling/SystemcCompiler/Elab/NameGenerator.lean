import SystemcCompiler.Library.FreshName

/-! `UniqueNamesGenerator`: names of a module and of the local variables of its processes. -/
namespace SystemcCompiler.Names
open FreshName

/-- `VerilogKeywords` -/
def keywords : List String :=
  ["alias", "always", "always_comb", "always_ff", "always_latch", "and", "assert", "assign",
    "assume", "automatic", "before", "begin", "bind", "bins", "binsof", "bit", "break", "buf",
    "bufif0", "bufif1", "byte", "case", "casex", "casez", "cell", "chandle", "class", "clocking",
    "cmos", "config", "const", "constraint", "context", "continue", "cover", "covergroup",
    "coverpoint", "cross", "deassign", "default", "defparam", "design", "disable", "dist", "do",
    "edge", "else", "end", "endcase", "endclass", "endclocking", "endconfig", "endfunction",
    "endgenerate", "endgroup", "endinterface", "endmodule", "endpackage", "endprimitive",
    "endprogram", "endproperty", "endspecify", "endsequence", "endtable", "endtask", "enum",
    "event", "expect", "export", "extends", "extern", "final", "first_match", "for", "force",
    "foreach", "forever", "fork", "forkjoin", "function", "generate", "genvar", "highz0",
    "highz1", "if", "iff", "ifnone", "ignore_bins", "illegal_bins", "import", "incdir", "include",
    "initial", "inout", "input", "inside", "instance", "int", "integer", "interface", "intersect",
    "join", "join_any", "join_none", "large", "liblist", "library", "local", "localparam",
    "logic", "longint", "macromodule", "matches", "medium", "modport", "module", "nand",
    "negedge", "new", "nmos", "nor", "noshowcancelled", "not", "notif0", "notif1", "null", "or",
    "output", "package", "packed", "parameter", "pmos", "posedge", "primitive", "priority",
    "program", "property", "protected", "pull0", "pull1", "pulldown", "pullup",
    "pulsestyle_onevent", "pulsestyle_ondetect", "pure", "rand", "randc", "randcase",
    "randsequence", "rcmos", "real", "realtime", "ref", "reg", "release", "repeat", "return",
    "rnmos", "rpmos", "rtran", "rtranif0", "rtranif1", "scalared", "sequence", "shortint",
    "shortreal", "showcancelled", "signed", "small", "solve", "specify", "specparam", "static",
    "string", "strong0", "strong1", "struct", "super", "supply0", "supply1", "table", "tagged",
    "task", "this", "throughout", "time", "timeprecision", "timeunit", "tran", "tranif0",
    "tranif1", "tri", "tri0", "tri1", "triand", "trior", "trireg", "type", "typedef", "union",
    "unique", "unsigned", "use", "uwire", "var", "vectored", "virtual", "void", "wait",
    "wait_order", "wand", "weak0", "weak1", "while", "wildcard", "wire", "with", "within", "wor",
    "xnor", "xor"]

/-- `VerilogKeywords::check` -/
def isKeyword (s : String) : Bool := keywords.contains s

/-- `ScVerilogWriter::MIF_INDX_NAME` -/
def mifIndxName : List String :=
  ["sct_i", "sct_j", "sct_k", "sct_l", "sct_m", "sct_n", "sct_o", "sct_p", "sct_r", "sct_q"]

/-- The suffix of a name that is a keyword. -/
def avoidKeyword (s : String) : String := if isKeyword s then s ++ "_v" else s

/-- The suggestion with a number appended. -/
def numbered (s : String) (i : Nat) : String := s ++ toString i

structure UniqueNamesGenerator where
  takenNames : Finset String
  changedNames : Finset String
  localNames : Finset String

namespace UniqueNamesGenerator

def init : UniqueNamesGenerator where
  takenNames := mifIndxName.toFinset
  changedNames := ∅
  localNames := ∅

def reset (g : UniqueNamesGenerator) : UniqueNamesGenerator :=
  { g with takenNames := ∅, changedNames := ∅ }

def addLocalName (g : UniqueNamesGenerator) (name : String) : UniqueNamesGenerator :=
  { g with localNames := insert name g.localNames }

def addTakenName (g : UniqueNamesGenerator) (name : String) : UniqueNamesGenerator :=
  { g with takenNames := insert name g.takenNames }

def addTakenNames (g : UniqueNamesGenerator) (names : Finset String) : UniqueNamesGenerator :=
  { g with takenNames := g.takenNames ∪ names }

def isTaken (g : UniqueNamesGenerator) (name : String) (checkLocalNames : Bool) : Bool :=
  decide (name ∈ g.takenNames) || checkLocalNames && decide (name ∈ g.localNames)

def isChanged (g : UniqueNamesGenerator) (name : String) : Bool := decide (name ∈ g.changedNames)

/-- The loop ends within the rounds it is given, see `exists_getUniqueName`. -/
def getUniqueName (g : UniqueNamesGenerator) (suggestedName : String) (checkLocalNames : Bool) :
    Option (String × UniqueNamesGenerator) := do
  let (genName, number) ← search (g.isTaken · checkLocalNames) (numbered suggestedName)
    ((g.takenNames ∪ g.localNames).card + 2) (avoidKeyword suggestedName) 0
  let changedNames := if isKeyword suggestedName ∨ number ≠ 0 then
    insert suggestedName g.changedNames else g.changedNames
  some (genName, { g with changedNames, takenNames := insert genName g.takenNames })

end UniqueNamesGenerator

inductive Operation where
  | addTakenName (name : String)
  | addTakenNames (names : Finset String)
  | addLocalName (name : String)
  | getUniqueName (suggestedName : String) (checkLocalNames : Bool)
  | reset

/-- What an operation has done to the names. -/
inductive Event where
  | taken (names : Finset String)
  | local (name : String)
  | reset

def step (g : UniqueNamesGenerator) : Operation → Option (Event × UniqueNamesGenerator)
  | .addTakenName name => some (.taken {name}, g.addTakenName name)
  | .addTakenNames names => some (.taken names, g.addTakenNames names)
  | .addLocalName name => some (.local name, g.addLocalName name)
  | .getUniqueName suggestedName checkLocalNames => do
    let (name, g) ← g.getUniqueName suggestedName checkLocalNames
    some (.taken {name}, g)
  | .reset => some (.reset, g.reset)

def run (g : UniqueNamesGenerator) : List Operation → Option (List Event × UniqueNamesGenerator)
  | [] => some ([], g)
  | op :: history => do
    let (event, g) ← step g op
    let (events, g) ← run g history
    some (event :: events, g)

/-- Keywords that end with 0 and with 1, without the digit. -/
def stems : List String :=
  ["bufif", "highz", "notif", "pull", "rtranif", "strong", "supply", "tranif", "tri", "weak"]

section Strings
variable {s : String} {i : Nat}

theorem numbered_injective (s : String) : Function.Injective (numbered s) := by
  intro i j h
  have hrepr : toString i = toString j := (String.append_right_inj s).mp h
  have hdigits := congrArg String.toList hrepr
  rw [Nat.toString_eq_repr, Nat.toString_eq_repr, Nat.toList_repr, Nat.toList_repr] at hdigits
  rw [← Nat.ofDigitChars_ten_toDigits (n := i), hdigits, Nat.ofDigitChars_ten_toDigits]

theorem toList_numbered : (numbered s i).toList = s.toList ++ Nat.toDigits 10 i := by
  simp [numbered]

/-- Digits at the end of a name. -/
def lastDigits (l : List Char) : Nat := (l.reverse.takeWhile Char.isDigit).length

theorem length_toDigits_le : (Nat.toDigits 10 i).length ≤ lastDigits (numbered s i).toList := by
  have hdigits : ∀ c ∈ (Nat.toDigits 10 i).reverse, c.isDigit = true := by
    intro c hc
    exact Nat.isDigit_of_mem_toDigits (by decide) (by decide) (List.mem_reverse.mp hc)
  rw [lastDigits, toList_numbered, List.reverse_append, List.takeWhile_append_of_pos hdigits]
  simp

/-- Letters of a keyword: at most one digit at the end, which leaves a stem, no `_v` at the
end and no `sct_` in front. -/
def KeywordLetters (l : List Char) : Prop :=
  lastDigits l ≤ 1 ∧
    (∀ c ∈ l.getLast?, c.isDigit = true →
      String.ofList l.dropLast ∈ stems ∧ (c = '0' ∨ c = '1')) ∧
    l.drop (l.length - 2) ≠ ['_', 'v'] ∧ l.take 4 ≠ ['s', 'c', 't', '_']

instance (l : List Char) : Decidable (KeywordLetters l) :=
  -- not by a search through all letters
  letI : Decidable (∀ c ∈ l.getLast?, c.isDigit = true →
      String.ofList l.dropLast ∈ stems ∧ (c = '0' ∨ c = '1')) := Option.decidableForallMem _
  inferInstanceAs (Decidable (_ ∧ _ ∧ _ ∧ _))

theorem keyword_letters : ∀ k ∈ keywords, KeywordLetters k.toList := by
  decide +kernel

theorem mem_keywords (h : isKeyword s = true) : s ∈ keywords := by
  simpa [isKeyword] using h

/-- The keywords a number can make. -/
theorem numbered_keyword_iff : isKeyword (numbered s i) = true ↔ s ∈ stems ∧ i < 2 := by
  constructor
  · intro h
    obtain ⟨hdigits, hstem, -, -⟩ := keyword_letters _ (mem_keywords h)
    have hlen := length_toDigits_le.trans hdigits
    have hpos : 0 < (Nat.toDigits 10 i).length := Nat.length_toDigits_pos
    obtain ⟨c, hc⟩ := List.length_eq_one_iff.mp (by omega : (Nat.toDigits 10 i).length = 1)
    have hdigit : c.isDigit = true :=
      Nat.isDigit_of_mem_toDigits (by decide) (by decide) (hc ▸ List.mem_singleton_self c)
    rw [toList_numbered, hc] at hstem
    obtain ⟨hs, hc'⟩ := hstem c (by simp) hdigit
    refine ⟨by simpa using hs, ?_⟩
    have hi : i = Nat.ofDigitChars 10 [c] 0 := by rw [← hc, Nat.ofDigitChars_ten_toDigits]
    rw [hi]
    rcases hc' with rfl | rfl <;> decide
  · rintro ⟨hs, hi⟩
    have hall : ∀ t ∈ stems, numbered t 0 ∈ keywords ∧ numbered t 1 ∈ keywords := by
      decide +kernel
    have hcase : i = 0 ∨ i = 1 := by omega
    rcases hcase with rfl | rfl
    · simpa [isKeyword] using (hall s hs).1
    · simpa [isKeyword] using (hall s hs).2

theorem numbered_not_mif : numbered s i ∉ mifIndxName := by
  intro h
  have hall : ∀ t ∈ mifIndxName, lastDigits t.toList = 0 := by decide
  have hlen := length_toDigits_le (s := s) (i := i)
  rw [hall _ h] at hlen
  exact absurd (List.length_eq_zero_iff.mp (Nat.le_zero.mp hlen)) Nat.toDigits_ne_nil

/-- A keyword with a suffix ends unlike all keywords and reserved names. -/
theorem drop_suffix : (s ++ "_v").toList.drop ((s ++ "_v").toList.length - 2) = ['_', 'v'] := by
  simp

theorem isKeyword_avoidKeyword : isKeyword (avoidKeyword s) = false := by
  unfold avoidKeyword
  split
  · by_contra h
    exact (keyword_letters _ (mem_keywords (by simpa using h))).2.2.1 drop_suffix
  · rename_i h
    simpa using h

theorem mif_letters : ∀ t ∈ mifIndxName, t.toList.take 4 = ['s', 'c', 't', '_'] ∧
    t.toList.drop (t.toList.length - 2) ≠ ['_', 'v'] := by
  decide

/-- Reserved names are no keywords. -/
theorem avoidKeyword_of_mif (h : s ∈ mifIndxName) : avoidKeyword s = s := by
  apply if_neg
  intro hk
  exact (keyword_letters _ (mem_keywords hk)).2.2.2 (mif_letters _ h).1

theorem mif_of_avoidKeyword (h : avoidKeyword s ∈ mifIndxName) : s ∈ mifIndxName := by
  unfold avoidKeyword at h
  split at h
  · exact absurd drop_suffix (mif_letters _ h).2
  · exact h

end Strings

/-- Names returned or added as taken since the last reset, after those at the start. -/
def takenSince (start : Finset String) : List Event → Finset String
  | [] => start
  | .taken names :: events => takenSince (start ∪ names) events
  | .local _ :: events => takenSince start events
  | .reset :: events => takenSince ∅ events

def localNames : List Event → Finset String
  | [] => ∅
  | .local name :: events => insert name (localNames events)
  | .taken _ :: events | .reset :: events => localNames events

/-- The name has been returned or added. -/
def Given (events : List Event) (name : String) (checkLocalNames : Bool) : Prop :=
  name ∈ takenSince ∅ events ∨ checkLocalNames = true ∧ name ∈ localNames events

/-- A name that may be used in the module. -/
structure Legal (events : List Event) (checkLocalNames : Bool) (name : String) : Prop where
  fresh : ¬Given events name checkLocalNames
  notKeyword : isKeyword name = false
  notReserved : name ∉ mifIndxName

/-- No reserved name is suggested after a reset unless it has been given again, and no stem
of a keyword whose first free number makes the keyword. -/
def Suitable (events : List Event) (suggestedName : String) (checkLocalNames : Bool) : Prop :=
  (suggestedName ∈ mifIndxName → Event.reset ∈ events →
    Given events suggestedName checkLocalNames) ∧
  (suggestedName ∈ stems → Given events (avoidKeyword suggestedName) checkLocalNames →
    Given events (numbered suggestedName 0) checkLocalNames ∧
      Given events (numbered suggestedName 1) checkLocalNames)

section Histories
variable {g g' : UniqueNamesGenerator} {event : Event} {events : List Event} {op : Operation}
  {history : List Operation} {suggestedName name : String} {checkLocalNames : Bool}

theorem mem_takenSince (start : Finset String) : name ∈ takenSince start events ↔
    name ∈ takenSince ∅ events ∨ name ∈ start ∧ Event.reset ∉ events := by
  induction events generalizing start with
  | nil => simp [takenSince]
  | cons event events ih =>
    cases event with
    | taken names =>
      rw [takenSince, takenSince, ih (start ∪ names), ih (∅ ∪ names)]
      simp only [Finset.mem_union, Finset.notMem_empty, List.mem_cons, reduceCtorEq, false_or]
      tauto
    | «local» added =>
      rw [takenSince, takenSince, ih start]
      simp
    | reset => simp [takenSince]

theorem takenSince_append (start : Finset String) (events' : List Event) :
    takenSince start (events ++ events') = takenSince (takenSince start events) events' := by
  induction events generalizing start with
  | nil => rfl
  | cons event events ih => cases event <;> exact ih _

theorem UniqueNamesGenerator.isTaken_eq_true : g.isTaken name checkLocalNames = true ↔
    name ∈ g.takenNames ∨ checkLocalNames = true ∧ name ∈ g.localNames := by
  simp [isTaken]

theorem UniqueNamesGenerator.isTaken_eq_false : g.isTaken name checkLocalNames = false ↔
    name ∉ g.takenNames ∧ (checkLocalNames = true → name ∉ g.localNames) := by
  simp [isTaken]

/-- The search ends. -/
theorem UniqueNamesGenerator.exists_getUniqueName (g : UniqueNamesGenerator)
    (suggestedName : String) (checkLocalNames : Bool) :
    ∃ name g', g.getUniqueName suggestedName checkLocalNames = some (name, g') := by
  obtain ⟨name, number, hs⟩ := exists_search (numbered_injective suggestedName)
    (g.takenNames ∪ g.localNames) (fun n hn => by
      rcases isTaken_eq_true.mp hn with h | h
      · exact Finset.mem_union_left _ h
      · exact Finset.mem_union_right _ h.2) (avoidKeyword suggestedName) 0
  rw [getUniqueName, hs]
  exact ⟨_, _, rfl⟩

theorem UniqueNamesGenerator.getUniqueName_found
    (h : g.getUniqueName suggestedName checkLocalNames = some (name, g')) :
    (∃ number, Found (g.isTaken · checkLocalNames) (numbered suggestedName)
      (avoidKeyword suggestedName) 0 name number) ∧
      g'.takenNames = insert name g.takenNames ∧ g'.localNames = g.localNames := by
  rw [getUniqueName] at h
  obtain ⟨⟨genName, number⟩, hs, hg⟩ := Option.bind_eq_some_iff.mp h
  cases hg
  exact ⟨⟨number, search_found hs⟩, rfl, rfl⟩

theorem step_names (h : step g op = some (event, g')) :
    g'.takenNames = takenSince g.takenNames [event] ∧
      g'.localNames = g.localNames ∪ localNames [event] := by
  cases op with
  | getUniqueName suggestedName checkLocalNames =>
    obtain ⟨⟨name, g''⟩, hg, hstep⟩ := Option.bind_eq_some_iff.mp h
    cases hstep
    obtain ⟨-, htaken, hlocal⟩ := UniqueNamesGenerator.getUniqueName_found hg
    simp [takenSince, localNames, htaken, hlocal]
  | _ =>
    cases h
    simp [takenSince, localNames, UniqueNamesGenerator.addTakenName,
      UniqueNamesGenerator.addTakenNames, UniqueNamesGenerator.addLocalName,
      UniqueNamesGenerator.reset, Finset.union_comm]

theorem exists_run (g : UniqueNamesGenerator) (history : List Operation) :
    ∃ events g', run g history = some (events, g') := by
  induction history generalizing g with
  | nil => exact ⟨[], g, rfl⟩
  | cons op history ih =>
    have hstep : ∃ event g', step g op = some (event, g') := by
      cases op with
      | getUniqueName suggestedName checkLocalNames =>
        obtain ⟨name, g', h⟩ := g.exists_getUniqueName suggestedName checkLocalNames
        exact ⟨.taken {name}, g', by rw [step, h]; rfl⟩
      | _ => exact ⟨_, _, rfl⟩
    obtain ⟨event, g', hstep⟩ := hstep
    obtain ⟨events, g'', hrun⟩ := ih g'
    exact ⟨event :: events, g'', by rw [run, hstep]; simp [hrun]⟩

theorem run_names (h : run g history = some (events, g')) :
    g'.takenNames = takenSince g.takenNames events ∧
      g'.localNames = g.localNames ∪ localNames events := by
  induction history generalizing g events with
  | nil =>
    cases h
    simp [takenSince, localNames]
  | cons op history ih =>
    obtain ⟨⟨event, g''⟩, hstep, hrest⟩ := Option.bind_eq_some_iff.mp h
    obtain ⟨⟨events', g'''⟩, hrun, hlast⟩ := Option.bind_eq_some_iff.mp hrest
    cases hlast
    obtain ⟨htaken, hlocal⟩ := step_names hstep
    obtain ⟨htaken', hlocal'⟩ := ih hrun
    rw [htaken', hlocal', htaken, hlocal, ← takenSince_append]
    refine ⟨rfl, ?_⟩
    cases event <;> simp [localNames]

/-- What is taken after a history: the names given, and the reserved ones before a reset. -/
theorem isTaken_iff (h : run .init history = some (events, g)) :
    g.isTaken name checkLocalNames = true ↔
      Given events name checkLocalNames ∨ name ∈ mifIndxName ∧ Event.reset ∉ events := by
  obtain ⟨htaken, hlocal⟩ := run_names h
  rw [UniqueNamesGenerator.isTaken_eq_true, htaken, hlocal, mem_takenSince, Given]
  simp only [UniqueNamesGenerator.init, List.mem_toFinset, Finset.empty_union]
  tauto

section Search
variable {number : Nat} (hrun : run .init history = some (events, g))
  (hfound : Found (g.isTaken · checkLocalNames) (numbered suggestedName)
    (avoidKeyword suggestedName) 0 name number)

include hrun in
theorem given_of_taken (hname : name ∉ mifIndxName) :
    g.isTaken name checkLocalNames = true ↔ Given events name checkLocalNames := by
  rw [isTaken_iff hrun]
  simp [hname]

include hrun hfound in
/-- The name returned is always fresh. -/
theorem not_given_of_found : ¬Given events name checkLocalNames := by
  intro h
  exact Bool.false_ne_true (hfound.free.symm.trans ((isTaken_iff hrun).mpr (.inl h)))

include hrun hfound in
/-- A reserved name is returned only when it is the suggestion. -/
theorem notReserved_iff : name ∉ mifIndxName ↔ (suggestedName ∈ mifIndxName →
    Event.reset ∈ events → Given events suggestedName checkLocalNames) := by
  cases number with
  | zero =>
    rw [hfound.first rfl]
    have hfree := not_given_of_found hrun hfound
    rw [hfound.first rfl] at hfree
    constructor
    · intro hnot hmif
      rw [avoidKeyword_of_mif hmif] at hnot
      exact absurd hmif hnot
    · intro hgiven hmif
      have hs := mif_of_avoidKeyword hmif
      rw [avoidKeyword_of_mif hs] at hfree
      have hreset : Event.reset ∈ events := by
        by_contra hnone
        have htaken : g.isTaken suggestedName checkLocalNames = true :=
          (isTaken_iff hrun).mpr (.inr ⟨hs, hnone⟩)
        have hfirst := hfound.free
        rw [hfound.first rfl, avoidKeyword_of_mif hs] at hfirst
        exact Bool.false_ne_true (hfirst.symm.trans htaken)
      exact hfree (hgiven hs hreset)
  | succ i =>
    obtain ⟨htaken, hname⟩ := hfound.numbered (Nat.succ_pos i)
    refine iff_of_true (hname ▸ numbered_not_mif) fun hmif hreset => ?_
    rw [avoidKeyword_of_mif hmif, isTaken_iff hrun] at htaken
    exact htaken.resolve_right fun h => h.2 hreset

include hrun hfound in
/-- A keyword is returned when its stem is suggested and taken. -/
theorem notKeyword_iff : isKeyword name = false ↔ (suggestedName ∈ stems →
    Given events (avoidKeyword suggestedName) checkLocalNames →
      Given events (numbered suggestedName 0) checkLocalNames ∧
        Given events (numbered suggestedName 1) checkLocalNames) := by
  have hgiven (i : Nat) : g.isTaken (numbered suggestedName i) checkLocalNames = true ↔
      Given events (numbered suggestedName i) checkLocalNames :=
    given_of_taken hrun numbered_not_mif
  cases number with
  | zero =>
    have hfree := not_given_of_found hrun hfound
    rw [hfound.first rfl] at hfree ⊢
    exact iff_of_true isKeyword_avoidKeyword fun _ h => absurd h hfree
  | succ i =>
    obtain ⟨htaken, hname⟩ := hfound.numbered (Nat.succ_pos i)
    have hname : name = numbered suggestedName i := hname
    have hfree := not_given_of_found hrun hfound
    subst hname
    rw [← Bool.not_eq_true, numbered_keyword_iff]
    constructor
    · intro hnot hs _
      -- both keywords have been passed
      have hi : 2 ≤ i := by
        by_contra hlt
        exact hnot ⟨hs, by omega⟩
      exact ⟨(hgiven 0).mp (hfound.passed 0 (Nat.le_refl 0) (by omega)),
        (hgiven 1).mp (hfound.passed 1 (Nat.zero_le 1) (by omega))⟩
    · rintro hpassed ⟨hs, hi⟩
      have havoid : avoidKeyword suggestedName ∉ mifIndxName := by
        intro hmif
        have hall : ∀ t ∈ stems, t ∉ mifIndxName := by decide
        exact hall _ hs (mif_of_avoidKeyword hmif)
      obtain ⟨hzero, hone⟩ := hpassed hs ((given_of_taken hrun havoid).mp htaken)
      have hcase : i = 0 ∨ i = 1 := by omega
      rcases hcase with rfl | rfl
      · exact hfree hzero
      · exact hfree hone

end Search

end Histories

/-- After each history the search ends, and the name it returns is legal exactly if the
suggestion was suitable. -/
theorem getUniqueName_legal_iff (history : List Operation) (suggestedName : String)
    (checkLocalNames : Bool) :
    ∃ events g name g', run .init history = some (events, g) ∧
      g.getUniqueName suggestedName checkLocalNames = some (name, g') ∧
      (Legal events checkLocalNames name ↔ Suitable events suggestedName checkLocalNames) := by
  obtain ⟨events, g, hrun⟩ := exists_run .init history
  obtain ⟨name, g', hname⟩ := g.exists_getUniqueName suggestedName checkLocalNames
  obtain ⟨⟨number, hfound⟩, -, -⟩ := UniqueNamesGenerator.getUniqueName_found hname
  refine ⟨events, g, name, g', hrun, hname, ?_⟩
  rw [Suitable, ← notReserved_iff hrun hfound, ← notKeyword_iff hrun hfound]
  constructor
  · exact fun h => ⟨h.notReserved, h.notKeyword⟩
  · exact fun h => ⟨not_given_of_found hrun hfound, h.2, h.1⟩

/-- With `tri_v` taken the suggestion `tri` gives a keyword, and after a reset a reserved
name is given. -/
theorem getUniqueName_illegal :
    (∃ events g g', run .init [.addTakenName "tri_v"] = some (events, g) ∧
      g.getUniqueName "tri" false = some ("tri0", g') ∧ ¬Legal events false "tri0") ∧
    ∃ events g g', run .init [.reset] = some (events, g) ∧
      g.getUniqueName "sct_i" false = some ("sct_i", g') ∧ ¬Legal events false "sct_i" := by
  refine ⟨⟨_, _, _, rfl, rfl, fun h => ?_⟩, ⟨_, _, _, rfl, rfl, fun h => ?_⟩⟩
  · exact absurd h.notKeyword (by decide)
  · exact absurd h.notReserved (by decide)

end SystemcCompiler.Names
