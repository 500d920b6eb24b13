import SystemcCompiler.Cfg.StateEval

/-! Soundness of the values of `ScState`: along every run of declarations, bindings and
writes, an integer in the state is what the C++ store holds. It fails where a constant
whose value is not known is evaluated from its initializer again, in a later state. -/
namespace SystemcCompiler.StateValues
open RowMajor

namespace Reaches
open State
variable {P : Program} {ids : Decl → Nat} {s : State} {c : Store} {xs : List Decl} {v : SValue}
  {p : Place}

/-- A reference that is written to is bound. -/
theorem bound (h : Reaches P ids s c xs v p) (href : v.isReference P.decl = true) :
    (getValue P.decl s v false .amNoValue).1 ≠ .noValue := by
  cases v with
  | var r =>
    have hget : getValue P.decl s (.var r) false .amNoValue = (s.find (.var r), false) := rfl
    rw [hget]
    rcases getDerefVariable_cases P.decl s (.var r) with heq | ⟨-, hnone, -⟩
    · rcases h.denotes with hfalse | hden
      · cases hfalse
      · rw [heq] at hden
        have hobject := h.object
        rw [hden.eq_of_var] at hobject
        exact absurd href (by simp [SValue.isReference, Program.decl, hobject])
    · exact hnone
  | _ => cases href

theorem assignValueInState_eq {r : SValue} {z : Int} (h : Reaches P ids s c xs v p)
    (hr : s.Yields P r z) :
    assignValueInState P s v r = putValue P.decl s v (s.operand P r) true := by
  rcases hr.cases with rfl | rfl | hlv
  · rfl
  · rfl
  · have hcond : (!v.isReference P.decl) = true ∨
        (getValue P.decl s v false .amNoValue).1 ≠ .noValue := by
      cases href : v.isReference P.decl with
      | false => exact .inl rfl
      | true => exact .inr (h.bound href)
    rw [operand_lvalue hlv]
    unfold assignValueInState
    cases r with
    | var x => exact if_pos hcond
    | field f parent => exact if_pos hcond
    | array id owner size offset => exact if_pos hcond
    | _ => cases hlv

/-- An assignment of an operand that has the value `z` or none. -/
theorem assign {t : Scalar} {r : SValue} {z : Int} (h : Reaches P ids s c xs v p)
    (hs : Describes P ids s c) (hv : v ≠ .noValue) (ht : p.scalarType P = some t)
    (hr : s.Yields P r z) :
    Describes P ids (assignValueInState P s v r) (c.write p (t.cast z)) := by
  rw [h.assignValueInState_eq hr]
  rcases h.denotes with hfalse | ⟨d, hd, hderef⟩ | hcov
  · exact absurd hfalse hv
  · exact hs.putValue_exact h.live h.object ht hd hderef (fun href => (h.cast href).trans ht) hr
  · exact hs.putValue_covers h.live h.object ht hcov _ _

end Reaches

namespace Describes
open State
variable {P : Program} {ids : Decl → Nat} {s s' : State} {c c' : Store} {choice : Choice}
  {fuel : Nat}

theorem step_write {l : LExpr} {e : RExpr} (h : Describes P ids s c)
    (hxs : ∀ x ∈ l.reads ++ e.reads, s.Settled P fuel c x)
    (hs : s.step P fuel (.write l e) = some s') (hc : c.step P choice (.write l e) = some c') :
    Describes P ids s' c' := by
  simp only [List.mem_append] at hxs
  simp only [Store.step] at hc
  split at hc
  · next p z hp hz =>
    obtain ⟨t, ht, rfl⟩ := Option.map_eq_some_iff.mp hc
    have hl := h.evalL_reaches (fun x hx => hxs x (.inl hx)) hp
    have he := h.evalR_computes (fun x hx => hxs x (.inr hx)) hz
    simp only [State.step, Option.ite_none_left_eq_some, Option.some.injEq] at hs
    obtain ⟨hne, rfl⟩ := hs
    exact hl.assign h hne ht he.yields
  · cases hc

/-- An exact key denotes its place. -/
theorem key_reaches {p : Place} {d : Cursor} (hx : c.Live p.root)
    (href : P.isReference p.root = false) (hd : p.cursor P (ids p.root) = some d) :
    Reaches P ids s c [p.root] d.key p := by
  have hl := Place.cursor_located hd
  have hself := hl.isReference_key href
  refine ⟨hx, href, .inr (.inl ⟨d, hd, getDerefVariable_self hself⟩), fun hfalse => ?_,
    fun y hy => ?_⟩
  · rw [hself] at hfalse
    cases hfalse
  · have hroot := hl.root_key
    rw [hy] at hroot
    cases hroot
    simp

/-- The key of an element of a declared variable. -/
theorem elementOf_key {x : Decl} {i : Nat} (h : Describes P ids s c) (hx : c.Live x)
    (href : P.isReference x = false) (hi : i < (P.type x).sizes.prod) :
    ∃ d, (Place.mk x (indices (P.type x).sizes i)).cursor P (ids x) = some d ∧
      elementOf P s x i = d.key := by
  have hwithin : Within (P.type x).sizes (indices (P.type x).sizes i) :=
    indices_within (Nat.zero_lt_of_lt hi) i
  obtain ⟨d, hd, -⟩ :=
    Cursor.exists_element (c := Cursor.start (.var x) (P.type x)) (ids x) hwithin
  refine ⟨d, hd, ?_⟩
  unfold elementOf
  split
  · next hsizes =>
    rw [hsizes] at hd
    cases hd
    rfl
  · next hsizes =>
    have harrays : ∀ q e, q.length < (P.type x).sizes.length →
        (Cursor.start (.var x) (P.type x)).walk (ids x) q = some e →
        s.find e.key = e.object (ids x) := by
      intro q e hq he
      obtain ⟨n, t, ht⟩ := Cursor.type_of_short he hq
      have hholds := h.holds x q e hx href he
      rwa [Cursor.Holds, ht] at hholds
    have hget : (getValue P.decl s (.var x) false .amNoValue).1 =
        (Cursor.start (.var x) (P.type x)).object (ids x) :=
      harrays [] _ (List.length_pos_iff.mpr hsizes) rfl
    rw [hget]
    refine getArrElmByIndx_key h.known (Cursor.located_start P x) hwithin ?_ harrays hd
    intro hnil
    have hlen := congrArg List.length hnil
    rw [indices_length] at hlen
    exact hsizes (List.length_eq_zero_iff.mp hlen)

theorem step_init {x : Decl} {i : Nat} (h : Describes P ids s c)
    (hxs : ∀ e, P.initExpr x i = some e → ∀ y ∈ e.reads, s.Settled P fuel c y)
    (hs : s.step P fuel (.init x i) = some s') (hc : c.step P choice (.init x i) = some c') :
    Describes P ids s' c' := by
  simp only [Store.step] at hc
  split at hc
  · next hx =>
    split at hc
    · next z hz =>
      obtain ⟨e, he, hz⟩ := Option.bind_eq_some_iff.mp hz
      obtain ⟨t, ht, rfl⟩ := Option.map_eq_some_iff.mp hc
      have href : P.isReference x = false := by
        unfold Program.initExpr at he
        unfold Program.isReference
        split at he
        · next hinit => rw [hinit]
        · cases he
      obtain ⟨d, hd, hkey⟩ := h.elementOf_key hx.1 href hx.2
      have hl : Reaches P ids s c [x] d.key ⟨x, indices (P.type x).sizes i⟩ :=
        key_reaches (p := ⟨x, indices (P.type x).sizes i⟩) hx.1 href hd
      have hne : d.key ≠ .noValue := by
        intro hfalse
        have hroot := (Place.cursor_located hd).root_key
        rw [hfalse] at hroot
        cases hroot
      have hvalue := (h.evalR_computes (hxs e he) hz).getValueFromState (hxs e he)
      simp only [State.step, he, Option.map_some, Option.some.injEq, hkey] at hs
      subst hs
      exact hl.assign h hne ht hvalue
    · cases hc
  · cases hc

theorem setIdGen (h : Describes P ids s c) (n : Nat) : Describes P ids { s with idGen := n } c :=
  ⟨h.holds, h.closed, h.refs, h.target, h.scope, h.registered, h.levels, h.nodup⟩

/-- Growing a variable leaves the keys of the others. -/
theorem find_of_grown {A B : List Nat → Prop} {x : Decl} {id level : Nat} {k : SValue}
    (hs : Grown P x id level A B s s') (hk : k.root ≠ some x) : s'.find k = s.find k := by
  refine hs.find_other fun q d _ hd heq => hk ?_
  rw [← heq]
  exact (Place.cursor_located hd).root_key

/-- The objects of a new variable are as its type says. -/
theorem holds_grown {x : Decl} {level : Nat} {path : List Nat} {d : Cursor} {z : Int}
    (h : Describes P ids s c) (hx : ¬c.Live x) (href : P.isReference x = false)
    (hs : Grown P x s.idGen level (fun _ => True) (fun _ => True) s s')
    (hd : (Place.mk x path).cursor P s.idGen = some d) : d.Holds s.idGen s' z := by
  unfold Cursor.Holds
  split
  · next t ht =>
    left
    by_contra hne
    rcases (hs.find d.key _ hne).mp rfl with ⟨q, e, -, he, hkey, hobj⟩ | hold
    · have hq := Place.eq_of_key_eq he hd hkey
      cases hq
      cases he.symm.trans hd
      rw [Cursor.object, ht] at hobj
      exact hne hobj.symm
    · exact hne (hold.symm.trans (h.clear hx href (Place.cursor_located hd).root_key))
  · next hnot =>
    refine (hs.find d.key _ ?_).mpr (.inl ⟨path, d, trivial, hd, rfl, rfl⟩)
    unfold Cursor.object
    split
    · next t ht => exact absurd ht (hnot t)
    · simp
    · simp

/-- A key keeps its place when another variable gets a number. -/
theorem key_update {Q Q' : Decl → Prop} {x : Decl} {n : Nat} {k : SValue} (hx : ¬Q x)
    (hQ : ∀ y, Q y → Q' y)
    (hk : ∃ y path d, Q y ∧ P.isReference y = false ∧
      (Place.mk y path).cursor P (ids y) = some d ∧ d.key = k) :
    ∃ y path d, Q' y ∧ P.isReference y = false ∧
      (Place.mk y path).cursor P (Function.update ids x n y) = some d ∧ d.key = k := by
  obtain ⟨y, path, d, hy, hyref, hd, hkey⟩ := hk
  have hxy : y ≠ x := by
    rintro rfl
    exact hx hy
  exact ⟨y, path, d, hQ y hy, hyref, by rwa [Function.update_of_ne hxy], hkey⟩

/-- A new variable: its objects are there, its scalars have no value. -/
theorem declared {x : Decl} {level : Nat} {mem : Place → Int} (h : Describes P ids s c)
    (hx : ¬c.Live x) (href : P.isReference x = false)
    (hs : Grown P x s.idGen level (fun _ => True) (fun _ => True) s s')
    (hmem : ∀ p, p.root ≠ x → mem p = c.mem p) :
    Describes P (Function.update ids x s.idGen) s'
      { c with mem := mem, live := (x, level) :: c.live } := by
  have hlive : ∀ y, y ≠ x → Store.Live { c with mem := mem, live := (x, level) :: c.live } y →
      c.Live y := by
    intro y hy hmem
    simpa [Store.Live, hy] using hmem
  have hids : ∀ y, y ≠ x → Function.update ids x s.idGen y = ids y :=
    fun y hy => Function.update_of_ne hy _ _
  have hnew : ∀ r, P.isReference r = true → r ≠ x := by
    rintro r hrref rfl
    rw [href] at hrref
    cases hrref
  have hdead : ∀ {y l}, (y, l) ∈ c.live → y ≠ x := by
    rintro y l hy rfl
    exact hx (List.mem_map.mpr ⟨_, hy, rfl⟩)
  exact {
    holds := by
      intro y path d hy hyref hd
      by_cases hxy : y = x
      · subst hxy
        rw [Function.update_self] at hd ⊢
        exact h.holds_grown hx href hs hd
      · rw [hids y hxy] at hd ⊢
        have hholds := h.holds y path d (hlive y hxy hy) hyref hd
        have hroot : d.key.root ≠ some x := by
          rw [(Place.cursor_located hd).root_key]
          exact fun heq => hxy (Option.some.inj heq)
        rw [← hmem ⟨y, path⟩ hxy] at hholds
        exact hholds.of_find (.inl (find_of_grown hs hroot))
    closed := by
      intro k hk
      rcases (hs.find k _ hk).mp rfl with ⟨path, d, -, hd, hkey, -⟩ | hold
      · refine .inr ⟨x, path, d, by simp [Store.Live], href, ?_, hkey⟩
        rwa [Function.update_self]
      · exact (h.closed k (hold ▸ hk)).imp_right
          (key_update hx fun y hy => List.mem_cons_of_mem _ hy)
    refs := by
      intro r hr hrref
      have hrx := hnew r hrref
      have hr := hlive r hrx hr
      have hroot : (c.refs r).root ≠ x := by
        obtain ⟨⟨y, l⟩, hmem, rfl⟩ := List.mem_map.mp hr
        obtain ⟨l', -, htarget⟩ := h.scope y l hmem hrref
        exact hdead htarget
      rw [hids _ hroot, find_of_grown (k := .var r) hs fun heq => hrx (Option.some.inj heq)]
      exact h.refs r hr hrref
    target := by
      intro r hr hrref
      exact h.target r (hlive r (hnew r hrref) hr) hrref
    scope := by
      intro r l hr hrref
      rcases List.mem_cons.mp hr with heq | hr
      · exact absurd (congrArg Prod.fst heq) (hnew r hrref)
      · obtain ⟨l', hle, hmem⟩ := h.scope r l hr hrref
        exact ⟨l', hle, List.mem_cons_of_mem _ hmem⟩
    registered := by
      intro y l path d hy hyref hd
      rw [hs.levels]
      rcases List.mem_cons.mp hy with heq | hy
      · cases heq
        rw [Function.update_self] at hd
        exact .inl ⟨path, d, trivial, hd, rfl⟩
      · rw [hids y (hdead hy)] at hd
        exact .inr (h.registered y l path d hy hyref hd)
    levels := by
      intro l k hk
      rcases (hs.levels _).mp hk with ⟨path, d, -, hd, heq⟩ | hold
      · cases heq
        refine .inr ⟨x, path, d, by simp, href, ?_, rfl⟩
        rwa [Function.update_self]
      · exact (h.levels l k hold).imp_right
          (key_update (fun hmem => hdead hmem rfl) fun y hy => List.mem_cons_of_mem _ hy)
    nodup := List.nodup_cons.mpr ⟨hx, h.nodup⟩ }

/-- A new reference to the place `p`. -/
theorem bound {x : Decl} {level : Nat} {v : SValue} {p : Place} (h : Describes P ids s c)
    (hx : ¬c.Live x) (href : P.isReference x = true) (hlevel : ∃ l ≤ level, (p.root, l) ∈ c.live)
    (hobject : P.isReference p.root = false) (htype : p.scalarType P = (P.type x).scalar?)
    (hv : Denotes P (ids p.root) v p) :
    Describes P ids ((s.setValueLevel (.var x) level).put (.var x) v)
      { c with refs := Function.update c.refs x p, live := (x, level) :: c.live } := by
  have hfind : ∀ k, k ≠ .var x →
      ((s.setValueLevel (.var x) level).put (.var x) v).find k = s.find k := by
    intro k hk
    rw [find_put, if_neg hk]
    rfl
  have hother : ∀ y, P.isReference y = false → y ≠ x := by
    rintro y hy rfl
    rw [href] at hy
    cases hy
  have hcons : ∀ {y l}, (y, l) ∈ (x, level) :: c.live → y ≠ x → (y, l) ∈ c.live := by
    intro y l hy hne
    exact (List.mem_cons.mp hy).resolve_left fun heq => hne (congrArg Prod.fst heq)
  have hlive : ∀ {y}, y ≠ x → y ∈ ((x, level) :: c.live).map Prod.fst → c.Live y := by
    intro y hne hy
    exact (List.mem_cons.mp hy).resolve_left hne
  exact {
    holds := by
      intro y path d hy hyref hd
      refine (h.holds y path d (hlive (hother y hyref) hy) hyref hd).of_find (.inl (hfind _ ?_))
      intro heq
      have hroot := (Place.cursor_located hd).root_key
      rw [heq] at hroot
      exact hother y hyref (Option.some.inj hroot).symm
    closed := by
      intro k hk
      by_cases hkx : k = .var x
      · exact .inl (hkx ▸ href)
      · refine (h.closed k (hfind k hkx ▸ hk)).imp_right ?_
        rintro ⟨y, path, d, hy, hd⟩
        exact ⟨y, path, d, List.mem_cons_of_mem _ hy, hd⟩
    refs := by
      intro r hr hrref
      by_cases hrx : r = x
      · subst hrx
        simpa [find_put] using hv
      · dsimp only
        rw [Function.update_of_ne hrx, hfind _ (fun heq => hrx (SValue.var.inj heq))]
        exact h.refs r (hlive hrx hr) hrref
    target := by
      intro r hr hrref
      by_cases hrx : r = x
      · subst hrx
        simpa using ⟨hobject, htype⟩
      · dsimp only
        rw [Function.update_of_ne hrx]
        exact h.target r (hlive hrx hr) hrref
    scope := by
      intro r l hr hrref
      by_cases hrx : r = x
      · subst hrx
        rcases List.mem_cons.mp hr with heq | hold
        · cases heq
          obtain ⟨l, hle, hmem⟩ := hlevel
          exact ⟨l, hle, by simpa using .inr hmem⟩
        · exact absurd (List.mem_map.mpr ⟨_, hold, rfl⟩) hx
      · obtain ⟨l', hle, hmem⟩ := h.scope r l (hcons hr hrx) hrref
        refine ⟨l', hle, ?_⟩
        dsimp only
        rw [Function.update_of_ne hrx]
        exact List.mem_cons_of_mem _ hmem
    registered := by
      intro y l path d hy hyref hd
      exact List.mem_cons_of_mem _
        (h.registered y l path d (hcons hy (hother y hyref)) hyref hd)
    levels := by
      intro l k hk
      rcases List.mem_cons.mp hk with heq | hold
      · cases heq
        exact .inl href
      · refine (h.levels l k hold).imp_right ?_
        rintro ⟨y, path, d, hy, hd⟩
        exact ⟨y, path, d, List.mem_cons_of_mem _ hy, hd⟩
    nodup := List.nodup_cons.mpr ⟨hx, h.nodup⟩ }

end Describes

namespace State
variable {P : Program} {s : State}

theorem foldl_erase_levels (D : Decl → VarDecl) (l : List (Nat × SValue)) (s : State) :
    (l.foldl (fun s e => if e.2.isReference D then s else s.erase e.2) s).levels = s.levels := by
  induction l generalizing s with
  | nil => rfl
  | cons e l ih =>
    rw [List.foldl_cons, ih]
    split <;> rfl

theorem foldl_erase_find (D : Decl → VarDecl) (l : List (Nat × SValue)) (s : State)
    (k : SValue) :
    (l.foldl (fun s e => if e.2.isReference D then s else s.erase e.2) s).find k =
      if k.isReference D = false ∧ k ∈ l.map Prod.snd then .noValue else s.find k := by
  induction l generalizing s with
  | nil => simp
  | cons e l ih =>
    rw [List.foldl_cons, ih]
    by_cases hmem : k.isReference D = false ∧ k ∈ l.map Prod.snd
    · rw [if_pos hmem, if_pos ⟨hmem.1, List.mem_cons_of_mem _ hmem.2⟩]
    · rw [if_neg hmem]
      by_cases hek : k = e.2
      · subst hek
        cases href : e.2.isReference D with
        | true => simp
        | false => simp [find_erase]
      · have hsame : (if e.2.isReference D = true then s else s.erase e.2).find k = s.find k := by
          split
          · rfl
          · rw [find_erase, if_neg hek]
        rw [hsame, if_neg]
        simpa [hek] using hmem

theorem find_removeValuesByLevel (D : Decl → VarDecl) (s : State) (level : Nat) (k : SValue) :
    (removeValuesByLevel D s level).find k =
      if k.isReference D = false ∧
        k ∈ (s.levels.filter fun e => decide (level < e.1)).map Prod.snd then .noValue
      else s.find k :=
  foldl_erase_find D (s.levels.filter fun e => decide (level < e.1)) s k

theorem mem_above {level : Nat} {k : SValue} :
    k ∈ (s.levels.filter fun e => decide (level < e.1)).map Prod.snd ↔
      ∃ l, level < l ∧ (l, k) ∈ s.levels := by
  simp [and_comm]

theorem mem_levels_removeValuesByLevel {D : Decl → VarDecl} {level l : Nat} {k : SValue} :
    (l, k) ∈ (removeValuesByLevel D s level).levels ↔ (l, k) ∈ s.levels ∧ l ≤ level := by
  simp [removeValuesByLevel, foldl_erase_levels]

end State

namespace Describes
open State
variable {P : Program} {ids : Decl → Nat} {s s' : State} {c c' : Store} {choice : Choice}
  {fuel : Nat}

theorem level_unique {x : Decl} {l l' : Nat} (h : Describes P ids s c) (hl : (x, l) ∈ c.live)
    (hl' : (x, l') ∈ c.live) : l = l' :=
  congrArg Prod.snd (List.inj_on_of_nodup_map h.nodup hl hl' rfl)

/-- Leaving a level forgets the values registered above it, and no others. -/
theorem left (h : Describes P ids s c) (level : Nat) :
    Describes P ids (removeValuesByLevel P.decl s level)
      { c with live := c.live.filter fun e => decide (e.2 ≤ level) } := by
  have hlive : ∀ {y l}, (y, l) ∈ (c.live.filter fun e => decide (e.2 ≤ level)) ↔
      (y, l) ∈ c.live ∧ l ≤ level := by
    intro y l
    simp
  have hmem : ∀ {y}, y ∈ (c.live.filter fun e => decide (e.2 ≤ level)).map Prod.fst →
      ∃ l ≤ level, (y, l) ∈ c.live := by
    intro y hy
    obtain ⟨⟨y, l⟩, hyl, rfl⟩ := List.mem_map.mp hy
    exact ⟨l, (hlive.mp hyl).2, (hlive.mp hyl).1⟩
  have hwas : ∀ {y l}, (y, l) ∈ c.live → c.Live y := fun hy => List.mem_map.mpr ⟨_, hy, rfl⟩
  have hstill : ∀ {y l}, (y, l) ∈ c.live → l ≤ level →
      y ∈ (c.live.filter fun e => decide (e.2 ≤ level)).map Prod.fst := fun hy hl =>
    List.mem_map.mpr ⟨_, hlive.mpr ⟨hy, hl⟩, rfl⟩
  -- a key of a variable that stays is registered at the level of the variable only
  have hkept : ∀ {y l path d}, (y, l) ∈ c.live → l ≤ level → P.isReference y = false →
      (Place.mk y path).cursor P (ids y) = some d →
      (removeValuesByLevel P.decl s level).find d.key = s.find d.key := by
    intro y l path d hy hl hyref hd
    rw [find_removeValuesByLevel, if_neg]
    rintro ⟨hkref, habove⟩
    obtain ⟨l', hl', hreg⟩ := mem_above.mp habove
    rcases h.levels l' d.key hreg with hfalse | ⟨z, path', e, hz, -, he, hkey⟩
    · rw [hkref] at hfalse
      cases hfalse
    · have heq := Place.eq_of_key_eq he hd hkey
      cases heq
      exact absurd (h.level_unique hy hz) (by omega)
  have hrefs : ∀ r, P.isReference r = true →
      (removeValuesByLevel P.decl s level).find (.var r) = s.find (.var r) := by
    intro r href
    rw [find_removeValuesByLevel, if_neg]
    rintro ⟨hfalse, -⟩
    rw [SValue.isReference, Program.decl, href] at hfalse
    cases hfalse
  exact {
    holds := by
      intro y path d hy hyref hd
      obtain ⟨l, hl, hy⟩ := hmem hy
      exact (h.holds y path d (hwas hy) hyref hd).of_find (.inl (hkept hy hl hyref hd))
    closed := by
      intro k hk
      rw [find_removeValuesByLevel] at hk
      split at hk
      · exact absurd rfl hk
      · next hnot =>
        refine (h.closed k hk).imp_right ?_
        rintro ⟨y, path, d, hy, hyref, hd, rfl⟩
        obtain ⟨⟨y, l⟩, hyl, rfl⟩ := List.mem_map.mp hy
        refine ⟨y, path, d, hstill hyl (Nat.le_of_not_lt fun hlt => hnot ⟨?_, ?_⟩), hyref, hd, rfl⟩
        · exact (Place.cursor_located hd).isReference_key hyref
        · exact mem_above.mpr ⟨l, hlt, h.registered y l path d hyl hyref hd⟩
    refs := by
      intro r hr hrref
      obtain ⟨l, -, hr⟩ := hmem hr
      rw [hrefs r hrref]
      exact h.refs r (hwas hr) hrref
    target := by
      intro r hr hrref
      obtain ⟨l, -, hr⟩ := hmem hr
      exact h.target r (hwas hr) hrref
    scope := by
      intro r l hr hrref
      obtain ⟨hr, hl⟩ := hlive.mp hr
      obtain ⟨l', hle, hroot⟩ := h.scope r l hr hrref
      exact ⟨l', hle, hlive.mpr ⟨hroot, hle.trans hl⟩⟩
    registered := by
      intro y l path d hy hyref hd
      obtain ⟨hy, hl⟩ := hlive.mp hy
      exact mem_levels_removeValuesByLevel.mpr ⟨h.registered y l path d hy hyref hd, hl⟩
    levels := by
      intro l k hk
      obtain ⟨hk, hl⟩ := mem_levels_removeValuesByLevel.mp hk
      refine (h.levels l k hk).imp_right ?_
      rintro ⟨y, path, d, hy, hd⟩
      exact ⟨y, path, d, hlive.mpr ⟨hy, hl⟩, hd⟩
    nodup := h.nodup.sublist (List.filter_sublist.map Prod.fst) }

theorem putValue_reference {x : Decl} {v : SValue} (s : State)
    (hv : v.isVariable = true ∨ v.isArray = true) :
    putValue P.decl s (.var x) v false = s.put (.var x) v := by
  have hknown : hasUnknownArray P.decl s (.var x) = false := rfl
  have hcast : castValue P.decl (.var x) v = v := by
    cases v with
    | integer z => simp [SValue.isVariable, SValue.isArray] at hv
    | _ => rfl
  have hne : v ≠ .noValue := by
    rintro rfl
    simp [SValue.isVariable, SValue.isArray] at hv
  simp [putValue, SValue.isArray, hknown, hcast, hne]

theorem step_declare {level : Nat} {x : Decl} (h : Describes P ids s c)
    (hxs : ∀ l, P.init x = .refer l → ∀ y ∈ l.reads, s.Settled P fuel c y)
    (hs : s.step P fuel (.declare level x) = some s')
    (hc : c.step P choice (.declare level x) = some c') : ∃ ids', Describes P ids' s' c' := by
  simp only [Store.step, Option.ite_none_left_eq_some, List.any_eq_true, Bool.or_eq_true,
    decide_eq_true_eq, not_exists, not_and, not_or, not_lt] at hc
  obtain ⟨hfree, hc⟩ := hc
  have hx : ¬c.Live x := by
    intro hx
    obtain ⟨e, he, heq⟩ := List.mem_map.mp hx
    exact (hfree e he).1 heq
  simp only [State.step] at hs
  cases hinit : P.init x with
  | refer l =>
    have href : P.isReference x = true := by rw [Program.isReference, hinit]
    simp only [hinit] at hs hc
    split at hc
    · next p hp =>
      simp only [Option.ite_none_right_eq_some, Option.some.injEq] at hc
      obtain ⟨htype, rfl⟩ := hc
      have hl := h.evalL_reaches (hxs l hinit) hp
      simp only [bindReference, Option.ite_none_right_eq_some, Option.some.injEq] at hs
      obtain ⟨hlv, rfl⟩ := hs
      rcases hl.denotes with hfalse | hden
      · rw [hfalse] at hlv
        cases hlv
      · obtain ⟨⟨y, l'⟩, hmem, hroot⟩ := List.mem_map.mp hl.live
        refine ⟨ids, ?_⟩
        rw [putValue_reference _ hden.lvalue]
        exact h.bound hx href ⟨l', (hfree _ hmem).2, hroot ▸ hmem⟩ hl.object htype hden
    · cases hc
  | _ =>
    have href : P.isReference x = false := by rw [Program.isReference, hinit]
    simp only [hinit, Option.some.injEq] at hs hc
    simp only [declareVariable, Option.ite_none_left_eq_some, Option.some.injEq] at hs
    obtain ⟨-, rfl⟩ := hs
    subst hc
    refine ⟨Function.update ids x s.idGen, setIdGen ?_ _⟩
    refine h.declared hx href ?_ fun p hp => if_neg hp
    exact parseValueDecl_grown level href h.known fun k hk => h.clear hx href hk

end Describes

/-- The variables whose values a step reads. -/
def Op.reads (P : Program) : Op → List Decl
  | .declare _ x =>
    match P.init x with
    | .refer l => l.reads
    | _ => []
  | .init x i => ((P.initExpr x i).map RExpr.reads).getD []
  | .write l e => l.reads ++ e.reads
  | .leave _ => []

theorem Describes.step {P : Program} {ids : Decl → Nat} {s s' : State} {c c' : Store}
    {choice : Choice} {fuel : Nat} {op : Op} (h : Describes P ids s c)
    (hxs : ∀ x ∈ op.reads P, s.Settled P fuel c x) (hs : s.step P fuel op = some s')
    (hc : c.step P choice op = some c') : ∃ ids', Describes P ids' s' c' := by
  cases op with
  | declare level x =>
    refine h.step_declare (fun l hinit y hy => hxs y ?_) hs hc
    simpa [Op.reads, hinit] using hy
  | init x i =>
    refine ⟨ids, h.step_init (fun e he y hy => hxs y ?_) hs hc⟩
    simpa [Op.reads, he] using hy
  | write l e => exact ⟨ids, h.step_write hxs hs hc⟩
  | leave level =>
    cases hs
    cases hc
    exact ⟨ids, h.left level⟩

/-- The state and the store after the same steps; `ok` is what each step meets. -/
inductive Run (P : Program) (fuel : Nat) (ok : State → Store → Op → Prop) :
    State → Store → Prop where
  | start : Run P fuel ok .empty .empty
  | step {s s' : State} {c c' : Store} {op : Op} (choice : Choice) :
    Run P fuel ok s c → ok s c op → s.step P fuel op = some s' → c.step P choice op = some c' →
    Run P fuel ok s' c'

namespace State
variable (P : Program) (fuel : Nat)

/-- The step reads no constant that is evaluated again to another value. -/
def NoStaleConst (s : State) (c : Store) (op : Op) : Prop :=
  ∀ x ∈ op.reads P, s.Settled P fuel c x

/-- An integer that `getValue` gives for a variable, an element or a field is what the store
holds there. -/
def ValuesSound (s : State) (c : Store) : Prop :=
  ∀ choice l p z, (∀ x ∈ l.reads, s.Settled P fuel c x) → c.place P choice l = some p →
    (getValue P.decl s (evalL P (declValue P s fuel) s l) true .amNoValue).1 = .integer z →
    c.mem p = z

end State

theorem Run.describes {P : Program} {fuel : Nat} {s : State} {c : Store}
    (h : Run P fuel (State.NoStaleConst P fuel) s c) : ∃ ids, Describes P ids s c := by
  induction h with
  | start => exact ⟨fun _ => 0, Describes.empty P _⟩
  | step choice _ hok hs hc ih =>
    obtain ⟨ids, hids⟩ := ih
    exact hids.step hok hs hc

theorem Cursor.Holds.eq_of_integer {id : Nat} {s : State} {m z : Int} {d : Cursor}
    (h : d.Holds id s m) (hz : s.find d.key = .integer z) : m = z := by
  unfold Holds at h
  split at h
  · rw [hz] at h
    rcases h with h | h
    · cases h
    · cases h
      rfl
  · rw [hz, object] at h
    split at h <;> cases h

/-- An integer that `getValue` gives is what the store holds. -/
theorem Reaches.mem_of_getValue {P : Program} {ids : Decl → Nat} {s : State} {c : Store}
    {xs : List Decl} {v : SValue} {p : Place} {z : Int} (h : Reaches P ids s c xs v p)
    (hs : Describes P ids s c)
    (hget : (State.getValue P.decl s v true .amNoValue).1 = .integer z) : c.mem p = z := by
  rcases h.denotes with rfl | ⟨d, hd, hderef⟩ | hcov
  · have hfind : s.find .noValue = .integer z := hget
    rcases hs.closed .noValue (by rw [hfind]; nofun) with hfalse | ⟨x, path, d, -, -, hd, hkey⟩
    · cases hfalse
    · have hroot := (Place.cursor_located hd).root_key
      rw [hkey] at hroot
      cases hroot
  · rw [Describes.getValue_exact hs.known hd hderef] at hget
    exact (hs.holds p.root p.path d h.live h.object hd).eq_of_integer hget
  · rw [Describes.getValue_covers hs.known hcov] at hget
    cases hget

/-- Along every run whose steps read no constant that is evaluated again. -/
theorem run_valuesSound {P : Program} {fuel : Nat} {s : State} {c : Store}
    (hrun : Run P fuel (State.NoStaleConst P fuel) s c) : s.ValuesSound P fuel c := by
  obtain ⟨ids, hids⟩ := hrun.describes
  intro choice l p z hl hp hget
  exact (hids.evalL_reaches hl hp).mem_of_getValue hids hget

instance (P : Program) (fuel : Nat) (s : State) (c : Store) (x : Decl) :
    Decidable (s.Settled P fuel c x) :=
  match h : s.getDerefVariable P.decl (.var x) with
  | .var k =>
    decidable_of_iff (P.isConst k = true → P.isReference k = false → s.find (.var k) = .noValue →
      s.operand P (s.declValue P fuel x) = .noValue ∨
        s.operand P (s.declValue P fuel x) = .integer (c.mem ⟨k, []⟩)) (by simp [State.Settled, h])
  | .noValue | .integer _ | .field .. | .array .. | .record .. =>
    isTrue (by simp [State.Settled, h])

instance (P : Program) (fuel : Nat) (s : State) (c : Store) (op : Op) :
    Decidable (s.NoStaleConst P fuel c op) :=
  inferInstanceAs (Decidable (∀ x ∈ op.reads P, s.Settled P fuel c x))

/-- A run computed from its steps. -/
def run (P : Program) (fuel : Nat) (ok : State → Store → Op → Prop)
    [∀ s c op, Decidable (ok s c op)] : List (Op × Choice) → State × Store → Option (State × Store)
  | [], r => some r
  | (op, choice) :: steps, (s, c) =>
    if ok s c op then
      match s.step P fuel op, c.step P choice op with
      | some s', some c' => run P fuel ok steps (s', c')
      | _, _ => none
    else none

theorem Run.of_run {P : Program} {fuel : Nat} {ok : State → Store → Op → Prop}
    [∀ s c op, Decidable (ok s c op)] {steps : List (Op × Choice)} {r r' : State × Store}
    (h : Run P fuel ok r.1 r.2) (hrun : run P fuel ok steps r = some r') :
    Run P fuel ok r'.1 r'.2 := by
  induction steps generalizing r with
  | nil =>
    cases hrun
    exact h
  | cons e steps ih =>
    obtain ⟨op, choice⟩ := e
    simp only [run, Option.ite_none_right_eq_some] at hrun
    obtain ⟨hok, hrun⟩ := hrun
    split at hrun
    · next s' c' hs hc => exact ih (h.step choice hok hs hc) hrun
    · cases hrun

/-- The same value for all inputs and uninitialised variables of a run. -/
def chosen (z : Int) (ops : List Op) : List (Op × Choice) :=
  ops.map fun op => (op, ⟨fun _ => z, fun _ => z⟩)

/-- `struct R { sc_uint<8> b; sc_uint<8> d[2]; }; R a[2][2];` with a reference to a field, a
reference below an unknown index and a constant. -/
def recordProgram : Program where
  type
    | 0 => .array 2 (.array 2 (.record 2 fun
      | 0 => .scalar (.int 8 true)
      | _ => .array 2 (.scalar (.int 8 true))))
    | 2 => .array 2 (.scalar (.int 8 true))
    | _ => .scalar (.int 8 true)
  isConst x := x == 3
  init
    | 1 => .refer (.field (.index (.index (.var 0) (.lit 1)) (.lit 0)) 0)
    | 2 => .refer (.field (.index (.index (.var 0) (.input 0)) (.lit 0)) 1)
    | 3 => .values [.lit 1]
    | _ => .none
  constValue x := if x = 3 then some 1 else none

/-- The constant is an index, and the array written through the last reference is forgotten. -/
def recordSteps : List Op :=
  [.declare 0 0, .declare 0 1, .write (.var 1) (.lit 300), .declare 0 3, .init 3 0,
    .write (.index (.field (.index (.index (.var 0) (.read (.var 3))) (.lit 0)) 1) (.lit 0))
      (.lit 6),
    .declare 1 2, .write (.index (.var 2) (.lit 0)) (.lit 4), .leave 0]

theorem run_valuesSound_records :
    ∃ r, run recordProgram 2 (State.NoStaleConst recordProgram 2) (chosen 1 recordSteps)
      (.empty, .empty) = some r ∧ r.1.ValuesSound recordProgram 2 r.2 ∧
      r.2.mem ⟨0, [1, 0, 0]⟩ = 44 := by
  let l : LExpr := .field (.index (.index (.var 0) (.lit 1)) (.lit 0)) 0
  let choice : Choice := ⟨fun _ => 1, fun _ => 1⟩
  have hplace : (run recordProgram 2 (State.NoStaleConst recordProgram 2) (chosen 1 recordSteps)
      (.empty, .empty)).map (fun r => r.2.place recordProgram choice l) =
      some (some ⟨0, [1, 0, 0]⟩) := by decide +kernel
  have hvalue : (run recordProgram 2 (State.NoStaleConst recordProgram 2) (chosen 1 recordSteps)
      (.empty, .empty)).map (fun r => (State.getValue recordProgram.decl r.1
        (State.evalL recordProgram (State.declValue recordProgram r.1 2) r.1 l) true
        .amNoValue).1) = some (.integer 44) := by decide +kernel
  obtain ⟨r, hr, hplace⟩ := Option.map_eq_some_iff.mp hplace
  rw [hr] at hvalue
  have hsound := run_valuesSound (.of_run .start hr)
  refine ⟨r, hr, hsound, ?_⟩
  refine hsound choice l ⟨0, [1, 0, 0]⟩ 44 ?_ hplace (Option.some.inj hvalue)
  simp [l, LExpr.reads, RExpr.reads]

/-- `int a[3] = {1, 2, 3}; int x = in; const int k = x;` -/
def constProgram : Program where
  type x := if x = 0 then .array 3 (.scalar (.int 32 false)) else .scalar (.int 32 false)
  isConst x := x == 2
  init
    | 0 => .values [.lit 1, .lit 2, .lit 3]
    | 1 => .values [.input 0]
    | _ => .values [.read (.var 1)]
  constValue _ := none

/-- Then `x = 2; a[k] = 7;`. -/
def constSteps : List Op :=
  [.declare 0 0, .init 0 0, .init 0 1, .init 0 2, .declare 0 1, .init 1 0, .declare 0 2,
    .init 2 0, .write (.var 1) (.lit 2), .write (.index (.var 0) (.read (.var 2))) (.lit 7)]

/-- With zero for the input the store has `a[0] = 7`, the state keeps one there. -/
theorem run_not_valuesSound :
    ∃ r, run constProgram 2 (fun _ _ _ => True) (chosen 0 constSteps) (.empty, .empty) = some r ∧
      Run constProgram 2 (fun _ _ _ => True) r.1 r.2 ∧ ¬r.1.ValuesSound constProgram 2 r.2 := by
  let l : LExpr := .index (.var 0) (.lit 0)
  let choice : Choice := ⟨fun _ => 0, fun _ => 0⟩
  have hplace : (run constProgram 2 (fun _ _ _ => True) (chosen 0 constSteps)
      (.empty, .empty)).map (fun r => r.2.place constProgram choice l) =
      some (some ⟨0, [0]⟩) := by decide +kernel
  have hvalue : (run constProgram 2 (fun _ _ _ => True) (chosen 0 constSteps)
      (.empty, .empty)).map (fun r => (State.getValue constProgram.decl r.1
        (State.evalL constProgram (State.declValue constProgram r.1 2) r.1 l) true
        .amNoValue).1) = some (.integer 1) := by decide +kernel
  have hmem : (run constProgram 2 (fun _ _ _ => True) (chosen 0 constSteps)
      (.empty, .empty)).map (fun r => r.2.mem ⟨0, [0]⟩) = some 7 := by decide +kernel
  obtain ⟨r, hr, hplace⟩ := Option.map_eq_some_iff.mp hplace
  rw [hr] at hvalue hmem
  refine ⟨r, hr, .of_run .start hr, fun hsound => ?_⟩
  have hone := hsound choice l ⟨0, [0]⟩ 1 (by simp [l, LExpr.reads, RExpr.reads]) hplace
    (Option.some.inj hvalue)
  have hseven : r.2.mem ⟨0, [0]⟩ = 7 := Option.some.inj hmem
  rw [hseven] at hone
  cases hone

end SystemcCompiler.StateValues
