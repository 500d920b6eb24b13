import SystemcCompiler.Library.Ring
import SystemcCompiler.Library.Sva

/-! `sct_property`, the monitor of a temporal assertion, beside the SVA property the
tool writes for the same arguments. -/
namespace SystemcCompiler.Property

/-- What is checked of the consequent expression. -/
inductive StableType where
  | stNone
  | stStable
  | stRose
  | stFell
  deriving DecidableEq

/-- The implication with its delay. -/
inductive SvaTime where
  | overlapped
  | nonOverlapped
  | after (time : Nat)
  | within (lotime hitime : Nat)
  deriving DecidableEq

def SvaTime.text : SvaTime → String
  | .overlapped => "|->"
  | .nonOverlapped => "|=>"
  | .after time => "|-> ##" ++ toString time
  | .within lotime hitime => "|-> ##[" ++ toString lotime ++ ":" ++ toString hitime ++ "]"

/-- The times in order. -/
def ordered (lotime hitime : Nat) : Nat × Nat :=
  if lotime > hitime then (hitime, lotime) else (lotime, hitime)

/-- A failed `assert` gives `none`. -/
def parseSvaTime (lotime hitime : Nat) (stable : StableType) : Option SvaTime :=
  let (lo, hi) := ordered lotime hitime
  if lo ≠ hi then
    match stable with
    | .stNone => some (.within lo hi)
    | .stStable => if lo < 2 then some (if lo = 0 then .overlapped else .nonOverlapped) else none
    | .stRose | .stFell => none
  else if lo = 0 then some .overlapped
  else if lo = 1 then some .nonOverlapped
  else if stable = .stNone then some (.after lo) else none

/-- The property, with the number of a repetition or zero without one. -/
structure TemporalAssert where
  event : String
  lhs : String
  time : SvaTime
  stable : StableType
  rhs : String
  repetition : Nat
  deriving DecidableEq

def TemporalAssert.text (a : TemporalAssert) : String :=
  "@(" ++ a.event ++ ") " ++ a.lhs ++ " " ++ a.time.text ++ " " ++
    match a.stable with
    | .stNone => a.rhs
    | .stStable =>
      "$stable(" ++ a.rhs ++ ")" ++
        if a.repetition = 0 then "" else "[*" ++ toString a.repetition ++ "]"
    | .stRose => "$rose(" ++ a.rhs ++ ")"
    | .stFell => "$fell(" ++ a.rhs ++ ")"

def putTemporalAssert (lhs rhs : String) (time : SvaTime) (event : String)
    (stable : StableType) (timeInt : Nat) : TemporalAssert where
  event
  lhs
  time
  stable
  rhs
  repetition := if stable = .stStable ∧ timeInt > 0 then timeInt + 1 else 0

def parseSvaDecl (lhs rhs event : String) (fval sval : Nat) (stable : StableType) :
    Option TemporalAssert :=
  (parseSvaTime fval sval stable).map fun time =>
    putTemporalAssert lhs rhs time event stable (Int.natAbs ((sval : Int) - fval))

/-- The sampled value at the tick before, `before` at the first one. -/
def past (before : Int) (r : Nat → Int) : Nat → Int
  | 0 => before
  | t + 1 => r t

def lsb (x : Int) : Bool := x % 2 == 1

/-- The consequent expression at a tick. `$rose` and `$fell` look at the lowest bit. -/
def consequentAt (stable : StableType) (before : Int) (r : Nat → Int) (t : Nat) : Bool :=
  match stable with
  | .stNone => r t != 0
  | .stStable => r t == past before r t
  | .stRose => lsb (r t) && !lsb (past before r t)
  | .stFell => !lsb (r t) && lsb (past before r t)

/-- What the property says of the values its expressions have. -/
def TemporalAssert.implication (a : TemporalAssert) (before : Int) (l : Nat → Bool)
    (r : Nat → Int) : Sva.Implication :=
  let expr : Sva.Sequence := .expr (consequentAt a.stable before r)
  let repeated := if a.repetition = 0 then expr else .repetition a.repetition expr
  { antecedent := l
    overlapped := a.time ≠ .nonOverlapped
    consequent :=
      match a.time with
      | .overlapped | .nonOverlapped => repeated
      | .after time => .delay time time repeated
      | .within lotime hitime => .delay lotime hitime repeated }

/-- The fields of the monitor; the vectors by their elements. -/
structure Monitor (RT : Type) where
  pastSize : Nat
  timeInt : Nat
  leftPast : Nat → Bool
  rightPast : Nat → RT
  lindx : Nat
  rindx : Nat

/-- A failed `assert` gives `none`. -/
def init (RT : Type) [Inhabited RT] (stable : StableType) (loTime hiTime : Nat) :
    Option (Monitor RT) :=
  let (lo, hi) := ordered loTime hiTime
  if stable ≠ .stNone ∧ ¬((stable = .stStable ∨ hi - lo = 0) ∧ (lo = 0 ∨ lo = 1)) then none
  else
    some
      { pastSize := hi
        timeInt := hi - lo
        leftPast := fun _ => false
        rightPast := fun _ => default
        lindx := 0
        rindx := 0 }

namespace Monitor

/-- The stored antecedent, or the current one for single time zero. -/
def lcond {RT : Type} (m : Monitor RT) (lexpr : Bool) : Bool :=
  if m.pastSize ≠ 0 then m.leftPast m.lindx else lexpr

def check (m : Monitor Bool) (lexpr rexpr : Bool) : Bool × Monitor Bool :=
  let rcond := rexpr || (List.range m.timeInt).any m.rightPast
  (m.lcond lexpr && !rcond,
   { m with
     leftPast := if m.pastSize ≠ 0 then Function.update m.leftPast m.lindx lexpr else m.leftPast
     lindx := if m.pastSize ≠ 0 then (m.lindx + 1) % m.pastSize else m.lindx
     rightPast :=
      if m.timeInt ≠ 0 then Function.update m.rightPast m.rindx rexpr else m.rightPast
     rindx := if m.timeInt ≠ 0 then (m.rindx + 1) % m.timeInt else m.rindx })

/-- The comparison with the value of the cycle before. -/
def compare (stable : StableType) (rexpr last : Int) : Bool :=
  match stable with
  | .stNone | .stFell => rexpr < last
  | .stStable => rexpr == last
  | .stRose => rexpr > last

/-- `check` for stable, rose and fell. -/
def checkStable (stable : StableType) (m : Monitor Int) (lexpr : Bool) (rexpr : Int) :
    Bool × Monitor Int :=
  let rcond := compare stable rexpr (m.rightPast 0) &&
    (List.range m.timeInt).all fun i => rexpr == m.rightPast (i + 1)
  (m.lcond lexpr && !rcond,
   { m with
     leftPast := if m.pastSize ≠ 0 then Function.update m.leftPast m.lindx lexpr else m.leftPast
     lindx := if m.pastSize > 1 then (m.lindx + 1) % m.pastSize else m.lindx
     rightPast := Function.update m.rightPast m.rindx rexpr
     rindx := if m.timeInt ≠ 0 then (m.rindx + 1) % (m.timeInt + 1) else m.rindx })

/-- The monitor before cycle `t`. -/
def before {RT : Type} (check : Monitor RT → Bool → RT → Bool × Monitor RT) (m : Monitor RT)
    (l : Nat → Bool) (r : Nat → RT) : Nat → Monitor RT
  | 0 => m
  | t + 1 => (check (before check m l r t) (l t) (r t)).2

end Monitor

/-- A violation is reported at cycle `t`; `none` when the assertion is refused. -/
def reported (stable : StableType) (lo hi : Nat) (l : Nat → Bool) (r : Nat → Int) (t : Nat) :
    Option Bool :=
  if stable = .stNone then
    (init Bool stable lo hi).map fun m =>
      ((m.before Monitor.check l (fun t => r t != 0) t).check (l t) (r t != 0)).1
  else
    (init Int stable lo hi).map fun m =>
      ((m.before (Monitor.checkStable stable) l r t).checkStable stable (l t) (r t)).1

namespace Monitor

/-- Before cycle `t` the rings hold the last antecedents and the last `size` consequents. -/
structure Past {RT : Type} [Inhabited RT] (m : Monitor RT) (size : Nat) (l : Nat → Bool)
    (r : Nat → RT) (t : Nat) : Prop where
  left : m.pastSize ≠ 0 →
    m.lindx = t % m.pastSize ∧ m.leftPast = Ring.history m.pastSize false l t
  right : size ≠ 0 → m.rindx = t % size ∧ m.rightPast = Ring.history size default r t

theorem Past.lcond_eq {RT : Type} [Inhabited RT] {m : Monitor RT} {size : Nat} {l : Nat → Bool}
    {r : Nat → RT} {t : Nat} (h : m.Past size l r t) :
    m.lcond (l t) = true ↔ m.pastSize ≤ t ∧ l (t - m.pastSize) = true := by
  unfold lcond
  split
  · rename_i hsize
    obtain ⟨hindx, hpast⟩ := h.left hsize
    rw [hindx, hpast, Ring.history_oldest (Nat.pos_of_ne_zero hsize)]
    split
    · simp [*]
    · simp [*]
  · rename_i hsize
    simp only [ne_eq, not_not] at hsize
    simp [hsize]

theorem Past.check_step {m : Monitor Bool} {l r : Nat → Bool} {t : Nat}
    (h : m.Past m.timeInt l r t) :
    (m.check (l t) (r t)).2.Past m.timeInt l r (t + 1) := by
  refine ⟨fun hsize => ?_, fun hsize => ?_⟩
  · change m.pastSize ≠ 0 at hsize
    obtain ⟨hindx, hpast⟩ := h.left hsize
    simp [check, hsize, hindx, hpast, Ring.history]
  · obtain ⟨hindx, hpast⟩ := h.right hsize
    simp [check, hsize, hindx, hpast, Ring.history]

theorem Past.checkStable_step {stable : StableType} {m : Monitor Int} {l : Nat → Bool}
    {r : Nat → Int} {t : Nat} (h : m.Past (m.timeInt + 1) l r t) :
    (m.checkStable stable (l t) (r t)).2.Past (m.timeInt + 1) l r (t + 1) := by
  refine ⟨fun hsize => ?_, fun hsize => ?_⟩
  · change m.pastSize ≠ 0 at hsize
    obtain ⟨hindx, hpast⟩ := h.left hsize
    -- with one stored value the index stays at zero
    refine ⟨?_, by simp [checkStable, hsize, hindx, hpast, Ring.history]⟩
    simp only [checkStable]
    split
    · rw [hindx, Nat.mod_add_mod]
    · rename_i hone
      obtain hone : m.pastSize = 1 := by omega
      rw [hindx, hone, Nat.mod_one, Nat.mod_one]
  · obtain ⟨hindx, hpast⟩ := h.right hsize
    refine ⟨?_, by simp [checkStable, hindx, hpast, Ring.history]⟩
    simp only [checkStable]
    split
    · rw [hindx, Nat.mod_add_mod]
    · rename_i hone
      simp only [ne_eq, not_not] at hone
      rw [hindx, hone, Nat.zero_add, Nat.mod_one, Nat.mod_one]

end Monitor

theorem ordered_of_le {lo hi : Nat} (h : lo ≤ hi) : ordered lo hi = (lo, hi) := by
  simp [ordered, Nat.not_lt.2 h]

theorem init_spec {RT : Type} [Inhabited RT] {stable : StableType} {lo hi : Nat} (h : lo ≤ hi)
    {m : Monitor RT} (hm : init RT stable lo hi = some m) :
    m.pastSize = hi ∧ m.timeInt = hi - lo ∧ ∀ size l r, m.Past size l r 0 := by
  simp only [init, ordered_of_le h] at hm
  split at hm
  · cases hm
  · cases hm
    refine ⟨rfl, rfl, fun size l r => ⟨fun _ => ⟨?_, rfl⟩, fun _ => ⟨?_, rfl⟩⟩⟩
    · exact (Nat.zero_mod _).symm
    · exact (Nat.zero_mod _).symm

/-- The monitor and the tool refuse the same times. -/
theorem init_isSome {RT : Type} [Inhabited RT] (stable : StableType) {lo hi : Nat}
    (h : lo ≤ hi) :
    (init RT stable lo hi).isSome = (parseSvaTime lo hi stable).isSome := by
  simp only [init, parseSvaTime, ordered_of_le h]
  cases stable <;> grind

/-- What the property demands of the consequent after an antecedent at tick `s`. -/
def Demanded (stable : StableType) (lo hi : Nat) (value : Nat → Bool) (s : Nat) : Prop :=
  if stable = .stNone then ∃ k, lo ≤ k ∧ k ≤ hi ∧ value (s + k) = true
  else ∀ k, k ≤ hi - lo → value (s + lo + k) = true

theorem demanded_one (stable : StableType) (lo : Nat) (value : Nat → Bool) (s : Nat) :
    Demanded stable lo lo value s ↔ value (s + lo) = true := by
  unfold Demanded
  split
  · constructor
    · rintro ⟨k, hlo, hhi, hv⟩
      obtain rfl : k = lo := by omega
      exact hv
    · intro hv
      exact ⟨lo, Nat.le_refl _, Nat.le_refl _, hv⟩
  · constructor
    · intro hall
      exact hall 0 (Nat.zero_le _)
    · intro hv k hk
      obtain rfl : k = 0 := by omega
      exact hv

theorem fails_iff_not_demanded {lhs rhs event : String} {stable : StableType} {lo hi : Nat}
    (h : lo ≤ hi) {a : TemporalAssert}
    (ha : parseSvaDecl lhs rhs event lo hi stable = some a) (before : Int) (l : Nat → Bool)
    (r : Nat → Int) (s : Nat) :
    (a.implication before l r).Fails s ↔
      l s = true ∧ ¬ Demanded stable lo hi (consequentAt stable before r) s := by
  rw [Sva.Implication.fails_iff]
  have hint : Int.natAbs ((hi : Int) - lo) = hi - lo := by omega
  simp only [parseSvaDecl, parseSvaTime, ordered_of_le h, hint, Option.map_eq_some_iff] at ha
  obtain ⟨time, htime, rfl⟩ := ha
  by_cases heq : lo = hi
  · subst heq
    -- one tick: `|->`, `|=>` or a delay, and no repetition
    simp only [ne_eq, not_true_eq_false, if_false] at htime
    rw [demanded_one]
    split at htime
    · rename_i hzero
      cases htime
      simp [TemporalAssert.implication, putTemporalAssert, Sva.Implication.start, hzero]
    · split at htime
      · rename_i hone
        cases htime
        simp [TemporalAssert.implication, putTemporalAssert, Sva.Implication.start, hone]
      · split at htime
        · cases htime
          have hdelay : (∃ k, lo ≤ k ∧ k ≤ lo ∧ consequentAt stable before r (s + k) = true) ↔
              consequentAt stable before r (s + lo) = true := by
            constructor
            · rintro ⟨k, hlo, hhi, hv⟩
              obtain rfl : k = lo := by omega
              exact hv
            · intro hv
              exact ⟨lo, Nat.le_refl _, Nat.le_refl _, hv⟩
          simp only [TemporalAssert.implication, putTemporalAssert, Sva.Implication.start]
          simp [hdelay]
        · cases htime
  · simp only [ne_eq, heq, not_false_eq_true, if_true] at htime
    cases stable with
    | stNone =>
      cases htime
      simp [TemporalAssert.implication, putTemporalAssert, Sva.Implication.start, Demanded]
    | stStable =>
      have hpos : 0 < hi - lo := by omega
      simp only at htime
      split at htime
      · rename_i htwo
        cases htime
        rcases Nat.lt_or_ge 0 lo with hlo | hlo
        · obtain rfl : lo = 1 := by omega
          simp [TemporalAssert.implication, putTemporalAssert, Sva.Implication.start, Demanded,
            hpos]
        · obtain rfl : lo = 0 := by omega
          have hhi : hi ≠ 0 := by omega
          simp [TemporalAssert.implication, putTemporalAssert, Sva.Implication.start, Demanded,
            Nat.pos_of_ne_zero hhi]
      · cases htime
    | stRose => cases htime
    | stFell => cases htime

namespace Monitor

theorem before_check {m : Monitor Bool} {l r : Nat → Bool} (h : m.Past m.timeInt l r 0)
    (t : Nat) :
    (m.before check l r t).pastSize = m.pastSize ∧
      (m.before check l r t).timeInt = m.timeInt ∧
      (m.before check l r t).Past m.timeInt l r t := by
  induction t with
  | zero => exact ⟨rfl, rfl, h⟩
  | succ t ih =>
    obtain ⟨hpast, htime, hstate⟩ := ih
    refine ⟨hpast, htime, ?_⟩
    rw [← htime] at hstate ⊢
    exact hstate.check_step

theorem before_checkStable {stable : StableType} {m : Monitor Int} {l : Nat → Bool}
    {r : Nat → Int} (h : m.Past (m.timeInt + 1) l r 0) (t : Nat) :
    (m.before (checkStable stable) l r t).pastSize = m.pastSize ∧
      (m.before (checkStable stable) l r t).timeInt = m.timeInt ∧
      (m.before (checkStable stable) l r t).Past (m.timeInt + 1) l r t := by
  induction t with
  | zero => exact ⟨rfl, rfl, h⟩
  | succ t ih =>
    obtain ⟨hpast, htime, hstate⟩ := ih
    refine ⟨hpast, htime, ?_⟩
    rw [← htime] at hstate ⊢
    exact hstate.checkStable_step

/-- The last consequents and the current one. -/
theorem Past.any_rightPast {m : Monitor Bool} {l r : Nat → Bool} {t : Nat}
    (h : m.Past m.timeInt l r t) :
    (List.range m.timeInt).any m.rightPast = false ↔
      ∀ u < t, t ≤ u + m.timeInt → r u = false := by
  rw [List.any_eq_false]
  simp only [List.mem_range, Bool.not_eq_true]
  by_cases hsize : m.timeInt = 0
  · rw [hsize]
    constructor
    · intro _ u hu ht
      omega
    · intro _ i hi
      omega
  · rw [(h.right hsize).2]
    exact (Ring.history_forall false r t (fun y => y = false)).trans (and_iff_left fun _ => rfl)

theorem Past.all_rightPast {m : Monitor Int} {l : Nat → Bool} {r : Nat → Int} {t : Nat}
    (h : m.Past (m.timeInt + 1) l r t) (x : Int) :
    (∀ i < m.timeInt + 1, x = m.rightPast i) ↔
      (∀ u < t, t ≤ u + (m.timeInt + 1) → x = r u) ∧ (t < m.timeInt + 1 → x = 0) := by
  rw [(h.right (Nat.succ_ne_zero _)).2]
  exact Ring.history_forall 0 r t (fun y => x = y)

/-- The value of the cycle before, with one stored value. -/
theorem Past.last {m : Monitor Int} {l : Nat → Bool} {r : Nat → Int} {t : Nat}
    (h : m.Past (m.timeInt + 1) l r t) (hone : m.timeInt = 0) :
    m.rightPast 0 = past 0 r t := by
  rw [(h.right (Nat.succ_ne_zero _)).2, hone]
  have hold := Ring.history_oldest Nat.one_pos (default : Int) r t
  rw [Nat.mod_one] at hold
  rw [Nat.zero_add, hold]
  cases t with
  | zero => rfl
  | succ t => rfl

end Monitor

/-- Values that are each equal to the one before are all equal to the first one's past. -/
theorem forall_eq_past (before : Int) (r : Nat → Int) (a n : Nat) :
    (∀ k, k ≤ n → r (a + k) = past before r (a + k)) ↔
      ∀ k, k ≤ n → r (a + k) = past before r a := by
  constructor
  · intro h k
    induction k with
    | zero => exact h 0
    | succ k ih =>
      intro hk
      rw [h (k + 1) hk]
      exact ih (by omega)
  · intro h k hk
    cases k with
    | zero => exact h 0 hk
    | succ k =>
      rw [h (k + 1) hk]
      exact (h k (by omega)).symm

theorem reported_none {lo hi : Nat} (h : lo ≤ hi) (before : Int) (l : Nat → Bool)
    (r : Nat → Int) (t : Nat) :
    reported .stNone lo hi l r t = some true ↔ hi ≤ t ∧ l (t - hi) = true ∧
      ¬ Demanded .stNone lo hi (consequentAt .stNone before r) (t - hi) := by
  have hsome : (init Bool .stNone lo hi).isSome = true := by simp [init]
  obtain ⟨m, hm⟩ := Option.isSome_iff_exists.1 hsome
  obtain ⟨hpast, htime, hzero⟩ := init_spec h hm
  obtain ⟨hpast', htime', hstate⟩ :=
    Monitor.before_check (hzero m.timeInt l (fun t => r t != 0)) t
  rw [← htime'] at hstate
  have hleft := hstate.lcond_eq
  have hright := hstate.any_rightPast
  rw [hpast', hpast] at hleft
  rw [htime', htime] at hright
  simp only [reported, if_true, hm, Option.map_some, Option.some.injEq, Monitor.check, htime',
    htime, Bool.and_eq_true, hleft, Bool.not_eq_true', Bool.or_eq_false_iff, hright,
    Demanded, consequentAt, not_exists, not_and, Bool.not_eq_true, and_assoc]
  refine and_congr_right fun hle => and_congr_right fun _ => ?_
  constructor
  · rintro ⟨hnow, hlast⟩ k hlo hhi
    rcases Nat.lt_or_ge k hi with hk | hk
    · exact hlast _ (by omega) (by omega)
    · rw [show t - hi + k = t by omega]
      exact hnow
  · intro hall
    refine ⟨?_, fun u hu ht => ?_⟩
    · have := hall hi h (Nat.le_refl hi)
      rwa [show t - hi + hi = t by omega] at this
    · have := hall (u - (t - hi)) (by omega) (by omega)
      rwa [show t - hi + (u - (t - hi)) = u by omega] at this

/-- A check of stable, rose or fell, by what is compared. -/
theorem reported_compare {stable : StableType} (hkind : stable ≠ .stNone) {lo hi : Nat}
    (h : lo ≤ hi) {m : Monitor Int} (hm : init Int stable lo hi = some m) (l : Nat → Bool)
    (r : Nat → Int) (t : Nat) :
    ∃ rightPast : Nat → Int,
      (reported stable lo hi l r t = some true ↔ hi ≤ t ∧ l (t - hi) = true ∧
        ¬ (Monitor.compare stable (r t) (rightPast 0) = true ∧
          ∀ i < hi - lo, r t = rightPast (i + 1))) ∧
      ((∀ i < hi - lo + 1, r t = rightPast i) ↔
        (∀ u < t, t ≤ u + (hi - lo + 1) → r t = r u) ∧ (t < hi - lo + 1 → r t = 0)) ∧
      (hi - lo = 0 → rightPast 0 = past 0 r t) := by
  obtain ⟨hpast, htime, hzero⟩ := init_spec h hm
  obtain ⟨hpast', htime', hstate⟩ :=
    @Monitor.before_checkStable stable m l r (hzero (m.timeInt + 1) l r) t
  rw [← htime'] at hstate
  have hleft := hstate.lcond_eq
  have hright := hstate.all_rightPast (r t)
  have hlast := hstate.last
  rw [hpast', hpast] at hleft
  rw [htime', htime] at hright hlast
  refine ⟨_, ?_, hright, hlast⟩
  simp only [reported, if_neg hkind, hm, Option.map_some, Option.some.injEq, Monitor.checkStable,
    htime', htime, Bool.and_eq_true, hleft, Bool.not_eq_true', and_assoc]
  refine and_congr_right fun _ => and_congr_right fun _ => ?_
  rw [← Bool.not_eq_true, Bool.and_eq_true, List.all_eq_true]
  simp only [List.mem_range, beq_iff_eq]

theorem past_eq {before : Int} {r : Nat → Int} {t : Nat} (h : before = 0 ∨ 0 < t) :
    past before r t = past 0 r t := by
  cases t with
  | zero => simpa [past] using h
  | succ t => rfl

theorem compare_rose {x last : Int} (hx : x = 0 ∨ x = 1) (hlast : last = 0 ∨ last = 1) :
    Monitor.compare .stRose x last = (lsb x && !lsb last) := by
  rcases hx with rfl | rfl <;> rcases hlast with rfl | rfl <;> rfl

theorem compare_fell {x last : Int} (hx : x = 0 ∨ x = 1) (hlast : last = 0 ∨ last = 1) :
    Monitor.compare .stFell x last = (!lsb x && lsb last) := by
  rcases hx with rfl | rfl <;> rcases hlast with rfl | rfl <;> rfl

theorem past_boolean {r : Nat → Int} (hbool : ∀ t, r t = 0 ∨ r t = 1) (t : Nat) :
    past 0 r t = 0 ∨ past 0 r t = 1 := by
  cases t with
  | zero => exact Or.inl rfl
  | succ t => exact hbool t

/-- The values that the monitor compares for stable are those of `$stable` in the window. -/
theorem stable_window {lo hi : Nat} (h : lo ≤ hi) (hlo : lo < 2) {before : Int} {r : Nat → Int}
    {t : Nat} (hle : hi ≤ t) (hbefore : before = 0 ∨ 0 < t - hi + lo) :
    ((∀ u < t, t ≤ u + (hi - lo + 1) → r t = r u) ∧ (t < hi - lo + 1 → r t = 0)) ↔
      ∀ k, k ≤ hi - lo → r (t - hi + lo + k) = past before r (t - hi + lo + k) := by
  rw [forall_eq_past, past_eq hbefore]
  have hend : t - hi + lo + (hi - lo) = t := by omega
  constructor
  · rintro ⟨hall, hinit⟩ k hk
    -- both sides are the current value
    have hk' : r t = r (t - hi + lo + k) := by
      rcases Nat.lt_or_ge (t - hi + lo + k) t with hlt | hge
      · exact hall _ hlt (by omega)
      · rw [show t - hi + lo + k = t by omega]
    rw [← hk']
    cases hstart : t - hi + lo with
    | zero => exact hinit (by omega)
    | succ n => exact hall n (by omega) (by omega)
  · intro hall
    have hnow : r t = past 0 r (t - hi + lo) := by
      have := hall (hi - lo) (Nat.le_refl _)
      rwa [hend] at this
    refine ⟨fun u hu ht => ?_, fun ht => ?_⟩
    · rcases Nat.lt_or_ge u (t - hi + lo) with hlt | hge
      · rw [hnow, show t - hi + lo = u + 1 by omega]
        rfl
      · have := hall (u - (t - hi + lo)) (by omega)
        rw [show t - hi + lo + (u - (t - hi + lo)) = u by omega] at this
        rw [hnow, this]
    · rw [hnow, show t - hi + lo = 0 by omega]
      rfl

theorem reported_stable {stable : StableType} (hkind : stable ≠ .stNone) {lo hi : Nat}
    (h : lo ≤ hi) {m : Monitor Int} (hm : init Int stable lo hi = some m) {before : Int}
    {l : Nat → Bool} {r : Nat → Int}
    (hbool : stable = .stRose ∨ stable = .stFell → ∀ t, r t = 0 ∨ r t = 1) {t : Nat}
    (hbefore : before = 0 ∨ 0 < t - hi + lo) :
    reported stable lo hi l r t = some true ↔ hi ≤ t ∧ l (t - hi) = true ∧
      ¬ Demanded stable lo hi (consequentAt stable before r) (t - hi) := by
  obtain ⟨rightPast, hreport, hall, hone⟩ := reported_compare hkind h hm l r t
  rw [hreport]
  refine and_congr_right fun hle => and_congr_right fun _ => not_congr ?_
  have hinit : (stable = .stStable ∨ hi - lo = 0) ∧ (lo = 0 ∨ lo = 1) := by
    simp only [init, ordered_of_le h] at hm
    split at hm
    · cases hm
    · rename_i hok
      by_contra hno
      exact hok ⟨hkind, hno⟩
  have hsingle : hi - lo = 0 →
      past before r (t - hi + lo) = past 0 r t := by
    intro hz
    rw [past_eq hbefore, show t - hi + lo = t by omega]
  cases stable with
  | stNone => exact absurd rfl hkind
  | stStable =>
    have hfirst : (Monitor.compare .stStable (r t) (rightPast 0) = true ∧
        ∀ i < hi - lo, r t = rightPast (i + 1)) ↔ ∀ i < hi - lo + 1, r t = rightPast i := by
      simp only [Monitor.compare, beq_iff_eq]
      constructor
      · rintro ⟨hzero, hrest⟩ i hi'
        cases i with
        | zero => exact hzero
        | succ i => exact hrest i (by omega)
      · intro hevery
        exact ⟨hevery 0 (by omega), fun i hi' => hevery (i + 1) (by omega)⟩
    rw [hfirst, hall, stable_window h (by omega) hle hbefore]
    simp [Demanded, consequentAt]
  | stRose =>
    have hz : hi - lo = 0 := by simpa using hinit.1
    obtain rfl : lo = hi := by omega
    rw [demanded_one, hone hz, compare_rose (hbool (Or.inl rfl) t)
      (past_boolean (hbool (Or.inl rfl)) t), consequentAt, hsingle hz,
      show t - lo + lo = t by omega]
    exact and_iff_left fun i hi' => by omega
  | stFell =>
    have hz : hi - lo = 0 := by simpa using hinit.1
    obtain rfl : lo = hi := by omega
    rw [demanded_one, hone hz, compare_fell (hbool (Or.inr rfl) t)
      (past_boolean (hbool (Or.inr rfl)) t), consequentAt, hsingle hz,
      show t - lo + lo = t by omega]
    exact and_iff_left fun i hi' => by omega

/-- A violation is reported exactly when the attempt whose window ends at `t` fails,
for attempts from the first cycle on: neither side knows a reset. Rose and fell are
of boolean values. -/
theorem reported_iff_fails {lhs rhs event : String} {stable : StableType} {lo hi : Nat}
    (h : lo ≤ hi) {a : TemporalAssert}
    (ha : parseSvaDecl lhs rhs event lo hi stable = some a) {before : Int} {l : Nat → Bool}
    {r : Nat → Int}
    (hbool : stable = .stRose ∨ stable = .stFell → ∀ t, r t = 0 ∨ r t = 1) {t : Nat}
    (hbefore : stable = .stNone ∨ before = 0 ∨ 0 < t - hi + lo) :
    reported stable lo hi l r t = some true ↔
      ∃ s, s + hi = t ∧ (a.implication before l r).Fails s := by
  have hreport : reported stable lo hi l r t = some true ↔ hi ≤ t ∧ l (t - hi) = true ∧
      ¬ Demanded stable lo hi (consequentAt stable before r) (t - hi) := by
    by_cases hkind : stable = .stNone
    · subst hkind
      exact reported_none h before l r t
    · have hsome : (init Int stable lo hi).isSome = true := by
        rw [init_isSome stable h]
        simp only [parseSvaDecl, Option.map_eq_some_iff] at ha
        obtain ⟨time, htime, -⟩ := ha
        rw [htime, Option.isSome_some]
      obtain ⟨m, hm⟩ := Option.isSome_iff_exists.1 hsome
      exact reported_stable hkind h hm hbool (hbefore.resolve_left hkind)
  rw [hreport]
  constructor
  · rintro ⟨hle, hfails⟩
    exact ⟨t - hi, by omega, (fails_iff_not_demanded h ha before l r _).2 hfails⟩
  · rintro ⟨s, rfl, hfails⟩
    rw [Nat.add_sub_cancel]
    exact ⟨Nat.le_add_left _ _, (fails_iff_not_demanded h ha before l r s).1 hfails⟩

theorem reported_iff_fails_stable :
    ∃ a, parseSvaDecl "req" "resp" "posedge clk" 1 3 .stStable = some a ∧
      a.text = "@(posedge clk) req |=> $stable(resp)[*3]" ∧
      (reported .stStable 1 3 (fun t => t == 0) (fun t => if t < 3 then 7 else 8) 3 =
        some true ↔
        ∃ s, s + 3 = 3 ∧ (a.implication 0 (fun t => t == 0)
          (fun t => if t < 3 then 7 else 8)).Fails s) :=
  ⟨_, rfl, by decide +kernel,
    reported_iff_fails (by decide) rfl (by rintro (h | h) <;> cases h) (Or.inr (Or.inl rfl))⟩

/-- A report exactly for the failing attempts that begin when the reset has ended. -/
def ReportsFrom (resetEnd : Nat) (stable : StableType) (lo hi : Nat) (before : Int)
    (l : Nat → Bool) (r : Nat → Int) : Prop :=
  ∃ a, parseSvaDecl "lexpr" "rexpr" "posedge clk" lo hi stable = some a ∧
    ∀ t, reported stable lo hi l r t = some true ↔
      ∃ s, s + hi = t ∧ resetEnd ≤ s ∧ (a.implication before l r).Fails s

/-- An attempt during reset is reported, and a rise that leaves the lowest bit at zero
is no violation. -/
theorem not_reportsFrom :
    ¬ ReportsFrom 1 .stNone 0 0 0 (fun _ => true) (fun _ => 0) ∧
    ¬ ReportsFrom 1 .stRose 0 0 0 (fun t => t == 1) (fun t => 2 * t + 2) := by
  constructor
  · rintro ⟨a, -, hall⟩
    obtain ⟨s, hs, hreset, -⟩ := (hall 0).1 rfl
    omega
  · rintro ⟨a, ha, hall⟩
    have hfails : (a.implication 0 (fun t => t == 1) (fun t => 2 * t + 2)).Fails 1 := by
      rw [fails_iff_not_demanded (Nat.le_refl 0) ha, demanded_one]
      decide
    have hreported := (hall 1).2 ⟨1, rfl, Nat.le_refl 1, hfails⟩
    exact absurd hreported (by decide)

end SystemcCompiler.Property
