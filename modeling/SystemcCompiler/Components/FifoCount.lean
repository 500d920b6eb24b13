import SystemcCompiler.Components.FifoSynth

/-! `elem_num()`, `almost_full()` and `almost_empty()` of `sct_fifo`, in simulation and
after synthesis. -/
namespace SystemcCompiler.Fifo
open Channel

variable {T : Type}

namespace Sim
variable (c : Config)

def elemNum (s : Sim T) : Nat :=
  if !c.cthreadPut && !c.cthreadGet then s.elementNumD else s.elementNum

def almostFull (s : Sim T) (n : Nat) : Bool := decide (c.length - n ≤ s.elemNum c)

def almostEmpty (s : Sim T) (n : Nat) : Bool := decide (s.elemNum c ≤ n)

end Sim

namespace Synth
variable (c : Config)

def elemNum (u : Synth T) : Nat := u.elementNumD

def almostFull (u : Synth T) (n : Nat) : Bool := decide (c.length - n ≤ u.elemNum)

def almostEmpty (u : Synth T) (n : Nat) : Bool := decide (u.elemNum ≤ n)

end Synth

/-- The calls return the same; `almost_full` and `almost_empty` assert that their
argument is at most the length. -/
def SameCounts (c : Config) (s : Sim T) (u : Synth T) : Prop :=
  s.elemNum c = u.elemNum ∧
    ∀ n ≤ c.length, s.almostFull c n = u.almostFull c n ∧ s.almostEmpty c n = u.almostEmpty n

theorem sameCounts_iff {c : Config} {s : Sim T} {u : Synth T} :
    SameCounts c s u ↔ s.elemNum c = u.elementNumD := by
  refine ⟨And.left, fun h => ⟨h, fun n _ => ?_⟩⟩
  unfold Sim.almostFull Sim.almostEmpty
  rw [h]
  exact ⟨rfl, rfl⟩

/-- The METHOD side makes no request in the cycle. -/
def Sim.methodIdle (c : Config) (s : Sim T) (calls : Calls T) : Bool :=
  (c.cthreadPut || (calls.put.stored ((s.content c).length != c.length)).isNone) &&
    (c.cthreadGet || !calls.get.taken (!(s.content c).isEmpty))

/-- Both versions hold the same number of elements, and processes in the same calls. -/
structure SameNumber (c : Config) (s : Sim T) (u : Synth T) : Prop where
  sim : s.Inv c
  count : u.elementNumD = (s.content c).length
  putWaiting : u.putWaiting = s.putWaiting
  getWaiting : u.getWaiting = s.getWaiting
  putReq : c.cthreadPut = false → s.putReq = u.putReq
  getReq : c.cthreadGet = false → s.getReq = u.getReq

section
variable [Inhabited T] {c : Config} {s : Sim T} {u : Synth T} {calls : Calls T}

/-- The requests of the synthesized FIFO are what the calls report. -/
theorem SameNumber.requests (hc : c.accepted) (h : SameNumber c s u) (hok : s.allowed c calls) :
    let v := Synth.settle c calls u
    let resumed := calls.resume s.putWaiting s.getWaiting
    v.putReq = (resumed.put.stored v.readyPush).isSome ∧
      v.getReq = resumed.get.taken v.outValid := by
  intro v resumed
  refine ⟨?_, ?_⟩
  · rw [Synth.settle_putReq (Config.not_comb_both hc), h.putWaiting]
    cases hm : c.cthreadPut with
    | true => exact PutCall.combReq_eq _ _
    | false =>
      have hput : resumed.put = calls.put := h.sim.resume_put hm calls
      rw [hput, ← h.putReq hm]
      exact PutCall.methodReq_of_drives (Sim.drives_put hok hm) _
  · rw [Synth.settle_getReq (Config.not_comb_both hc), h.getWaiting]
    cases hm : c.cthreadGet with
    | true => exact GetCall.combReq_eq _ _
    | false =>
      have hget : resumed.get = calls.get := h.sim.resume_get hm calls
      rw [hget, ← h.getReq hm]
      exact GetCall.methodReq_of_drives (Sim.drives_get hok hm) _

/-- Both versions are ready together and have a request together. -/
theorem SameNumber.signals (hc : c.accepted) (h : SameNumber c s u) (hok : s.allowed c calls) :
    let q := s.toQueue c
    let resumed := calls.resume s.putWaiting s.getWaiting
    (Synth.settle c calls u).readyPush = q.ready c resumed.get ∧
      (Synth.settle c calls u).outValid = !(q.offered c resumed).isEmpty := by
  intro q resumed
  obtain ⟨hput, hget⟩ := h.requests hc hok
  have ha : (Synth.settle c calls u).AsyncDone c := Synth.settle_asyncDone calls u
  have hnum : (Synth.settle c calls u).elementNumD = q.content.length := h.count
  have hempty : (q.content.length != 0) = !q.content.isEmpty := by
    cases q.content <;> simp
  have hready : (Synth.settle c calls u).readyPush = q.ready c resumed.get := by
    have hvalid := ha.outValid
    rw [Queue.ready, ha.readyPush, hget, hnum]
    rw [hnum, hempty] at hvalid
    cases hcomb : c.combReady with
    | false =>
      unfold Config.combReady at hcomb
      grind
    | true =>
      have hnot := (Config.not_comb_both hc).resolve_right (by simp [hcomb])
      unfold Config.combReady at hcomb
      unfold Config.combValid at hnot
      grind
  refine ⟨hready, ?_⟩
  rw [ha.outValid, hput, hready, hnum, hempty, Queue.offered]
  unfold Config.combValid
  cases c.cthreadPut <;> cases c.syncValid <;>
    cases resumed.put.stored (q.ready c resumed.get) <;> simp

omit [Inhabited T] in
private theorem toList_length (o : Option T) : o.toList.length = o.isSome.toNat := by
  cases o <;> rfl

omit [Inhabited T] in
/-- The queue of a cycle changes by what its calls report. -/
theorem Queue.step_length (q : Queue T) (calls : Calls T) :
    let resumed := calls.resume q.putWaiting q.getWaiting
    (q.step c calls).1.content.length =
      q.content.length + (resumed.put.stored (q.ready c resumed.get)).isSome.toNat -
        (resumed.get.taken (!(q.offered c resumed).isEmpty)).toNat := by
  intro resumed
  simp only [step, cycle, List.length_drop, List.length_append, toList_length]
  rfl

omit [Inhabited T] in
/-- A get takes from what is there or put in the same cycle. -/
theorem Queue.taken_le (q : Queue T) (calls : Calls T) :
    (calls.get.taken (!(q.offered c calls).isEmpty)).toNat ≤
      q.content.length + (calls.put.stored (q.ready c calls.get)).isSome.toNat := by
  have hlen := (q.offered_prefix c calls).length_le
  rw [List.length_append, toList_length] at hlen
  cases hoffered : q.offered c calls with
  | nil => simp
  | cons x rest =>
    rw [hoffered, List.length_cons] at hlen
    have := Bool.toNat_le (calls.get.taken (!(x :: rest).isEmpty))
    omega

omit [Inhabited T] in
theorem Queue.cycle_get_isSome (q : Queue T) (calls : Calls T) :
    (q.cycle c calls).2.get.isSome = calls.get.taken (!(q.offered c calls).isEmpty) := by
  simp only [cycle]
  cases q.offered c calls with
  | nil => simp
  | cons x rest =>
    rw [List.isEmpty_cons, Bool.not_false]
    cases calls.get.taken true <;> rfl

omit [Inhabited T] in
theorem Sim.Inv.putWaiting_method (h : s.Inv c) (hm : c.cthreadPut = false) :
    s.putWaiting = none := by
  cases hw : s.putWaiting with
  | none => rfl
  | some data => simp [(h.putWaiting data hw).1] at hm

omit [Inhabited T] in
theorem Sim.Inv.getWaiting_method (h : s.Inv c) (hm : c.cthreadGet = false) :
    s.getWaiting = false := by
  cases hw : s.getWaiting with
  | false => rfl
  | true => simp [h.getWaiting hw] at hm

theorem SameNumber.step (hc : c.accepted) (h : SameNumber c s u) (hok : s.allowed c calls) :
    SameNumber c ((Sim.machine T c).step s calls).1 ((Synth.machine T c).step u calls).1 := by
  obtain ⟨hinv, hqueue, hreturns⟩ := Sim.step_refines hc h.sim hok
  obtain ⟨hready, hvalid⟩ := h.signals hc hok
  obtain ⟨hput, hget⟩ := h.requests hc hok
  rw [hready] at hput
  rw [hvalid] at hget
  have hle := h.sim.content_le
  have hstored : (Synth.settle c calls u).getReq.toNat ≤
      (s.content c).length + (Synth.settle c calls u).putReq.toNat := by
    rw [hget, hput]
    exact Queue.taken_le (s.toQueue c) _
  have hnext : (Sim.content c ((Sim.machine T c).step s calls).1).length =
      (s.content c).length + (Synth.settle c calls u).putReq.toNat -
        (Synth.settle c calls u).getReq.toNat := by
    rw [hput, hget]
    exact (congrArg (·.content.length) hqueue).trans (Queue.step_length (s.toQueue c) calls)
  have hroom : (s.content c).length + (Synth.settle c calls u).putReq.toNat ≤
      c.length + (Synth.settle c calls u).getReq.toNat := by
    have := hinv.content_le
    omega
  refine ⟨hinv, ?_, ?_, ?_, ?_, ?_⟩
  · rw [hnext, ← h.count]
    rw [← h.count] at hle hroom hstored
    exact (Synth.settle_asyncDone calls u).elementNum.trans (Config.elemNum_eq hle hroom hstored)
  · cases hm : c.cthreadPut with
    | true =>
      refine Eq.trans ?_ (congrArg Queue.putWaiting hqueue).symm
      simp only [Synth.machine, Synth.edge, hm, if_true]
      rw [hready]
      exact congrArg (fun waiting => (calls.put.resume waiting).waits _) h.putWaiting
    | false =>
      rw [hinv.putWaiting_method hm]
      simp only [Synth.machine, Synth.edge, hm, Bool.false_eq_true, if_false]
      exact h.putWaiting.trans (h.sim.putWaiting_method hm)
  · cases hm : c.cthreadGet with
    | true =>
      refine Eq.trans ?_ (congrArg Queue.getWaiting hqueue).symm
      simp only [Synth.machine, Synth.edge, hm, if_true]
      rw [hvalid]
      exact congrArg (fun waiting => (calls.get.resume waiting).waits _) h.getWaiting
    | false =>
      rw [hinv.getWaiting_method hm]
      simp only [Synth.machine, Synth.edge, hm, Bool.false_eq_true, if_false]
      exact h.getWaiting.trans (h.sim.getWaiting_method hm)
  · intro hm
    rw [Sim.step_putReq hc h.sim hok hm, hreturns]
    exact hput.symm
  · intro hm
    rw [Sim.step_getReq hc h.sim hok hm, hreturns]
    refine Eq.trans ?_ hget.symm
    have hhead := Queue.cycle_get_isSome (c := c) (s.toQueue c)
      (calls.resume s.putWaiting s.getWaiting)
    exact hhead

/-- A call returns the same from both versions between two processes of one kind, and
else when the METHOD makes no request. -/
theorem SameNumber.counts_iff (hc : c.accepted) (h : SameNumber c s u)
    (hok : s.allowed c calls) :
    SameCounts c (s.settle c calls) (u.settle c calls) ↔
      c.cthreadPut = c.cthreadGet ∨ s.methodIdle c calls := by
  have ht := Sim.settle_inv h.sim calls
  have ha : (s.settle c calls).AsyncDone c := Sim.settle_asyncDone calls s
  have hd := Sim.settle_driven (Config.not_comb_both hc) h.sim hok
  have hnum := Sim.elementNum_eq ht ha hd
  have hpop := Sim.pop_stored ht ha hd
  have hstored := ht.stored
  have hcount : (u.settle c calls).elementNumD = (s.settle c calls).elementNumD +
      ((s.settle c calls).putPending c).toNat - ((s.settle c calls).getPending c).toNat := by
    rw [← Sim.content_length, Sim.settle_content]
    exact h.count
  rw [sameCounts_iff, hcount, Sim.elemNum, Sim.putPending, Sim.getPending]
  rw [Sim.getPending] at hstored
  cases hp : c.cthreadPut <;> cases hg : c.cthreadGet
  · simp
  · have hpush := hd.push hp
    have hready := Sim.readyPush_of_not_comb hc ht ha (by simp [Config.combReady, hg])
    rw [hready, Sim.settle_content, h.sim.resume_put hp] at hpush
    rw [hg, Bool.true_and] at hstored
    simp only [Sim.methodIdle, hp, hg, hnum, hpush]
    cases calls.put.stored ((s.content c).length != c.length) with
    | none => simp
    | some data =>
      simp
      omega
  · have hget := hd.pop hg
    have hvalid := Sim.outValid_of_not_comb hc ht ha (by simp [Config.combValid, hp])
    rw [hvalid, Sim.settle_content, h.sim.resume_get hg] at hget
    rw [hget] at hpop
    simp only [Sim.methodIdle, hp, hg, hnum, hget]
    cases htaken : calls.get.taken (!(s.content c).isEmpty) <;> simp [htaken] at hpop ⊢
    omega
  · simp [hnum]

theorem reset_sameNumber (s : Sim T) (u : Synth T) : SameNumber c (s.reset c) (u.reset c) where
  sim := Sim.reset_inv s
  count := by
    have hcontent := congrArg (·.content.length) (Sim.reset_toQueue (c := c) s)
    exact hcontent.symm
  putWaiting := rfl
  getWaiting := rfl
  putReq _ := rfl
  getReq _ := rfl

theorem run_sameNumber (hc : c.accepted) (h : SameNumber c s u) {run : List (Calls T)}
    (hok : (Sim.machine T c).EveryStep (fun s calls => s.allowed c calls) s run) :
    SameNumber c ((Sim.machine T c).run s run) ((Synth.machine T c).run u run) := by
  induction run generalizing s u with
  | nil => exact h
  | cons calls run ih => exact ih (h.step hc hok.1) hok.2

end
end SystemcCompiler.Fifo
