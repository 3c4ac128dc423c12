import Xv6Rcu.Proc.ListProc

/-!
# The nesting of interrupts in `scheduler`

One iteration of the outer loop of `scheduler`, with the calls that change `noff`. What the loop
reads of the nodes is an input: the process that ran may have changed the list, so the nodes are
any sequence of states and pids. A process comes back from `swtch` with the `noff` that it was
switched to with, and with any interrupt flags.

- `Scheduler.Balanced`: the iteration ends with `noff = 0`, no `pop_off` panics, and the loop
  advances with `noff = 1`.
- `excess`: the nodes that are visited with `scheduled = 1` and are not `RUNNABLE`. Each of them
  costs one `rcu_read_lock` (`visit_asleep`), and `noff` ends as their number (`iteration_excess`).
- `scheduler_balanced`: the iteration is balanced iff, on CPU 0, no node that is not `RUNNABLE` is
  visited behind one that is.
-/

namespace Xv6.Scheduler

open Lib List
open ListProc (Cpu)

/-! ## The program -/

/-- What is read of a node, and how `swtch` returns. -/
structure Visit where
  state : ProcState
  pid : Int
  /-- `list_update_rcu` finds the process. -/
  found : Bool := true
  intena : Bool := false
  intr : Bool := false

structure State where
  cpu : Cpu := {}
  /-- `noff` at each evaluation of `tmp_node_ptr->next`. -/
  reads : List Nat := []

abbrev SchedM := EStateM String State

def pushOff : SchedM Unit := modify fun s => { s with cpu := s.cpu.push }

def popOff : SchedM Unit := do
  let s ← get
  if s.cpu.intr then throw "pop_off - interruptible"
  else if s.cpu.noff < 1 then throw "pop_off"
  else set { s with cpu := s.cpu.pop }

def rcuReadLock : SchedM Unit := pushOff

def rcuReadUnlock : SchedM Unit := popOff

/-- `acquire` and `rcu_read_lock`, and their ends. -/
def listUpdateRcu : SchedM Unit := do
  pushOff
  rcuReadLock
  rcuReadUnlock
  popOff

/-- `acquire` and `release` of the writers lock. -/
def synchronizeRcu : SchedM Unit := do
  pushOff
  popOff

def swtch (v : Visit) : SchedM Unit :=
  modify fun s => { s with cpu := { noff := s.cpu.noff, intena := v.intena, intr := v.intr } }

def intrOn : SchedM Unit := modify fun s => { s with cpu := { s.cpu with intr := true } }

/-- `tmp_node_ptr->next`. -/
def advance : SchedM Unit := modify fun s => { s with reads := s.cpu.noff :: s.reads }

/-- The body of the loop: `scheduled`, and whether the loop ends with a `break`. -/
def visit (c : CpuId) (scheduled : Bool) (v : Visit) : SchedM (Bool × Bool) :=
  if c ≠ 0 then return (scheduled, false)
  else if v.state = .runnable then
    if v.pid = 1 then do
      rcuReadUnlock
      listUpdateRcu
      if v.found then
        swtch v
        synchronizeRcu
        rcuReadLock
        return (true, true)
      else throw "[LOG SCHEDULER] list_update_rcu failed \n"
    else do
      rcuReadUnlock
      listUpdateRcu
      swtch v
      synchronizeRcu
      -- `scheduled` is set: no `rcu_read_unlock`
      rcuReadLock
      return (true, false)
  else if scheduled then do
    rcuReadLock
    return (true, false)
  else do
    rcuReadUnlock
    rcuReadLock
    return (false, false)

/-- The loop over the nodes. -/
def pass (c : CpuId) : Bool → List Visit → SchedM Unit
  | _, [] => return
  | scheduled, v :: vs => do
    match ← visit c scheduled v with
    | (_, true) => return
    | (scheduled', false) =>
      advance
      pass c scheduled' vs

def iteration (c : CpuId) (vs : List Visit) : SchedM Unit := do
  intrOn
  rcuReadLock
  pass c false vs
  rcuReadUnlock

/-- The iteration from `noff = 0` is balanced. -/
def Balanced (c : CpuId) (vs : List Visit) (κ : Cpu) : Prop :=
  ∃ s', iteration c vs { cpu := κ } = .ok () s' ∧ s'.cpu.noff = 0 ∧ ∀ n ∈ s'.reads, n = 1

/-! ## Sections -/

section Steps
variable {κ : Cpu} {r : List Nat} {c : CpuId} {v : Visit} {scheduled : Bool}

theorem pushOff_on : pushOff ⟨κ, r⟩ = .ok () ⟨κ.push, r⟩ := rfl

theorem popOff_on : popOff ⟨κ.push, r⟩ = .ok () ⟨κ.rest, r⟩ := by
  rfl

theorem synchronizeRcu_on : synchronizeRcu ⟨κ, r⟩ = .ok () ⟨κ.rest, r⟩ :=
  (bind_of_ok pushOff_on).trans popOff_on

theorem listUpdateRcu_on : listUpdateRcu ⟨κ, r⟩ = .ok () ⟨κ.rest, r⟩ := by
  have hinner : rcuReadUnlock ⟨κ.push.push, r⟩ = .ok () ⟨κ.push, r⟩ := by
    refine popOff_on.trans ?_
    rw [Cpu.rest, Cpu.push_push_pop]
  refine (bind_of_ok pushOff_on).trans ((bind_of_ok pushOff_on).trans ?_)
  exact (bind_of_ok hinner).trans popOff_on

/-- The CPU behind `swtch`. -/
def Visit.back (v : Visit) (κ : Cpu) : Cpu := ⟨κ.noff, v.intena, v.intr⟩

theorem swtch_on : swtch v ⟨κ, r⟩ = .ok () ⟨v.back κ, r⟩ := rfl

/-- A process other than init runs: the depth is as before. -/
theorem visit_runs (hr : v.state = .runnable) (hp : v.pid ≠ 1) :
    visit 0 scheduled v ⟨κ.push, r⟩ = .ok (true, false) ⟨(v.back κ).push, r⟩ := by
  refine (congrFun ((if_neg (by simp)).trans ((if_pos hr).trans (if_neg hp))) _).trans ?_
  refine (bind_of_ok popOff_on).trans ((bind_of_ok listUpdateRcu_on).trans ?_)
  refine (bind_of_ok swtch_on).trans ((bind_of_ok synchronizeRcu_on).trans ?_)
  refine (bind_of_ok pushOff_on).trans ?_
  rw [Cpu.rest_push]
  rfl

/-- Init runs, and the loop ends. -/
theorem visit_init (hr : v.state = .runnable) (hp : v.pid = 1) (hf : v.found = true) :
    visit 0 scheduled v ⟨κ.push, r⟩ = .ok (true, true) ⟨(v.back κ).push, r⟩ := by
  refine (congrFun ((if_neg (by simp)).trans ((if_pos hr).trans (if_pos hp))) _).trans ?_
  refine (congrFun (if_pos hf) _).trans ?_
  refine (bind_of_ok swtch_on).trans ((bind_of_ok synchronizeRcu_on).trans ?_)
  refine (bind_of_ok pushOff_on).trans ?_
  rw [Cpu.rest_push]
  rfl

theorem visit_init_lost (hr : v.state = .runnable) (hp : v.pid = 1) (hf : v.found = false) :
    Stops (visit 0 scheduled v) ⟨κ.push, r⟩ := by
  refine ⟨"[LOG SCHEDULER] list_update_rcu failed \n", ⟨κ.rest.rest, r⟩, ?_⟩
  refine (congrFun ((if_neg (by simp)).trans ((if_pos hr).trans (if_pos hp))) _).trans ?_
  exact congrFun (if_neg (by simp [hf])) _

/-- Nothing has run yet: the section is left and entered again. -/
theorem visit_skips (hr : v.state ≠ .runnable) :
    visit 0 false v ⟨κ.push, r⟩ = .ok (false, false) ⟨κ.push, r⟩ := by
  refine (congrFun ((if_neg (by simp)).trans ((if_neg hr).trans (if_neg (by simp)))) _).trans ?_
  refine (bind_of_ok popOff_on).trans ((bind_of_ok pushOff_on).trans ?_)
  rw [Cpu.rest_push]
  rfl

/-- Something has run: the section is entered once more. -/
theorem visit_asleep (hr : v.state ≠ .runnable) :
    visit 0 true v ⟨κ.push, r⟩ = .ok (true, false) ⟨κ.push.push, r⟩ := by
  refine (congrFun ((if_neg (by simp)).trans ((if_neg hr).trans (if_pos rfl))) _).trans ?_
  exact (bind_of_ok pushOff_on).trans rfl

theorem visit_other {s : State} (hc : c ≠ 0) :
    visit c scheduled v s = .ok (scheduled, false) s := congrFun (if_pos hc) s

end Steps

/-! ## The loop -/

/-- The nodes that are visited with `scheduled` set and are not `RUNNABLE`. -/
def excess : Bool → List Visit → Nat
  | _, [] => 0
  | scheduled, v :: vs =>
    if v.state = .runnable then if v.pid = 1 then 0 else excess true vs
    else (if scheduled then 1 else 0) + excess scheduled vs

/-- The nodes that the loop visits: it ends behind init, if that is `RUNNABLE`. -/
def visited : List Visit → List Visit
  | [] => []
  | v :: vs => if v.state = .runnable ∧ v.pid = 1 then [v] else v :: visited vs

section Loop
variable {κ : Cpu} {r : List Nat} {c : CpuId} {v : Visit} {vs : List Visit} {b : Bool}

/-- A pass that goes on behind a visit. -/
theorem pass_cons {b' : Bool} {s : State} (h : visit c b v s = .ok (b', false) ⟨κ, r⟩) :
    pass c b (v :: vs) s = pass c b' vs ⟨κ, κ.noff :: r⟩ :=
  (bind_of_ok h).trans (bind_of_ok rfl)

theorem pass_break {s s' : State} (h : visit c b v s = .ok (true, true) s') :
    pass c b (v :: vs) s = .ok () s' := bind_of_ok h

/-- The whole loop: `noff` grows by the excess, and if there is none the loop advances at one
depth. -/
theorem pass_excess (hf : ∀ v ∈ visited vs, v.state = .runnable → v.pid = 1 → v.found = true) :
    ∃ (κ' : Cpu) (r' : List Nat), pass 0 b vs ⟨κ.push, r⟩ = .ok () ⟨κ'.push, r'⟩ ∧
      κ'.noff = κ.noff + excess b vs ∧
      (excess b vs = 0 → (∀ n ∈ r, n = κ.noff + 1) → ∀ n ∈ r', n = κ.noff + 1) := by
  induction vs generalizing κ r b with
  | nil => exact ⟨κ, r, rfl, rfl, fun _ => id⟩
  | cons v vs ih =>
    by_cases hr : v.state = .runnable
    · by_cases hp : v.pid = 1
      · -- the loop ends here
        have hv : v ∈ visited (v :: vs) := by simp [visited, hr, hp]
        rw [excess, if_pos hr, if_pos hp]
        exact ⟨v.back κ, r, pass_break (visit_init hr hp (hf v hv hr hp)), rfl, fun _ => id⟩
      · rw [excess, if_pos hr, if_neg hp, pass_cons (visit_runs hr hp)]
        obtain ⟨κ', r', hpass, hnoff, hread⟩ := ih
          (b := true) fun w hw => hf w (by simp [visited, hp, hw])
        exact ⟨κ', r', hpass, hnoff, fun h0 h => hread h0 (forall_mem_cons.mpr ⟨rfl, h⟩)⟩
    · have hf' : ∀ w ∈ visited vs, w.state = .runnable → w.pid = 1 → w.found = true :=
        fun w hw => hf w (by simp [visited, hr, hw])
      rw [excess, if_neg hr]
      cases b with
      | false =>
        rw [pass_cons (visit_skips hr)]
        obtain ⟨κ', r', hpass, hnoff, hread⟩ := ih
          (b := false) hf'
        refine ⟨κ', r', hpass, by simpa using hnoff, fun h0 h => ?_⟩
        exact hread (by simpa using h0) (forall_mem_cons.mpr ⟨rfl, h⟩)
      | true =>
        -- one level that is not left again
        rw [pass_cons (visit_asleep hr)]
        obtain ⟨κ', r', hpass, hnoff, -⟩ := ih
          (b := true) hf'
        refine ⟨κ', r', hpass, ?_, fun h0 => by simp at h0⟩
        rw [hnoff]
        simp only [Cpu.push, if_true]
        omega

/-- Where init is not found the loop panics. -/
theorem pass_lost (h : ∃ v ∈ visited vs, v.state = .runnable ∧ v.pid = 1 ∧ v.found = false) :
    Stops (pass 0 b vs) ⟨κ.push, r⟩ := by
  induction vs generalizing κ r b with
  | nil => simp [visited] at h
  | cons v vs ih =>
    by_cases hr : v.state = .runnable
    · by_cases hp : v.pid = 1
      · simp only [visited, hr, hp, if_true, mem_singleton, exists_eq_left,
          true_and] at h
        exact (visit_init_lost hr hp h).bind
      · obtain ⟨w, hw, hlost⟩ := h
        simp only [visited, hp, and_false, if_false, mem_cons] at hw
        rcases hw with rfl | hw
        · exact absurd hlost.2.1 hp
        · rw [Stops, pass_cons (visit_runs hr hp)]
          exact ih ⟨w, hw, hlost⟩
    · obtain ⟨w, hw, hlost⟩ := h
      simp only [visited, hr, false_and, if_false, mem_cons] at hw
      rcases hw with rfl | hw
      · exact absurd hlost.1 hr
      · cases b with
        | false =>
          rw [Stops, pass_cons (visit_skips hr)]
          exact ih ⟨w, hw, hlost⟩
        | true =>
          rw [Stops, pass_cons (visit_asleep hr)]
          exact ih ⟨w, hw, hlost⟩

/-- Another CPU only advances. -/
theorem pass_other (vs : List Visit) (hc : c ≠ 0) :
    ∃ r', pass c b vs ⟨κ.push, r⟩ = .ok () ⟨κ.push, r'⟩ ∧
      ((∀ n ∈ r, n = κ.noff + 1) → ∀ n ∈ r', n = κ.noff + 1) := by
  induction vs generalizing r with
  | nil => exact ⟨r, rfl, id⟩
  | cons v vs ih =>
    rw [pass_cons (visit_other hc)]
    obtain ⟨r', hpass, hread⟩ := ih
    exact ⟨r', hpass, fun h => hread (forall_mem_cons.mpr ⟨rfl, h⟩)⟩

/-- There is no excess iff what is visited behind a `RUNNABLE` node is `RUNNABLE`. -/
theorem excess_eq_zero : excess b vs = 0 ↔
    (b = true → ∀ w ∈ visited vs, w.state = .runnable) ∧
      (visited vs).Pairwise fun v w => v.state = .runnable → w.state = .runnable := by
  induction vs generalizing b with
  | nil => simp [excess, visited]
  | cons v vs ih =>
    by_cases hr : v.state = .runnable
    · by_cases hp : v.pid = 1
      · simp [excess, visited, hr, hp]
      · simp only [excess, visited, hr, hp, if_true, if_false, and_false, ih, pairwise_cons,
          forall_mem_cons]
        tauto
    · cases b with
      | false =>
        simp only [excess, visited, hr, if_false, false_and, pairwise_cons, zero_add, ih,
          Bool.false_eq_true]
        tauto
      | true => simp [excess, visited, hr]

end Loop

/-! ## The iteration -/

section Iteration
variable {κ : Cpu} {c : CpuId} {vs : List Visit}

theorem iteration_eq {κ' : Cpu} {r' : List Nat}
    (h : pass c false vs ⟨{ κ with intr := true : Cpu }.push, []⟩ = .ok () ⟨κ'.push, r'⟩) :
    iteration c vs { cpu := κ } = .ok () ⟨κ'.rest, r'⟩ :=
  (bind_of_ok rfl).trans ((bind_of_ok pushOff_on).trans ((bind_of_ok h).trans popOff_on))

/-- On CPU 0, `noff` ends as the excess. -/
theorem iteration_excess (hκ : κ.noff = 0)
    (hf : ∀ v ∈ visited vs, v.state = .runnable → v.pid = 1 → v.found = true) :
    ∃ s', iteration 0 vs { cpu := κ } = .ok () s' ∧ s'.cpu.noff = excess false vs ∧
      (excess false vs = 0 → ∀ n ∈ s'.reads, n = 1) := by
  obtain ⟨κ', r', hpass, hnoff, hread⟩ :=
    pass_excess hf
  have hκ' : ({ κ with intr := true } : Cpu).noff = 0 := hκ
  rw [hκ', zero_add] at hnoff
  rw [hκ'] at hread
  exact ⟨_, iteration_eq hpass, hnoff, fun h0 => hread h0 (by simp)⟩

/-- The iteration is balanced iff, on CPU 0, init is found and no node that is not `RUNNABLE` is
visited behind one that is. -/
theorem scheduler_balanced (hκ : κ.noff = 0) : Balanced c vs κ ↔
    (c = 0 → (∀ v ∈ visited vs, v.state = .runnable → v.pid = 1 → v.found = true) ∧
      (visited vs).Pairwise fun v w => v.state = .runnable → w.state = .runnable) := by
  rcases eq_or_ne c 0 with rfl | hc
  · by_cases hf : ∀ v ∈ visited vs, v.state = .runnable → v.pid = 1 → v.found = true
    · obtain ⟨s', hrun, hnoff, hread⟩ := iteration_excess hκ hf
      have hzero : excess false vs = 0 ↔
          (visited vs).Pairwise fun v w => v.state = .runnable → w.state = .runnable := by
        simp [excess_eq_zero]
      constructor
      · rintro ⟨s₁, hrun₁, hnoff₁, -⟩ -
        cases hrun.symm.trans hrun₁
        exact ⟨hf, hzero.mp (hnoff.symm.trans hnoff₁)⟩
      · intro h
        have h0 := hzero.mpr (h rfl).2
        exact ⟨s', hrun, hnoff.trans h0, hread h0⟩
    · refine iff_of_false ?_ fun h => hf (h rfl).1
      rintro ⟨s₁, hrun₁, -⟩
      simp only [not_forall, Bool.not_eq_true] at hf
      obtain ⟨v, hv, hr, hp, hlost⟩ := hf
      have hstop : Stops (pass 0 false vs) ⟨({ κ with intr := true } : Cpu).push, []⟩ :=
        pass_lost ⟨v, hv, hr, hp, hlost⟩
      obtain ⟨e, s₂, hiter⟩ : Stops (iteration 0 vs) { cpu := κ } :=
        .bind_right ⟨_, _, rfl, .bind_right ⟨_, _, pushOff_on, hstop.bind⟩⟩
      cases hrun₁.symm.trans hiter
  · refine iff_of_true ?_ fun h => absurd h hc
    obtain ⟨r', hpass, hread⟩ :=
      pass_other vs hc
    have hκ' : ({ κ with intr := true } : Cpu).noff = 0 := hκ
    rw [hκ'] at hread
    exact ⟨_, iteration_eq hpass, hκ, hread (by simp)⟩

end Iteration

/-- One process sleeps, the next one runs. -/
theorem scheduler_balanced_sleeper :
    Balanced 0 [{ state := .sleeping, pid := 1 }, { state := .runnable, pid := 2 }] {} :=
  (scheduler_balanced rfl).mpr fun _ => ⟨by decide, by decide⟩

/-- One process runs, the next one sleeps: `noff` ends as 1. -/
theorem unbalanced_sleeper :
    ¬ Balanced 0 [{ state := .runnable, pid := 2 }, { state := .sleeping, pid := 1 }] {} := by
  rintro ⟨s', hrun, hnoff, -⟩
  cases hrun
  cases hnoff

end Xv6.Scheduler
