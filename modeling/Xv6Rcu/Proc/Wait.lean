import Xv6Rcu.Proc.Reparent

/-!
# `wait`

A process that calls `wait` should get one of its own zombies, or -1 if it has no children or was
killed (`Right`), in whatever order the processes run and however often it sleeps before a child
exits. No zombie should be reaped by two calls.

- **The defects** (`wait_fails`): `wait` fetches `p = myproc()` once. `sleep` replaces the version
  of the caller and clears the old struct, so from the second round on `p->uid`, `p->killed` and
  `p->pagetable` are 0: the round looks for the children of `init`, and a caller that was killed
  sleeps again. Besides, a failing `copyout` is a kernel panic.
- **What holds** (`wait_right`): in every run, a round is right if the struct that it reads through
  `p` still agrees with the caller's own, and `copyout` succeeds; and no zombie is reaped twice.

`round` is a round of the loop with everything that it returns; `waitRound` of the sequential model
is its pid (`round_pid`).
-/

namespace Xv6.Seq
namespace Wait

open Lib List Function

/-! ## A round of the loop -/

/-- What `copyout` is given: the exit status, for `addr` in the page table. -/
structure Copyout where
  pagetable : Ptr
  addr : Nat
  xstate : Int
  deriving DecidableEq

/-- What a call returns, and what it has copied out. -/
structure Answer where
  pid : Int
  copied : Option Copyout := none
  deriving DecidableEq

/-- One round, with the `p` that the call has fetched; `none`: it sleeps. -/
def round (c : CpuId) (p : Addr) (addr : Nat) (e : Env) : KernelM (Option Answer) := do
  let s ← get
  match ← waitFrom p s.fresh false s.list.head? with
  | (_, some a) =>
    let q ← processOf a
    let v ← load q
    if addr ≠ 0 ∧ !e.copyout then throw (.panic "Wait failed!")
    listDelRcu a
    freeproc q true
    knfree a
    return some {
      pid := v.pid
      copied := if addr = 0 then none else some ⟨(s.procs p).pagetable, addr, v.xstate⟩ }
  | (havekids, none) =>
    let v ← load p
    if !havekids ∨ v.killed ≠ 0 then return some { pid := -1 }
    sleep c v.uid
    return none

/-! ## The schedules -/

/-- A `wait` that a process is in: the pointer that it fetched and its argument. -/
structure Pending where
  p : Addr
  addr : Nat
  asleep : Bool := false
  deriving DecidableEq

/-- The kernel, the processes that are in `wait` (by pid), and the pids that `wait` has returned. -/
structure State where
  kernel : Kernel
  inWait : Int → Option Pending := fun _ => none
  reaped : List Int := []

/-- What else a process does. -/
inductive Act where
  | fork (e : Env)
  | exit (status : Int)
  | yield
  | sleep (chan : Chan)
  | wakeup (chan : Chan)

def Act.exec : Act → KernelM Unit
  | .fork e => do let _ ← Seq.fork 0 e
  | .exit status => Seq.exit 0 status
  | .yield => Seq.yield 0
  | .sleep chan => Seq.sleep 0 chan
  | .wakeup chan => Seq.wakeup 0 chan

inductive Step where
  | act (x : Act)
  /-- `sched()` returns in `sleep`. -/
  | woken
  /-- `wait(addr)` is called. -/
  | wait (addr : Nat)
  | round (e : Env)

/-- The process of the listed node makes a step. -/
structure Move where
  node : Addr
  step : Step

/-- The process of the node `a`, neither SLEEPING nor ZOMBIE, runs on CPU 0. -/
def turn (k : Kernel) (a : Addr) : Option Kernel :=
  if a ∈ k.list ∧ (k.proc a).state ≠ .sleeping ∧ (k.proc a).state ≠ .zombie then
    some { k with cpuProc := update k.cpuProc 0 (k.process a) }
  else none

namespace State

def setWait (st : State) (pid : Int) (w : Option Pending) : State :=
  { st with inWait := update st.inWait pid w }

/-- The step of the process at the node `a`, which is in the call `w` of `wait` or in none. -/
def advance (st : State) (k : Kernel) (a : Addr) : Step → Option Pending → Option State
  | .act x, none =>
    match x.exec k with
    | .ok _ k' => some { st with kernel := k' }
    | .error _ _ => none
  | .woken, w =>
    if w.all (·.asleep) then
      match woken 0 k with
      | .ok _ k' => some (setWait { st with kernel := k' } (k.proc a).pid
          (w.map fun w => { w with asleep := false }))
      | .error _ _ => none
    else none
  | .wait addr, none =>
    (k.process a).map fun p =>
      setWait { st with kernel := k } (k.proc a).pid (some { p, addr })
  | .round e, some w =>
    if w.asleep then none
    else
      match round 0 w.p w.addr e k with
      | .ok none k' =>
        some (setWait { st with kernel := k' } (k.proc a).pid (some { w with asleep := true }))
      | .ok (some r) k' =>
        let reaped := if r.pid = -1 then st.reaped else r.pid :: st.reaped
        some (setWait { st with kernel := k', reaped } (k.proc a).pid none)
      | .error _ _ => none
  | _, _ => none

end State

def waits : Machine State Move where
  next st l := (turn st.kernel l.node).bind fun k =>
    st.advance k l.node l.step (st.inWait (k.proc l.node).pid)

/-! ## The property -/

/-- The answer `r` is the zombie `z`, a child of the process at the node `a`; it is off the list,
its exit status is copied out, and what it had is given back. -/
structure Reaps (k : Kernel) (a z : Addr) (addr : Nat) (r : Answer) (k' : Kernel) : Prop where
  listed : z ∈ k.list
  zombie : (k.proc z).state = .zombie
  child : (k.proc z).pUid = (k.proc a).uid
  pid : r.pid = (k.proc z).pid
  copied : r.copied =
    if addr = 0 then none else some ⟨(k.proc a).pagetable, addr, (k.proc z).xstate⟩
  list : k'.list = k.list.erase z
  others : ∀ b ∈ k'.list, k'.proc b = k.proc b
  released : k'.calls = k.calls ++ released (k.proc z)
  slot : k'.bitmap = update k.bitmap (k.proc z).nKStack false

/-- What a round of the process at the node `a` does. -/
def Exact (k : Kernel) (a : Addr) (addr : Nat) : Option Answer → Kernel → Prop
  | some r, k' => (∃ z, Reaps k a z addr r k') ∨ r = { pid := -1 } ∧ k' = k ∧
      ((∀ z ∈ k.list, (k.proc z).pUid ≠ (k.proc a).uid) ∨ (k.proc a).killed ≠ 0)
  | none, _ => (∃ z ∈ k.list, (k.proc z).pUid = (k.proc a).uid) ∧
      (∀ z ∈ k.list, (k.proc z).pUid = (k.proc a).uid → (k.proc z).state ≠ .zombie) ∧
      (k.proc a).killed = 0

/-- A round of the call `w` returns, with a child of the process at the node `a`, or -1; or it goes
to sleep because the children still run. -/
def Right (k : Kernel) (a : Addr) (w : Pending) (e : Env) : Prop :=
  Returns (round 0 w.p w.addr e) k (Exact k a w.addr)

/-- What the round reads through `p` is the caller's, and the exit status can be copied out. -/
structure Keeps (k : Kernel) (a : Addr) (w : Pending) (e : Env) : Prop where
  uid : (k.procs w.p).uid = (k.proc a).uid
  killed : (k.procs w.p).killed = (k.proc a).killed
  user : w.addr ≠ 0 → (k.procs w.p).pagetable = (k.proc a).pagetable ∧ e.copyout = true

/-! ## The defects -/

/-- A start: the pids are distinct, positive and below `nextpid`, and no process is in `wait`. -/
structure Start (st : State) : Prop where
  listed : Listed st.kernel
  pos : 0 < st.kernel.nextpid
  range : ∀ a ∈ st.kernel.list, 0 < (st.kernel.proc a).pid ∧
    (st.kernel.proc a).pid < st.kernel.nextpid
  idle : ∀ i, st.inWait i = none
  reaped : st.reaped = []

/-- `init` (pid 1), its child (pid 2), and a child of this one (pid 3) in the state `b`. -/
def family (b : ProcState) : Kernel where
  list := [4, 2, 0]
  process := fun a => if a % 2 = 0 then some (a + 1) else none
  procs := fun p =>
    if p = 1 then { pid := 1, uid := 0, pUid := -1, nKStack := 0, state := .runnable }
    else if p = 3 then { pid := 2, uid := 1, pUid := 0, nKStack := 1, state := .runnable }
    else if p = 5 then { pid := 3, uid := 2, pUid := 1, nKStack := 2, state := b }
    else {}
  initproc := some 1
  nextpid := 4
  uniqueId := 3
  bitmap := fun n => n = 0 ∨ n = 1 ∨ n = 2
  fresh := 6
  live := [0, 1, 2, 3, 4, 5]

/-- `kill(pid)` between two steps. -/
def State.kill (st : State) (pid : Int) : Option State :=
  match Seq.kill pid st.kernel with
  | .ok _ k => some { st with kernel := k }
  | .error _ _ => none

/-- The process 2 calls `wait(0)` and sleeps; it is killed, and runs again. -/
def killedAsleep : Option State := do
  let st ← waits.run { kernel := family .runnable }
    [⟨2, .wait 0⟩, ⟨2, .round { kalloc := none, procPagetable := none }⟩]
  let st ← st.kill 2
  waits.run st [⟨8, .woken⟩]

/-- The round does not return, or it sleeps although the process at the node `a` was killed. -/
def misses (k : Kernel) (a : Addr) (w : Pending) (e : Env) : Bool :=
  match round 0 w.p w.addr e k with
  | .ok (some _) _ => false
  | .ok none _ => (k.proc a).killed ≠ 0
  | .error _ _ => true

theorem not_right_of_misses {k : Kernel} {a : Addr} {w : Pending} {e : Env}
    (h : misses k a w e = true) : ¬ Right k a w e := by
  rintro ⟨r, k', hx, hex⟩
  rw [misses, hx] at h
  cases r with
  | none => exact of_decide_eq_true h hex.2.2
  | some r => cases h

/-- The process at the node `a` is in `wait`. -/
def caller (st : Option State) (a : Addr) : Option (State × Kernel × Pending) :=
  st.bind fun st' => (turn st'.kernel a).bind fun k =>
    (st'.inWait (k.proc a).pid).map fun w => (st', k, w)

theorem caller_eq_some {st : Option State} {st' : State} {a : Addr} {k : Kernel} {w : Pending}
    (h : caller st a = some (st', k, w)) : st = some st' ∧
      turn st'.kernel a = some k ∧ st'.inWait (k.proc a).pid = some w := by
  obtain ⟨st1, hr, h⟩ := Option.bind_eq_some_iff.mp h
  obtain ⟨k1, ht, h⟩ := Option.bind_eq_some_iff.mp h
  obtain ⟨w1, hw, e⟩ := Option.map_eq_some_iff.mp h
  cases e
  exact ⟨hr, ht, hw⟩

/-- A round of the process at the node `a` is not right. -/
def Fails (st : Option State) (a : Addr) (e : Env) : Prop :=
  ∃ st' k w, st = some st' ∧ turn st'.kernel a = some k ∧
    st'.inWait (k.proc a).pid = some w ∧ ¬ Right k a w e

theorem fails_of_misses {st : Option State} {a : Addr} {e : Env}
    (h : (caller st a).map (fun x => misses x.2.1 a x.2.2 e) = some true) : Fails st a e := by
  obtain ⟨⟨st', k, w⟩, hx, hm⟩ := Option.map_eq_some_iff.mp h
  obtain ⟨hr, ht, hw⟩ := caller_eq_some hx
  exact ⟨st', k, w, hr, ht, hw, not_right_of_misses hm⟩

theorem family_start (b : ProcState) : Start { kernel := family b } := by
  have hproc : ∀ a ∈ [4, 2, 0], (family b).process a = some (a + 1) ∧ a + 1 < (family b).fresh := by
    cases b <;> decide
  refine ⟨⟨?_, fun a ha => ⟨a + 1, hproc a ha⟩, ?_⟩, ?_, ?_, fun _ => rfl, rfl⟩
  all_goals cases b <;> decide

/-- The second round of the process 2 goes to sleep, although it was killed; and `wait` with an
address that cannot be written to panics. -/
theorem wait_fails : (∀ b, Start { kernel := family b }) ∧
    Fails killedAsleep 9 { kalloc := none, procPagetable := none } ∧
    Fails (waits.run { kernel := family .zombie } [⟨2, .wait 4096⟩]) 2
      { kalloc := none, procPagetable := none, copyout := false } :=
  ⟨family_start, fails_of_misses (by decide +kernel), fails_of_misses (by decide +kernel)⟩

section
variable {g : Slate} {k k' : Kernel} {a z p q : Addr} {addr : Nat} {e : Env} {w : Pending}
  {l1 l2 : List Addr}

/-! ## The traversal -/

/-- A zombie among the children of the process with the struct `p`. -/
def Due (p : Addr) (k : Kernel) (a : Addr) : Prop := ChildOf p k a ∧ (k.proc a).state = .zombie

instance (p : Addr) (k : Kernel) (a : Addr) : Decidable (Due p k a) :=
  inferInstanceAs (Decidable (_ ∧ _))

theorem waitFrom_eq (hnd : k.list.Nodup) (hproc : ∀ a ∈ k.list, ∃ q, k.process a = some q)
    (p : Addr) (fuel : Nat) (kids : Bool) (l1 l2 : List Addr) (hl : k.list = l1 ++ l2)
    (hfuel : l2.length ≤ fuel) : waitFrom p fuel kids l2.head? k =
      .ok (kids || l2.any (ChildOf p k ·), l2.find? (Due p k ·)) k := by
  induction fuel generalizing l1 l2 kids with
  | zero =>
    obtain rfl : l2 = [] := eq_nil_of_length_eq_zero (Nat.le_zero.mp hfuel)
    simp
    rfl
  | succ fuel ih =>
    cases l2 with
    | nil =>
      simp
      rfl
    | cons a l2 =>
      obtain ⟨q, hq⟩ := hproc a (by simp [hl])
      have hnext : ∀ kids, (do waitFrom p fuel kids ((← get).next a) : KernelM _) k =
          .ok (kids || l2.any (ChildOf p k ·), l2.find? (Due p k ·)) k := by
        intro kids
        refine (bind_of_ok rfl).trans ?_
        rw [next_of_append hnd hl]
        exact ih kids (l1 ++ [a]) l2 (by simp [hl]) (by simpa using hfuel)
      refine (bind_of_ok (processOf_eq hq)).trans ((bind_of_ok rfl).trans ?_)
      by_cases hc : ChildOf p k a
      · have hc' : (k.procs q).pUid = (k.procs p).uid := by rwa [ChildOf, proc_of hq] at hc
        refine (congrFun (if_pos hc') k).trans ?_
        by_cases hz : (k.proc a).state = .zombie
        · have hz' : (k.procs q).state = .zombie := by rwa [proc_of hq] at hz
          refine (congrFun (if_pos hz') k).trans ?_
          simp [Due, hc, hz]
          rfl
        · have hz' : (k.procs q).state ≠ .zombie := by rwa [proc_of hq] at hz
          refine (congrFun (if_neg hz') k).trans ((hnext true).trans ?_)
          simp [Due, hc, hz]
      · have hc' : (k.procs q).pUid ≠ (k.procs p).uid := by rwa [ChildOf, proc_of hq] at hc
        refine (congrFun (if_neg hc') k).trans ((hnext kids).trans ?_)
        simp [Due, hc]

/-! ## The ends of a round -/

/-- The state after the node `z` with the struct `q` has been reaped. -/
def buried (k : Kernel) (z q : Addr) : Kernel :=
  { k with
    list := k.list.erase z
    stale := update k.stale z (k.next z)
    unlinked := (z, k.process z) :: k.unlinked
    calls := k.calls ++ released (k.procs q)
    bitmap := update k.bitmap (k.procs q).nKStack false
    procs := update k.procs q {}
    live := k.live.erase z
    freed := z :: k.freed }

theorem listDelRcu_eq (hz : z ∈ k.list) : listDelRcu z k = .ok () { k with
    list := k.list.erase z
    stale := update k.stale z (k.next z)
    unlinked := (z, k.process z) :: k.unlinked } := by
  refine (bind_of_ok rfl).trans ((congrFun (if_neg (ne_nil_of_mem hz)) k).trans ?_)
  exact (congrFun (if_pos hz) k).trans rfl

section
variable (h : Shows g k) (hg : g.Ok)
include h hg

/-- The traversal of a round. -/
theorem waitFrom_find (p : Addr) :
    waitFrom p k.fresh false k.list.head? k =
      .ok (k.list.any (ChildOf p k ·), k.list.find? (Due p k ·)) k := by
  have hnd := h.nodup hg
  have := waitFrom_eq hnd h.proc_some p k.fresh false [] k.list rfl
    (length_le_fresh hnd h.node)
  rwa [Bool.false_or] at this

/-- A zombie is found. -/
theorem round_reaps (hz : k.list.find? (Due p k ·) = some z) (hq : k.process z = some q)
    (hu : addr ≠ 0 → e.copyout = true) :
    round 0 p addr e k = .ok (some {
      pid := (k.procs q).pid
      copied := if addr = 0 then none else some ⟨(k.procs p).pagetable, addr, (k.procs q).xstate⟩ })
      (buried k z q) := by
  have hout : ¬ (addr ≠ 0 ∧ (!e.copyout) = true) := by
    rintro ⟨ha, hc⟩
    simp [hu ha] at hc
  refine (bind_of_ok rfl).trans ((bind_of_ok (waitFrom_find h hg p)).trans ?_)
  rw [hz]
  refine (bind_of_ok (processOf_eq hq)).trans ((bind_of_ok rfl).trans ?_)
  refine (congrFun (if_neg hout) k).trans ?_
  refine (bind_of_ok (listDelRcu_eq (mem_of_find?_eq_some hz))).trans ?_
  exact (bind_of_ok (freeproc_eq q)).trans ((bind_of_ok rfl).trans rfl)

/-- A zombie is found, and its exit status cannot be copied out. -/
theorem round_panics (hz : k.list.find? (Due p k ·) = some z) (hq : k.process z = some q)
    (ha : addr ≠ 0) (hu : e.copyout = false) : Stops (round 0 p addr e) k := by
  refine .bind_right (.of_eq rfl (.bind_right (.of_eq (waitFrom_find h hg p) ?_)))
  rw [hz]
  refine .bind_right (.of_eq (processOf_eq hq) (.bind_right (.of_eq rfl ?_)))
  rw [if_pos ⟨ha, by simp [hu]⟩]
  exact .bind .throw

/-- There is no zombie; the process has no child, or it was killed. -/
theorem round_none (hz : k.list.find? (Due p k ·) = none)
    (hk : (∀ a ∈ k.list, ¬ ChildOf p k a) ∨ (k.procs p).killed ≠ 0) :
    round 0 p addr e k = .ok (some { pid := -1 }) k := by
  refine (bind_of_ok rfl).trans ((bind_of_ok (waitFrom_find h hg p)).trans ?_)
  rw [hz]
  refine (bind_of_ok rfl).trans ((congrFun (if_pos ?_) k).trans rfl)
  simpa using hk

/-- There are children, and they all run. -/
theorem round_sleeps (hr : Running k) (hz : k.list.find? (Due p k ·) = none)
    (hk : ¬ ((∀ a ∈ k.list, ¬ ChildOf p k a) ∨ (k.procs p).killed ≠ 0)) :
    Returns (round 0 p addr e) k fun r k' => r = none ∧ Shows g k' := by
  refine .bind_eq rfl (.bind_eq (waitFrom_find h hg p) ?_)
  rw [hz]
  refine .bind_eq rfl ?_
  rw [if_neg (by simpa using hk)]
  refine .bind ((sleep_returns h hg hr _).mono fun _ k' hk' => .pure ⟨rfl, hk'.1⟩)

theorem buried_shows (hz : z ∈ k.list) (hq : k.process z = some q) :
    Shows (g.reap (key (k.procs q))) (buried k z q) :=
  h.reap hg hz hq rfl rfl rfl rfl rfl rfl

end

/-! ## A round that reads the caller's struct -/

theorem proc_buried (h : Shows g k) (hg : g.Ok) (hz : z ∈ k.list) (hq : k.process z = some q) :
    ∀ b ∈ k.list.erase z, (buried k z q).proc b = k.proc b := by
  intro b hb
  obtain ⟨r, hr⟩ := h.proc_some b (mem_of_mem_erase hb)
  have hne : r ≠ q := by
    rintro rfl
    have := h.inj b (mem_of_mem_erase hb) z hz (hr.trans hq.symm)
    exact (h.nodup hg).not_mem_erase (this ▸ hb)
  rw [proc_of hr, proc_of (show (buried k z q).process b = some r from hr)]
  exact update_of_ne hne _ _

theorem Keeps.right (hk : Keeps k a w e) (h : Shows g k) (hg : g.Ok) (hr : Running k) :
    Right k a w e := by
  have hchild : ∀ z, ChildOf w.p k z ↔ (k.proc z).pUid = (k.proc a).uid := by
    intro z
    rw [ChildOf, hk.uid]
  cases hz : k.list.find? (Due w.p k ·) with
  | some z =>
    have hzl := mem_of_find?_eq_some hz
    obtain ⟨q, hq⟩ := h.proc_some z hzl
    have hdue : Due w.p k z := by simpa using find?_some hz
    refine .of_eq (round_reaps h hg hz hq fun hu => (hk.user hu).2) (.inl ⟨z, ?_⟩)
    refine ⟨hzl, hdue.2, (hchild z).mp hdue.1, ?_, ?_, rfl, proc_buried h hg hzl hq, ?_, ?_⟩
    · rw [proc_of hq]
    · by_cases hu : w.addr = 0
      · simp [hu]
      · simp [proc_of hq, (hk.user hu).1]
    · rw [proc_of hq]
      rfl
    · rw [proc_of hq]
      rfl
  | none =>
    by_cases hend : (∀ a ∈ k.list, ¬ ChildOf w.p k a) ∨ (k.procs w.p).killed ≠ 0
    · refine .of_eq (round_none h hg hz hend) (.inr ⟨rfl, rfl, ?_⟩)
      rw [hk.killed] at hend
      exact hend.imp_left fun hno z hzl hc => hno z hzl ((hchild z).mpr hc)
    · refine (round_sleeps h hg hr hz hend).mono ?_
      rintro _ k' ⟨rfl, -⟩
      push Not at hend
      obtain ⟨⟨z, hzl, hc⟩, hkilled⟩ := hend
      refine ⟨⟨z, hzl, (hchild z).mp hc⟩, fun z hzl hc hzom => ?_, hk.killed ▸ hkilled⟩
      have hnot := find?_eq_none.mp hz z hzl
      exact hnot (by simpa using ⟨(hchild z).mpr hc, hzom⟩)

/-! ## Runs -/

/-- The pids of `g'` are pids of `g` or new. -/
def Grows (g g' : Slate) : Prop :=
  g.nextpid ≤ g'.nextpid ∧ ∀ i ∈ g'.ids.map (·.1), i ∈ g.ids.map (·.1) ∨ g.nextpid ≤ i

theorem Grows.refl (g : Slate) : Grows g g := ⟨le_rfl, fun _ => .inl⟩

theorem yield_shows (h : Shows g k) (hg : g.Ok) (hr : Running k) :
    Triple (· = k) (yield 0) fun _ k' => Shows g k' := by
  obtain ⟨b, p, hb, hp, hcpu⟩ := hr
  obtain ⟨l1, l2, hl⟩ := append_of_mem hb
  refine at_myproc ?_
  rw [hcpu]
  refine at_deref (at_load ((newNode_at _).bind fun r => .assuming fun hr => ?_))
  subst hr
  have hpb := h.process_drafted hl hp (w := Sleep.runnable (k.procs p))
  refine (listUpdateRcu_at (h.drafted _).1 hg hl hpb).bind fun r => .assuming fun hr => ?_
  subst hr
  refine at_modify ((reclaim_at (by exact hpb)).post ?_)
  rintro _ _ rfl
  exact (h.installed hg hl hp (w := Sleep.runnable (k.procs p)) rfl).1

theorem exec_grows (h : Shows g k) (hg : g.Ok) (hr : Running k) (x : Act) :
    Triple (· = k) x.exec fun _ k' => ∃ g' : Slate, g'.Ok ∧ Shows g' k' ∧ Grows g g' := by
  have hsame : ∀ k', Shows g k' → ∃ g' : Slate, g'.Ok ∧ Shows g' k' ∧ Grows g g' := fun k' hk' =>
    ⟨g, hg, hk', .refl g⟩
  cases x with
  | fork e =>
    refine (fork_shows h e).bind fun _ => .pure ?_
    rintro k' ⟨n, -, ⟨-, h'⟩ | ⟨-, h'⟩⟩
    · refine ⟨g.add n, hg.add n, h', by simp [Slate.add, Slate.mark], fun i hi => ?_⟩
      rcases mem_cons.mp hi with rfl | hi
      · exact .inr le_rfl
      · exact .inl hi
    · exact ⟨g.mark n, hg.mark n, h', by simp [Slate.mark], fun _ => .inl⟩
  | exit status => exact (exit_stops h hg hr status).post fun _ _ => False.elim
  | yield => exact (yield_shows h hg hr).post fun _ => hsame
  | sleep chan => exact (sleep_shows h hg hr chan).post fun _ k' hk' => hsame k' hk'.1
  | wakeup chan => exact (wakeup_shows h hg hr chan).post fun _ k' hk' => hsame k' hk'.1

/-- The pids that were returned are distinct, and no listed process has one of them or will. -/
structure Inv (g : Slate) (st : State) : Prop where
  ok : g.Ok
  shows : Shows g st.kernel
  nodup : st.reaped.Nodup
  gone : ∀ i ∈ st.reaped, i < g.nextpid ∧ i ∉ g.ids.map (·.1)

variable {g' : Slate} {st st' : State}

theorem Inv.grows (hi : Inv g st) (hok : g'.Ok) (hs : Shows g' st'.kernel)
    (hr : st'.reaped = st.reaped) (hg : Grows g g') : Inv g' st' := by
  refine ⟨hok, hs, hr ▸ hi.nodup, fun i hi' => ?_⟩
  obtain ⟨hlt, hnot⟩ := hi.gone i (hr ▸ hi')
  have := hg.1
  refine ⟨by omega, fun hm => ?_⟩
  rcases hg.2 i hm with hm | hm
  · exact hnot hm
  · omega

/-- A process that is on the list was not returned yet. -/
theorem Inv.reap (hi : Inv g st) {i : Int × Int} (hmem : i ∈ g.ids)
    (hs : Shows (g.reap i) st'.kernel) (hr : st'.reaped = i.1 :: st.reaped) :
    Inv (g.reap i) st' := by
  have hfst : i.1 ∈ g.ids.map (·.1) := mem_map_of_mem hmem
  have hsub : ∀ j ∈ (g.ids.erase i).map (·.1), j ∈ g.ids.map (·.1) := fun j hj =>
    ((erase_sublist).map fun x : Int × Int => x.1).subset hj
  have hself : i.1 ∉ (g.ids.erase i).map (·.1) := by
    obtain ⟨l1, l2, hnot, e, hl⟩ := exists_erase_eq hmem
    have hnd := hi.ok.pids
    rw [e, map_append, map_cons, nodup_middle, nodup_cons] at hnd
    rw [hl, map_append]
    exact hnd.1
  refine ⟨hi.ok.reap i, hs, ?_, ?_⟩
  · rw [hr]
    exact nodup_cons.mpr ⟨fun hm => (hi.gone _ hm).2 hfst, hi.nodup⟩
  · intro j hj
    rw [hr] at hj
    rcases mem_cons.mp hj with rfl | hj
    · exact ⟨(hi.ok.range i hmem).2, hself⟩
    · exact ⟨(hi.gone j hj).1, fun hm => (hi.gone j hj).2 (hsub j hm)⟩

theorem turn_shows (h : Shows g k) (ht : turn k a = some k') : Shows g k' ∧ Running k' := by
  simp only [turn] at ht
  split at ht
  · rename_i ha
    cases ht
    obtain ⟨p, hp⟩ := h.proc_some a ha.1
    exact ⟨h.setCpu _, a, p, ha.1, hp, by simp [hp]⟩
  · cases ht

/-- What a round does, whatever `p` is. -/
theorem round_shows (h : Shows g k) (hg : g.Ok) (hr : Running k) (p : Addr) (addr : Nat) (e : Env) :
    Triple (· = k) (round 0 p addr e) fun r k' => (Shows g k' ∧ ∀ x ∈ r, x.pid = -1) ∨
      ∃ x i, r = some x ∧ i ∈ g.ids ∧ x.pid = i.1 ∧ Shows (g.reap i) k' := by
  cases hz : k.list.find? (Due p k ·) with
  | some z =>
    have hzl := mem_of_find?_eq_some hz
    obtain ⟨q, hq⟩ := h.proc_some z hzl
    by_cases hu : addr ≠ 0 ∧ e.copyout = false
    · exact (round_panics h hg hz hq hu.1 hu.2).triple
    · refine .of_eq (round_reaps h hg hz hq (by simpa using hu)) (.inr ?_)
      refine ⟨_, key (k.procs q), rfl, ?_, rfl, buried_shows h hg hzl hq⟩
      rw [← proc_of hq]
      exact h.mem_ids hzl
  | none =>
    by_cases hend : (∀ a ∈ k.list, ¬ ChildOf p k a) ∨ (k.procs p).killed ≠ 0
    · exact .of_eq (round_none h hg hz hend) (.inl ⟨h, by simp⟩)
    · refine ((round_sleeps h hg hr hz hend).mono ?_).triple
      rintro _ k' ⟨rfl, hk'⟩
      exact .inl ⟨hk', by simp⟩

/-- **The step lemma.** -/
theorem next_inv {l : Move} (hi : Inv g st) (hn : waits.next st l = some st') :
    ∃ g', Inv g' st' := by
  obtain ⟨k, hk, hn⟩ := Option.bind_eq_some_iff.mp hn
  obtain ⟨hs, hr⟩ := turn_shows hi.shows hk
  obtain ⟨a, step⟩ := l
  cases step with
  | act x =>
    cases hw : st.inWait (k.proc a).pid with
    | some w => simp [hw, State.advance] at hn
    | none =>
      simp only [hw, State.advance] at hn
      split at hn
      · rename_i hx
        cases hn
        obtain ⟨g', hok, hs', hg⟩ := exec_grows hs hi.ok hr x _ _ _ rfl hx
        exact ⟨g', hi.grows hok hs' rfl hg⟩
      · cases hn
  | woken =>
    simp only [State.advance] at hn
    split at hn
    · split at hn
      · rename_i hx
        cases hn
        exact ⟨g, hi.grows hi.ok (woken_shows hs hi.ok hr _ _ _ rfl hx).1 rfl (.refl g)⟩
      · cases hn
    · cases hn
  | wait addr =>
    cases hw : st.inWait (k.proc a).pid with
    | some w => simp [hw, State.advance] at hn
    | none =>
      simp only [hw] at hn
      obtain ⟨p, -, rfl⟩ := Option.map_eq_some_iff.mp hn
      exact ⟨g, hi.grows hi.ok hs rfl (.refl g)⟩
  | round e =>
    cases hw : st.inWait (k.proc a).pid with
    | none => simp [hw, State.advance] at hn
    | some w =>
      simp only [hw, State.advance] at hn
      split at hn
      · cases hn
      · have hround := round_shows hs hi.ok hr w.p w.addr e
        split at hn
        · rename_i k' hx
          cases hn
          rcases hround _ _ _ rfl hx with ⟨hs', -⟩ | ⟨x, i, hx', -⟩
          · exact ⟨g, hi.grows hi.ok hs' rfl (.refl g)⟩
          · cases hx'
        · rename_i r k' hx
          cases hn
          rcases hround _ _ _ rfl hx with ⟨hs', hpid⟩ | ⟨x, i, hx', hmem, hpid, hs'⟩
          · exact ⟨g, hi.grows hi.ok hs' (if_pos (hpid r rfl)) (.refl g)⟩
          · cases hx'
            have hne : r.pid ≠ -1 := by
              have := (hi.ok.range i hmem).1
              omega
            refine ⟨g.reap i, hi.reap hmem hs' ((if_neg hne).trans ?_)⟩
            rw [hpid]
        · cases hn

theorem Start.inv (h : Start st) : ∃ g, Inv g st := by
  refine ⟨⟨st.kernel.list.map fun a => key (st.kernel.proc a), st.kernel.bitmap,
    st.kernel.nextpid⟩, ⟨?_, h.pos, ?_⟩, ⟨h.listed.node, h.listed.proc, ?_, rfl, rfl, rfl⟩, ?_, ?_⟩
  · rw [map_map]
    exact h.listed.pids
  · intro i hi
    obtain ⟨a, ha, rfl⟩ := mem_map.mp hi
    exact h.range a ha
  · intro a ha b hb e
    refine inj_on_of_nodup_map h.listed.pids ha hb ?_
    rw [Kernel.proc, Kernel.proc, e]
  · simp [h.reaped]
  · simp [h.reaped]

/-- **What holds of `wait`.** In every run no zombie is reaped twice; and a round whose `p` still
agrees with the caller's struct, and whose `copyout` succeeds, is right. -/
theorem wait_right {ls : List Move} (h : Start st) (hr : waits.run st ls = some st') :
    st'.reaped.Nodup ∧ ∀ a k w e, turn st'.kernel a = some k →
      st'.inWait (k.proc a).pid = some w → Keeps k a w e → Right k a w e := by
  obtain ⟨g, hi⟩ : ∃ g, Inv g st' := Machine.run_inv_all (I := fun st => ∃ g, Inv g st)
    (fun ⟨g, hi⟩ hn => next_inv hi hn) h.inv hr
  refine ⟨hi.nodup, fun a k w e ht _ hk => ?_⟩
  obtain ⟨hs, hr⟩ := turn_shows hi.shows ht
  exact hk.right hs hi.ok hr

end

/-- A first round that finds a zombie. -/
theorem wait_right_family : ∃ st k w,
    waits.run { kernel := family .zombie } [⟨2, .wait 4096⟩] = some st ∧
    turn st.kernel 2 = some k ∧ st.inWait (k.proc 2).pid = some w ∧
    Right k 2 w { kalloc := none, procPagetable := none } := by
  have h : (caller (waits.run { kernel := family .zombie } [⟨2, .wait 4096⟩]) 2).map
      (fun x => decide ((x.2.1.procs x.2.2.p).uid = (x.2.1.proc 2).uid ∧
        (x.2.1.procs x.2.2.p).killed = (x.2.1.proc 2).killed ∧
        (x.2.1.procs x.2.2.p).pagetable = (x.2.1.proc 2).pagetable)) = some true := by
    decide +kernel
  obtain ⟨⟨st, k, w⟩, hx, hm⟩ := Option.map_eq_some_iff.mp h
  obtain ⟨hr, ht, hw⟩ := caller_eq_some hx
  obtain ⟨hu, hk, hp⟩ := of_decide_eq_true hm
  exact ⟨st, k, w, hr, ht, hw,
    (wait_right (family_start _) hr).2 2 k w _ ht hw ⟨hu, hk, fun _ => ⟨hp, rfl⟩⟩⟩

end Wait
end Xv6.Seq
