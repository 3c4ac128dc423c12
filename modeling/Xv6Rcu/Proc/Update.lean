import Xv6Rcu.Lib.Machine
import Xv6Rcu.Lib.Keyed
import Xv6Rcu.Kernel.Types

/-!
# Two updaters of one process

Every function that changes a process does it in three steps: it copies the process's struct, it
changes the copy, and it publishes the copy with `list_update_rcu`. Only the last step holds
`rcu_writers_lock`. The machine `updates` runs two of these functions on the process with the pid
`k`, step by step in any order; the list is the list of the processes of its nodes, and old versions
are not reclaimed.

- **The defect** (`kill_scheduler`): `kill` copies a process, `scheduler` publishes it as RUNNING,
  and `kill` publishes its copy: the process is RUNNABLE again while it runs.
- `reparent` passes the exiting process to `list_update_rcu`, not the child that it copied, so it
  replaces the exiting process by a second version of the child.
- **What holds** (`carried_iff`): both updates are there at the end exactly when no updater is
  `reparent`, and no updater copies between the copy and the publication of the other one, or else
  the updater that publishes first changes nothing that the other one does not write.
-/

namespace Xv6.Update

open Lib Function List

/-! ## The updaters -/

/-- A function that replaces a process on the list, with what its change depends on. -/
inductive Updater where
  | wakeup (chan : Chan)
  | kill
  /-- `uid` and `pid` are those of the exiting process `p`. -/
  | reparent (uid pid : Int) (initproc : Ptr)
  /-- `sz` is the size that `uvmalloc` or `uvmdealloc` returned. -/
  | growproc (sz : Nat)
  | yield
  /-- The first update of `sleep`, before `sched()`. -/
  | sleep (chan : Chan)
  /-- The second update of `sleep`, after `sched()`. -/
  | woken
  | scheduler
  | exit (status : Int)
  deriving DecidableEq

/-- The fields that an updater may write. -/
inductive Field where
  | state | chan | killed | xstate | pUid | parent | sz
  deriving DecidableEq

namespace Updater

/-- The test that a node passes before the function copies it. -/
def selects : Updater → Proc → Bool
  | .wakeup chan, p => p.state = .sleeping ∧ p.chan = chan
  | .reparent uid _ _, p => p.pUid = uid
  | .scheduler, p => p.state = .runnable
  | _, _ => true

/-- The change of the copy. -/
def modify : Updater → Proc → Proc
  | .wakeup _, p => { p with state := .runnable }
  | .kill, p =>
    if p.state = .sleeping then { p with killed := 1, state := .runnable } else
        { p with killed := 1 }
  | .reparent _ _ initproc, p => { p with parent := initproc, pUid := 0 }
  | .growproc sz, p => { p with sz }
  | .yield, p => { p with state := .runnable }
  | .sleep chan, p => { p with chan, state := .sleeping }
  | .woken, p => { p with chan := 0 }
  | .scheduler, p => { p with state := .running }
  | .exit status, p => { p with xstate := status, state := .zombie }

/-- The pid of the `proc_ptr` that the function passes to `list_update_rcu`: `reparent` passes `p`,
every other function the process that it copied. -/
def target (k : Int) : Updater → Int
  | .reparent _ pid _ => pid
  | _ => k

def isReparent : Updater → Bool
  | .reparent .. => true
  | _ => false

/-- The fields that the function writes into the copy of `p`. -/
def writes (p : Proc) : Updater → Field → Bool
  | .wakeup _, f | .yield, f | .scheduler, f => f = .state
  | .kill, f => f = .killed ∨ (f = .state ∧ p.state = .sleeping)
  | .reparent .., f => f = .parent ∨ f = .pUid
  | .growproc _, f => f = .sz
  | .sleep _, f => f = .chan ∨ f = .state
  | .woken, f => f = .chan
  | .exit _, f => f = .xstate ∨ f = .state

end Updater

/-- The two versions have the same value of the field. -/
def Field.Same (p q : Proc) : Field → Prop
  | .state => p.state = q.state
  | .chan => p.chan = q.chan
  | .killed => p.killed = q.killed
  | .xstate => p.xstate = q.xstate
  | .pUid => p.pUid = q.pUid
  | .parent => p.parent = q.parent
  | .sz => p.sz = q.sz

/-! ## The machine -/

/-- Where an updater is; it keeps the version that it copied. -/
inductive Phase where
  | start
  | copied (p : Proc)
  | modified (p new : Proc)
  | done (p new : Proc)
  deriving DecidableEq

structure St where
  list : List Proc
  phase : Bool → Phase := fun _ => .start

/-- `list_update_rcu`: the first node with the pid of `proc_ptr` is replaced. The head is
dereferenced without a test, so an empty list faults. -/
def listUpdateRcu (new : Proc) (pid : Int) : List Proc → Option (List Proc)
  | [] => none
  | p :: l => some (setKey Proc.pid pid new (p :: l))

/-- The next step of the updater `u`. -/
def step (k : Int) (u : Updater) (l : List Proc) : Phase → Option (List Proc × Phase)
  | .start => do
    let p ← l.find? (·.pid = k)
    if u.selects p then return (l, .copied p) else none
  | .copied p => some (l, .modified p (u.modify p))
  | .modified p new => do
    let l' ← listUpdateRcu new (u.target k) l
    return (l', .done p new)
  | .done _ _ => none

/-- Two updaters of the process `k`; a label is the updater that moves. -/
def updates (k : Int) (us : Bool → Updater) : Machine St Bool where
  next s i := (step k (us i) s.list (s.phase i)).map fun r =>
    { list := r.1, phase := Function.update s.phase i r.2 }

/-- Both updates are there: the process has one node, and it carries every field value that one of
the updaters wrote and the other one did not write. -/
def Carried (k : Int) (us : Bool → Updater) (s : St) : Prop :=
  ∃ p, (∀ q ∈ s.list, q.pid = k → q = p) ∧ (s.list.map Proc.pid).count k = 1 ∧
    ∀ i old new old' new', s.phase i = .done old new → s.phase (!i) = .done old' new' →
      ∀ f, (us i).writes old f = true → (us !i).writes old' f = false → f.Same p new

/-! ## The defect -/

/-- The process 2, RUNNABLE, and init. -/
def twoProcs : List Proc :=
  [{ pid := 2, uid := 1, state := .runnable }, { pid := 1, state := .sleeping, chan := 7 }]

/-- `kill(2)` and the scheduler. -/
def killScheduler : Bool → Updater
  | false => .kill
  | true => .scheduler

/-- `kill` copies and is preempted; the scheduler copies, changes and publishes; `kill` goes on. -/
def killRun : List Bool := [false, true, true, true, false, false]

/-- After both have finished, the process that the scheduler runs is RUNNABLE. -/
theorem kill_scheduler : ∃ s, (updates 2 killScheduler).run { list := twoProcs } killRun = some s ∧
    (∀ i, ∃ old new, s.phase i = .done old new) ∧ ¬ Carried 2 killScheduler s := by
  have h : ((updates 2 killScheduler).run { list := twoProcs } killRun).map (fun s =>
      (s.list.map fun p => (p.pid, p.state, p.killed), s.phase false, s.phase true)) = some
      ([(2, .runnable, 1), (1, .sleeping, 0)],
        .done { pid := 2, uid := 1, state := .runnable }
          { pid := 2, uid := 1, state := .runnable, killed := 1 },
        .done { pid := 2, uid := 1, state := .runnable }
          { pid := 2, uid := 1, state := .running }) := by
    decide +kernel
  obtain ⟨s, hs, h⟩ := Option.map_eq_some_iff.mp h
  simp only [Prod.mk.injEq] at h
  obtain ⟨hl, h₀, h₁⟩ := h
  refine ⟨s, hs, fun i => ?_, ?_⟩
  · cases i
    · exact ⟨_, _, h₀⟩
    · exact ⟨_, _, h₁⟩
  · rintro ⟨p, hp, -, hf⟩
    have hsame : p.state = .running := hf true _ _ _ _ h₁ h₀ .state rfl rfl
    cases hsl : s.list with
    | nil => rw [hsl] at hl; cases hl
    | cons q l =>
      rw [hsl] at hl
      simp only [map_cons, cons.injEq, Prod.mk.injEq] at hl
      have := hp q (by simp [hsl]) hl.1.1
      rw [this, hsame] at hl
      cases hl.1.2.1

/-! ## What holds -/

variable {k : Int} {us : Bool → Updater} {l : List Proc} {q : Proc} {s s' : St} {i : Bool}

theorem Updater.modify_pid (u : Updater) (p : Proc) : (u.modify p).pid = p.pid := by
  cases u <;> simp only [modify]
  split <;> rfl

theorem Field.Same.refl (p : Proc) (f : Field) : f.Same p p := by
  cases f <;> rfl

theorem Field.Same.symm {p p' : Proc} {f : Field} (h : f.Same p p') : f.Same p' p := by
  cases f <;> exact Eq.symm h

theorem Field.Same.trans {p1 p2 p3 : Proc} {f : Field} (h : f.Same p1 p2) (h' : f.Same p2 p3) :
    f.Same p1 p3 := by
  cases f <;> exact Eq.trans h h'

/-- A field that an updater does not write keeps its value. -/
theorem Updater.same_modify {u : Updater} {p : Proc} {f : Field} (h : u.writes p f = false) :
    f.Same (u.modify p) p := by
  cases u <;> cases f <;> simp_all [writes, modify, Field.Same] <;> split <;>
      simp_all

/-- The updater has copied and not yet published. -/
def Phase.isOpen : Phase → Bool
  | .copied _ | .modified _ _ => true
  | _ => false

/-- The step is not a copy between the copy and the publication of the other updater. -/
def Apart (s : St) (i : Bool) : Prop := s.phase i = .start → (s.phase !i).isOpen = false

instance (s : St) (i : Bool) : Decidable (Apart s i) :=
  inferInstanceAs (Decidable (_ → _))

/-- The updater `u` gives no field of the version `q` a new value, apart from fields that `v` writes
too. -/
def Redundant (q : Proc) (u v : Updater) : Prop :=
  ∀ f, u.writes q f = true → v.writes q f = false → f.Same (u.modify q) q

/-- The runs without `reparent` from a list `l` on which `q` is the process. `B` says that an
updater has copied between the copy and the publication of the other one. -/
inductive Shape (k : Int) (us : Bool → Updater) (l : List Proc) (q : Proc) (B : Prop)
    (s : St) : Prop
  /-- Nothing is published. -/
  | zero (hl : s.list = l) (hp : ∀ i, s.phase i = .start ∨ s.phase i = .copied q ∨
      s.phase i = .modified q ((us i).modify q)) (hB : B ↔ ∀ i, s.phase i ≠ .start)
  /-- `i` has published, and `!i` has not yet copied. -/
  | one (i : Bool) (hl : s.list = setKey Proc.pid k ((us i).modify q) l)
      (hi : s.phase i = .done q ((us i).modify q)) (hj : s.phase (!i) = .start) (hB : ¬ B)
  /-- `i` has published, and `!i` has copied the version `x`. -/
  | half (i : Bool) (x : Proc) (hl : s.list = setKey Proc.pid k ((us i).modify q) l)
      (hi : s.phase i = .done q ((us i).modify q))
      (hj : s.phase (!i) = .copied x ∨ s.phase (!i) = .modified x ((us !i).modify x))
      (hx : B ∧ x = q ∨ ¬ B ∧ x = (us i).modify q)
  | two (h : ∀ i, ∃ p new, s.phase i = .done p new)

theorem Shape.congr {B B' : Prop} (h : Shape k us l q B s) (hB : B ↔ B') : Shape k us l q B' s :=
  propext hB ▸ h

/-- What a step does. -/
theorem next_cases (hn : (updates k us).next s i = some s') :
    (∃ p, s.phase i = .start ∧ s.list.find? (·.pid = k) = some p ∧
      s' = { s with phase := update s.phase i (.copied p) }) ∨
    (∃ p, s.phase i = .copied p ∧
      s' = { s with phase := update s.phase i (.modified p ((us i).modify p)) }) ∨
    ∃ p new, s.phase i = .modified p new ∧
      s' = ⟨setKey Proc.pid ((us i).target k) new s.list,
        update s.phase i (.done p new)⟩ := by
  obtain ⟨⟨l', ph⟩, hst, rfl⟩ := Option.map_eq_some_iff.mp hn
  cases hp : s.phase i with
  | start =>
    rw [hp] at hst
    obtain ⟨p, hf, hst⟩ := Option.bind_eq_some_iff.mp hst
    split at hst <;> cases hst
    exact .inl ⟨p, rfl, hf, rfl⟩
  | copied p =>
    rw [hp] at hst
    cases hst
    exact .inr (.inl ⟨p, rfl, rfl⟩)
  | modified p new =>
    rw [hp] at hst
    obtain ⟨l1, hl, hst⟩ := Option.bind_eq_some_iff.mp hst
    cases hst
    cases hsl : s.list with
    | nil => rw [hsl] at hl; cases hl
    | cons a l2 =>
      rw [hsl] at hl
      cases hl
      exact .inr (.inr ⟨p, new, rfl, rfl⟩)
  | done p new =>
    rw [hp] at hst
    cases hst

/-- Every updater passes the process that it copied. -/
def NoReparent (us : Bool → Updater) : Prop := ∀ i, (us i).isReparent = false

theorem NoReparent.target (h : NoReparent us) (i : Bool) : (us i).target k = k := by
  have := h i
  cases hu : us i <;> simp_all [Updater.isReparent, Updater.target]

theorem Shape.step {B : Prop} (hu : NoReparent us) (hk : k ∈ l.map Proc.pid)
    (hq : l.find? (·.pid = k) = some q) (h : Shape k us l q B s)
    (hn : (updates k us).next s i = some s') : Shape k us l q (B ∨ ¬ Apart s i) s' := by
  have hqk : q.pid = k := by simpa using find?_some hq
  have hapart : s.phase i ≠ .start → (B ∨ ¬ Apart s i ↔ B) := fun hne =>
    or_iff_left (not_not.mpr fun h => absurd h hne)
  have hii : i ≠ !i := by cases i <;> decide
  have hcase : ∀ j, j = i ∨ j = !i := by intro j; cases i <;> cases j <;> decide
  have hmk : ∀ j, ((us j).modify q).pid = k := fun j => ((us j).modify_pid q).trans hqk
  cases h with
  | zero hl hp hB =>
    rcases next_cases hn with ⟨p, hs, hf, rfl⟩ | ⟨p, hs, rfl⟩ | ⟨p, new, hs, rfl⟩
    · -- the copy of `i`: it overlaps if the other updater is open
      obtain rfl : q = p := by rw [hl, hq] at hf; exact Option.some.inj hf
      refine .zero hl (fun j => ?_) ?_
      · rcases hcase j with rfl | rfl
        · exact .inr (.inl (update_self ..))
        · simpa [hii.symm] using hp (!i)
      · have hB' : ¬ B := fun hb => hB.mp hb i hs
        have hopen : (s.phase !i).isOpen = false ↔ s.phase (!i) = .start := by
          rcases hp (!i) with h | h | h <;> simp [h, Phase.isOpen]
        simp only [Apart, hs, hB', false_or, forall_const, hopen]
        constructor
        · intro hne j
          rcases hcase j with rfl | rfl
          · simp
          · simpa [hii.symm] using hne
        · intro hall
          simpa [hii.symm] using hall (!i)
    · obtain rfl : q = p := by
        rcases hp i with h | h | h <;> rw [hs] at h <;> cases h
        rfl
      refine .congr (.zero hl (fun j => ?_) (hB.trans ?_)) (hapart (by simp [hs])).symm
      · rcases hcase j with rfl | rfl
        · exact .inr (.inr (update_self ..))
        · simpa [hii.symm] using hp (!i)
      · refine forall_congr' fun j => ?_
        rcases hcase j with rfl | rfl
        · simp [hs]
        · simp [hii.symm]
    · obtain ⟨rfl, rfl⟩ : q = p ∧ (us i).modify q = new := by
        rcases hp i with h | h | h <;> rw [hs] at h <;> cases h
        exact ⟨rfl, rfl⟩
      have hB' : B ↔ s.phase (!i) ≠ .start := by
        rw [hB]
        refine ⟨fun h => h _, fun h j => ?_⟩
        rcases hcase j with rfl | rfl
        · simp [hs]
        · exact h
      refine .congr ?_ (hapart (by simp [hs])).symm
      have hl' : setKey Proc.pid ((us i).target k) ((us i).modify q) s.list =
          setKey Proc.pid k ((us i).modify q) l := by rw [hu.target, hl]
      rcases hp (!i) with h | h | h
      · refine .one i hl' (update_self ..) (by simpa [hii.symm] using h) ?_
        exact fun hb => hB'.mp hb h
      · exact .half i q hl' (update_self ..) (.inl (by simpa using h))
          (.inl ⟨hB'.mpr (by simp [h]), rfl⟩)
      · exact .half i q hl' (update_self ..) (.inr (by simpa using h))
          (.inl ⟨hB'.mpr (by simp [h]), rfl⟩)
  | one j hl hj hs hB =>
    obtain rfl : i = !j := by
      rcases hcase j with rfl | rfl
      · rcases next_cases hn with ⟨p, h, -⟩ | ⟨p, h, -⟩ | ⟨p, new, h, -⟩ <;> rw [hj] at h <;>
          cases h
      · simp
    have hnB : ¬ (B ∨ ¬ Apart s (!j)) := by
      rintro (hb | ha)
      · exact hB hb
      · exact ha fun _ => by simp [hj, Phase.isOpen]
    rcases next_cases hn with ⟨p, h, hf, rfl⟩ | ⟨p, h, -⟩ | ⟨p, new, h, -⟩
    · obtain rfl : (us j).modify q = p := by
        rw [hl, find?_setKey (hmk j) hk] at hf
        exact Option.some.inj hf
      exact .half j _ hl (by simpa using hj) (.inl (by simp)) (.inr ⟨hnB, rfl⟩)
    · rw [hs] at h; cases h
    · rw [hs] at h; cases h
  | half j x hl hj hs hx =>
    obtain rfl : i = !j := by
      rcases hcase j with rfl | rfl
      · rcases next_cases hn with ⟨p, h, -⟩ | ⟨p, h, -⟩ | ⟨p, new, h, -⟩ <;> rw [hj] at h <;>
          cases h
      · simp
    have hne : s.phase (!j) ≠ .start := by rcases hs with h | h <;> simp [h]
    refine .congr ?_ (hapart hne).symm
    rcases next_cases hn with ⟨p, h, -⟩ | ⟨p, h, rfl⟩ | ⟨p, new, h, rfl⟩
    · exact absurd h hne
    · obtain rfl : x = p := by
        rcases hs with h' | h' <;> rw [h] at h' <;> cases h'
        rfl
      exact .half j x hl (by simpa using hj) (.inr (by simp)) hx
    · refine .two fun m => ?_
      rcases hcase m with rfl | rfl
      · exact ⟨p, new, by simp⟩
      · exact ⟨_, _, by simpa using hj⟩
  | two h =>
    obtain ⟨p, new, hd⟩ := h i
    rcases next_cases hn with ⟨p, hs, -⟩ | ⟨p, hs, -⟩ | ⟨p, new, hs, -⟩ <;> rw [hd] at hs <;>
        cases hs

theorem Shape.run (hu : NoReparent us) (hk : k ∈ l.map Proc.pid)
    (hq : l.find? (·.pid = k) = some q) : ∀ {ls : List Bool} {s s' : St} {B : Prop},
      Shape k us l q B s → (updates k us).run s ls = some s' →
      Shape k us l q (B ∨ ¬ (updates k us).Meets Apart s ls) s'
  | [], s, s', B, h, hr => by
    cases hr
    exact h.congr (by simp [Machine.Meets])
  | i :: ls, s, s', B, h, hr => by
    obtain ⟨s1, hn, hr⟩ := Machine.run_cons.mp hr
    refine (Shape.run hu hk hq (h.step hu hk hq hn) hr).congr ?_
    rw [Machine.meets_cons hn, not_and_or, or_assoc]

/-- The versions that an updater holds have the pid `k`. -/
def Phase.PidOk (k : Int) : Phase → Prop
  | .copied p => p.pid = k
  | .modified _ new => new.pid = k
  | _ => True

def Phase.isDone : Phase → Bool
  | .done _ _ => true
  | _ => false

/-- The pids along a run: unchanged until `reparent` publishes, and then the process `k` has two
nodes. -/
structure Pids (k : Int) (us : Bool → Updater) (l : List Proc) (s : St) : Prop where
  phases : ∀ i, (s.phase i).PidOk k
  pids : s.list.map Proc.pid = l.map Proc.pid ∧
      (∀ i, (s.phase i).isDone = true → (us i).isReparent = false) ∨
    1 < (s.list.map Proc.pid).count k

/-- `reparent` is called for another process, which is on the list. -/
def ExitingListed (k : Int) (us : Bool → Updater) (l : List Proc) : Prop :=
  ∀ i, (us i).isReparent = true → (us i).target k ≠ k ∧ (us i).target k ∈ l.map Proc.pid

theorem forall_phase {P : Bool → Phase → Prop} (h : ∀ j, P j (s.phase j)) {ph : Phase}
    (hi : P i ph) (j : Bool) : P j (update s.phase i ph j) := by
  by_cases hji : j = i
  · subst hji; rwa [update_self]
  · rw [update_of_ne hji]; exact h j

theorem Pids.step (he : ExitingListed k us l) (hk : k ∈ l.map Proc.pid) (h : Pids k us l s)
    (hn : (updates k us).next s i = some s') : Pids k us l s' := by
  have hdone : (∀ j, (s.phase j).isDone = true → (us j).isReparent = false) →
      ∀ ph : Phase, (ph.isDone = true → (us i).isReparent = false) →
      ∀ j, (update s.phase i ph j).isDone = true → (us j).isReparent = false :=
    fun h _ hi => forall_phase (P := fun j ph => ph.isDone = true → (us j).isReparent = false) h hi
  rcases next_cases hn with ⟨p, hs, hf, rfl⟩ | ⟨p, hs, rfl⟩ | ⟨p, new, hs, rfl⟩
  · have hp : p.pid = k := by simpa using find?_some hf
    exact ⟨forall_phase (P := fun _ ph => ph.PidOk k) h.phases hp,
      h.pids.imp_left fun ⟨hl, hr⟩ => ⟨hl, hdone hr _ nofun⟩⟩
  · have hp : p.pid = k := by have := h.phases i; rwa [hs] at this
    exact ⟨forall_phase (P := fun _ ph => ph.PidOk k) h.phases (((us i).modify_pid p).trans hp),
      h.pids.imp_left fun ⟨hl, hr⟩ => ⟨hl, hdone hr _ nofun⟩⟩
  · have hnew : new.pid = k := by have := h.phases i; rwa [hs] at this
    refine ⟨forall_phase (P := fun _ ph => ph.PidOk k) h.phases trivial, ?_⟩
    rcases h.pids with ⟨hp, hr⟩ | hc
    · cases hu : (us i).isReparent
      · have ht : (us i).target k = k := by
          cases hui : us i <;> simp_all [Updater.isReparent, Updater.target]
        exact .inl ⟨by rw [ht, map_setKey hnew, hp], hdone hr _ fun _ => hu⟩
      · -- the exiting process's node gets the pid `k`
        obtain ⟨hne, hm⟩ := he i hu
        have hlt := count_lt_setKey hnew hne (by rw [hp]; exact hm)
        have hpos : 0 < (s.list.map Proc.pid).count k := by
          rw [hp]
          exact count_pos_iff.mpr hk
        exact .inr (lt_of_le_of_lt hpos hlt)
    · exact .inr (lt_of_lt_of_le hc (count_le_setKey hnew))

/-- The updater `j` has published last, from its copy `x`, and `!j` from its copy `q`: what is left
to check is that `x` has the values that `!j` alone wrote. -/
theorem carried_of_done {j : Bool} {x : Proc} {list : List Proc} (hd : (l.map Proc.pid).Nodup)
    (hk : k ∈ l.map Proc.pid) (hx : ((us j).modify x).pid = k)
    (hl : list = setKey Proc.pid k ((us j).modify x) l)
    (hi : s.phase (!j) = .done q ((us !j).modify q)) (hjj : j ≠ !j) :
    Carried k us ⟨list, update s.phase j (.done x ((us j).modify x))⟩ ↔
      ∀ f, (us !j).writes q f = true → (us j).writes x f = false →
        f.Same x ((us !j).modify q) := by
  have hi' : update s.phase j (.done x ((us j).modify x)) (!j) =
      .done q ((us !j).modify q) := by rw [update_of_ne hjj.symm, hi]
  have hfind : list.find? (·.pid = k) = some ((us j).modify x) := by rw [hl, find?_setKey hx hk]
  have hcount : (list.map Proc.pid).count k = 1 := by
    rw [hl, map_setKey hx]
    exact count_eq_one_of_mem hd hk
  constructor
  · rintro ⟨p, hp, -, hf⟩ f hw hw'
    obtain rfl := hp _ (mem_of_find?_eq_some hfind) hx
    have := hf (!j) q _ x _ hi' (by rw [Bool.not_not]; exact update_self ..) f hw
      (by rw [Bool.not_not]; exact hw')
    exact (Updater.same_modify hw').symm.trans this
  · intro h
    refine ⟨_, fun p hp hpk => eq_of_find? hcount.le hfind hp hpk, hcount,
      fun i old new old' new' h1 h2 f hw hw' => ?_⟩
    have hcase : i = j ∨ i = !j := by cases i <;> cases j <;> decide
    dsimp only at h1 h2
    rcases hcase with rfl | rfl
    · rw [update_self] at h1
      cases h1
      exact Field.Same.refl _ f
    · rw [hi'] at h1
      rw [Bool.not_not, update_self] at h2
      cases h1
      cases h2
      rw [Bool.not_not] at hw'
      exact (Updater.same_modify hw').trans (h f hw hw')

/-- **No lost update.** From a list with distinct pids, let two updaters of the process `k` run in
any order of their steps until both have finished, `j` being the last to publish. The process's node
carries what both wrote exactly when neither is `reparent` and either no updater copied between the
copy and the publication of the other, or the first to publish changed nothing of its own. -/
theorem carried_iff {ls : List Bool} {j : Bool} (hd : (l.map Proc.pid).Nodup)
    (hq : l.find? (·.pid = k) = some q) (he : ExitingListed k us l)
    (hr : (updates k us).run { list := l } (ls ++ [j]) = some s)
    (hf : ∀ i, (s.phase i).isDone = true) :
    Carried k us s ↔ NoReparent us ∧
      ((updates k us).Meets Apart { list := l } (ls ++ [j]) ∨ Redundant q (us !j) (us j)) := by
  have hqk : q.pid = k := by simpa using find?_some hq
  have hk : k ∈ l.map Proc.pid := mem_map.mpr ⟨q, mem_of_find?_eq_some hq, hqk⟩
  have hstart : Pids k us l { list := l } := ⟨fun _ => trivial, .inl ⟨rfl, nofun⟩⟩
  have hpids : Pids k us l s := Machine.run_inv_all (fun h hn => h.step he hk hn) hstart hr
  by_cases hu : NoReparent us
  · obtain ⟨s₁, hr₁, hlast⟩ := Machine.run_append.mp hr
    obtain ⟨s₂, hn, hr₂⟩ := Machine.run_cons.mp hlast
    cases hr₂
    have hjj : j ≠ !j := by cases j <;> decide
    have hcase : ∀ i, i = j ∨ i = !j := by intro i; cases i <;> cases j <;> decide
    have hzero : Shape k us l q False { list := l } :=
      .zero rfl (fun _ => .inl rfl) (iff_of_false id fun h => h true rfl)
    have hsh := (Shape.run hu hk hq hzero hr₁).congr (by rw [false_or])
    rcases next_cases hn with ⟨p, hs, -, rfl⟩ | ⟨p, hs, rfl⟩ | ⟨p, new, hs, rfl⟩
    · have := hf j; simp [Phase.isDone] at this
    · have := hf j; simp [Phase.isDone] at this
    have hother := hf (!j)
    cases hsh with
    | zero _ hp => rcases hp (!j) with h | h | h <;> simp [h, Phase.isDone] at hother
    | one i _ hi hj =>
      rcases hcase i with rfl | rfl
      · rw [hs] at hi; cases hi
      · rw [Bool.not_not, hs] at hj; cases hj
    | half i x hl hi hj hx =>
      obtain rfl : i = !j := by
        rcases hcase i with rfl | rfl
        · rw [hs] at hi; cases hi
        · rfl
      rw [Bool.not_not] at hj
      obtain ⟨rfl, rfl⟩ : p = x ∧ new = (us j).modify x := by
        rcases hj with h | h <;> rw [hs] at h <;> cases h
        exact ⟨rfl, rfl⟩
      have hxk : ((us j).modify p).pid = k := by
        rw [Updater.modify_pid]
        rcases hx with ⟨-, rfl⟩ | ⟨-, rfl⟩
        · exact hqk
        · exact (Updater.modify_pid _ _).trans hqk
      have hlist : setKey Proc.pid ((us j).target k) ((us j).modify p) s₁.list =
          setKey Proc.pid k ((us j).modify p) l := by
        rw [hu.target, hl, setKey_setKey ((Updater.modify_pid _ _).trans hqk)]
      have hm : (updates k us).Meets Apart { list := l } (ls ++ [j]) ↔
          (updates k us).Meets Apart { list := l } ls := by
        rw [Machine.meets_append hr₁]
        exact and_iff_left ⟨fun h => (by rw [hs] at h; cases h), fun _ _ => trivial⟩
      rw [carried_of_done hd hk hxk hlist hi hjj, hm, and_iff_right hu]
      rcases hx with ⟨hB, rfl⟩ | ⟨hB, rfl⟩
      · rw [or_iff_right hB]
        exact forall_congr' fun f => imp_congr_right fun _ => imp_congr_right fun _ =>
          ⟨Field.Same.symm, Field.Same.symm⟩
      · exact iff_of_true (fun f _ _ => Field.Same.refl _ f) (.inl (not_not.mp hB))
    | two h => obtain ⟨p', new', h⟩ := h j; rw [hs] at h; cases h
  · -- a `reparent` has published, so the process has two nodes
    refine iff_of_false ?_ fun h => hu h.1
    rintro ⟨p, -, hc, -⟩
    rcases hpids.pids with ⟨-, hrep⟩ | hc'
    · exact hu fun i => hrep i (hf i)
    · omega

/-- The scheduler publishes before `kill` copies: both updates are there. -/
theorem carried_iff_serial : ∃ s, (updates 2 killScheduler).run { list := twoProcs }
      ([true, true, true, false, false] ++ [false]) = some s ∧
    s.list.map (fun p => (p.pid, p.state, p.killed)) =
      [(2, .running, 1), (1, .sleeping, 0)] ∧ Carried 2 killScheduler s := by
  have h : ((updates 2 killScheduler).run { list := twoProcs }
      ([true, true, true, false, false] ++ [false])).map (fun s =>
      (s.list.map fun p => (p.pid, p.state, p.killed), (s.phase false).isDone,
        (s.phase true).isDone)) =
      some ([(2, .running, 1), (1, .sleeping, 0)], true, true) := by decide +kernel
  obtain ⟨s, hs, h⟩ := Option.map_eq_some_iff.mp h
  simp only [Prod.mk.injEq] at h
  have hf : ∀ i, (s.phase i).isDone = true := by
    intro i
    cases i
    · exact h.2.1
    · exact h.2.2
  have hu : NoReparent killScheduler := by
    intro i
    cases i <;> rfl
  have hq : twoProcs.find? (·.pid = 2) = some { pid := 2, uid := 1, state := .runnable } := rfl
  refine ⟨s, hs, h.1, (carried_iff (by decide) hq (fun i hi => ?_) hs hf).mpr
    ⟨hu, .inl (by decide +kernel)⟩⟩
  rw [hu i] at hi
  cases hi

end Xv6.Update
