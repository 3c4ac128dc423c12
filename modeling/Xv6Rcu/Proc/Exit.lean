import Xv6Rcu.Proc.KStack

/-!
# `exit`

`exit(status)` of a process without children should leave a faithful zombie (`ExitFaithful`): the
same process in its place on the list, without open files; the files closed, one reference to the
working directory dropped, the parent woken if it is in `wait`, and nothing else changed.

- **The defect** (`exit_waitingParent`): `exit` goes on with the `p` that `closeFile` has replaced
  and cleared. `p->cwd` is `NULL` then, and `iput(NULL)` is a page fault in the kernel.
- **It is never right** (`exit_unfaithful`): whatever the list, the files and the directory are,
  `exit` closes the files and stops at `iput` (`Leaving.exit_eq`).
-/

namespace Xv6.Seq

open Lib

/-! ## The property -/

/-- The process with the struct `p` at the node `b` runs on the CPU `c` and calls `exit`. It is not
`init`, it has the working directory `d` and no children. -/
structure Leaving (c : CpuId) (b p d : Addr) (s : Kernel) : Prop extends Listed s where
  listed : b ∈ s.list
  process : s.process b = some p
  current : s.cpuProc c = some p
  notInit : s.initproc ≠ some p
  cwd : (s.procs p).cwd = some d
  childless : ∀ a ∈ s.list, (s.proc a).pUid ≠ (s.procs p).uid

/-- `v'` is the zombie of `v`. -/
structure IsZombie (status : Int) (v v' : Proc) : Prop where
  pid : v'.pid = v.pid
  uid : v'.uid = v.uid
  pUid : v'.pUid = v.pUid
  nKStack : v'.nKStack = v.nKStack
  pagetable : v'.pagetable = v.pagetable
  trapframe : v'.trapframe = v.trapframe
  state : v'.state = .zombie
  xstate : v'.xstate = status
  ofile : v'.ofile = Vector.replicate NOFILE none

/-- `w` is the parent of `v` and sleeps in `wait`. -/
def InWait (v w : Proc) : Prop := w.uid = v.pUid ∧ w.state = .sleeping ∧ w.chan = w.uid

instance (v w : Proc) : Decidable (InWait v w) := inferInstanceAs (Decidable (_ ∧ _))

/-- What becomes of the listed process `w` when the process `v` exits. -/
def Becomes (status : Int) (v w w' : Proc) : Prop :=
  if w.pid = v.pid then IsZombie status v w'
  else if InWait v w then w' = Sleep.runnable w
  else w' = w

/-- `exit(status)` of the process with the struct `p` and the working directory `d` comes to its
`sched()` and has done what it should. -/
def ExitFaithful (c : CpuId) (p d : Addr) (status : Int) (s : Kernel) : Prop :=
  Returns (exit c status) s fun _ s' =>
    List.Forall₂ (Becomes status (s.procs p)) (s.list.map s.proc) (s'.list.map s'.proc) ∧
    ∃ cs, s'.calls = s.calls ++ cs ∧
      cs.Perm ((s.procs p).ofile.toList.reduceOption.map .fileclose ++ [.iput d])

/-! ## The defect -/

/-- `init`, a process (pid 2) that waits, and its child (pid 3) with the file 9 and the working
directory 7, which runs on CPU 0. -/
def waitingParent : Kernel where
  list := [4, 2, 0]
  process := fun a => if a % 2 = 0 then some (a + 1) else none
  procs := fun p =>
    if p = 1 then { pid := 1, uid := 0, pUid := -1, state := .runnable }
    else if p = 3 then { pid := 2, uid := 1, pUid := -1, state := .sleeping, chan := 1 }
    else if p = 5 then { pid := 3, uid := 2, pUid := 1, state := .running, cwd := some 7,
                         ofile := (Vector.replicate NOFILE none).set 0 (some 9) }
    else {}
  cpuProc := fun c => if c = 0 then some 5 else none
  initproc := some 1
  nextpid := 4
  uniqueId := 3
  fresh := 6
  live := [0, 1, 2, 3, 4, 5]

/-- Why a call stopped, what it has called, and the pids and the states on the list then. -/
def stopped : EStateM.Result Stop Kernel Unit → Option (Stop × List Call × List (Int × ProcState))
  | .ok _ _ => none
  | .error e s => some (e, s.calls, s.list.map fun a => ((s.proc a).pid, (s.proc a).state))

/-- The file is closed, and `iput` gets `NULL` in the place of the working directory: there is no
zombie, and the parent sleeps on. -/
theorem exit_waitingParent : Leaving 0 4 5 7 waitingParent ∧
    stopped (exit 0 3 waitingParent) =
      some (.fault, [.fileclose 9], [(3, .running), (2, .sleeping), (1, .runnable)]) ∧
    ¬ ExitFaithful 0 5 7 3 waitingParent := by
  have h : stopped (exit 0 3 waitingParent) =
      some (.fault, [.fileclose 9], [(3, .running), (2, .sleeping), (1, .runnable)]) := by
    decide +kernel
  refine ⟨⟨⟨by decide, fun a ha => ⟨a + 1, ?_⟩, by decide⟩, by decide, by decide, by decide,
    by decide, by decide, by decide⟩, h, ?_⟩
  · revert a
    decide
  · rintro ⟨_, s', hx, -⟩
    rw [hx] at h
    cases h

section
variable {s s' : Kernel} {a b p q d : Addr} {c : CpuId} {l1 l2 : List Addr} {w : Proc}

/-! ## `closeFile` and `exit` -/

/-- The calls that close the files of the process. -/
def closes (v : Proc) : List Call := v.ofile.toList.reduceOption.map .fileclose

/-- The state in which `closeFile(p)` publishes the new version, without files. -/
def Kernel.closing (s : Kernel) (p : Addr) : Kernel :=
  { s.drafted (s.procs p) with
    calls := s.calls ++ closes (s.procs p)
    procs := Function.update (s.drafted (s.procs p)).procs (s.fresh + 1)
      { (s.drafted (s.procs p)).procs (s.fresh + 1) with ofile := Vector.replicate NOFILE none } }

theorem Listed.closing (h : Listed s) (p : Addr) : Listed (s.closing p) := by
  refine h.congr rfl (fun _ ha => process_drafted (s.procs p) ha) (fun q hq => ?_)
    (Nat.le_add_right _ 2)
  exact (Function.update_of_ne (Nat.ne_of_lt (Nat.lt_succ_of_lt hq)) _ _).trans
    (procs_drafted (s.procs p) hq)

theorem Leaving.closeFile_eq (h : Leaving c b p d s) (hl : s.list = l1 ++ b :: l2) :
    closeFile p s =
      .ok (s.fresh + 1) (((s.closing p).replaced l1 b s.fresh l2).reclaimed b p) := by
  have hpb := (process_drafted (s.procs p) (h.node b h.listed)).trans h.process
  refine (bind_of_ok rfl).trans ((bind_of_ok (newNode_eq _)).trans ?_)
  refine (bind_of_ok (calls_eq _ _)).trans ((bind_of_ok rfl).trans ?_)
  refine (bind_of_ok ((h.toListed.closing p).listUpdateRcu_eq hl hpb s.fresh)).trans ?_
  refine (bind_of_ok (reclaim_eq (s := (s.closing p).replaced l1 b s.fresh l2) hpb)).trans rfl

/-- The struct that `p` points to is clear when `exit` passes its `cwd` to `iput`. -/
theorem Leaving.exit_eq (h : Leaving c b p d s) (hl : s.list = l1 ++ b :: l2) (status : Int) :
    exit c status s = .error .fault
      { ((s.closing p).replaced l1 b s.fresh l2).reclaimed b p with
        cpuProc := Function.update s.cpuProc c (some (s.fresh + 1)) } := by
  have hmy : (do deref (← myproc c) : KernelM Addr) s = .ok p s :=
    (bind_of_ok rfl).trans (by rw [h.current]; rfl)
  have hcwd : ((((s.closing p).replaced l1 b s.fresh l2).reclaimed b p).procs p).cwd = none := by
    simp [Kernel.reclaimed]
  refine (bind_of_ok hmy).trans ((bind_of_ok rfl).trans
    ((congrFun (if_neg (Ne.symm h.notInit)) s).trans ?_))
  refine (bind_of_ok (h.closeFile_eq hl)).trans ((bind_of_ok rfl).trans ((bind_of_ok rfl).trans ?_))
  simp only [hcwd]
  rfl

/-- **`exit` is never right**: the reference to the working directory is not dropped. -/
theorem exit_unfaithful (c : CpuId) (b p d : Addr) (status : Int) (s : Kernel)
    (h : Leaving c b p d s) : ¬ ExitFaithful c p d status s := by
  obtain ⟨l1, l2, hl⟩ := List.append_of_mem h.listed
  rintro ⟨_, s', hx, -⟩
  cases hx.symm.trans (h.exit_eq hl status)

end

/-- `init` and its child with a working directory, which runs on CPU 0. -/
def oneProcess : Kernel where
  list := [2, 0]
  process := fun a => if a % 2 = 0 then some (a + 1) else none
  procs := fun p =>
    if p = 1 then { pid := 1, uid := 0, pUid := -1, state := .runnable }
    else if p = 3 then { pid := 2, uid := 1, pUid := 0, state := .running, cwd := some 7 }
    else {}
  cpuProc := fun c => if c = 0 then some 3 else none
  initproc := some 1
  nextpid := 3
  uniqueId := 2
  fresh := 4
  live := [0, 1, 2, 3]

theorem exit_unfaithful_oneProcess :
    Leaving 0 2 3 7 oneProcess ∧ ¬ ExitFaithful 0 3 7 1 oneProcess := by
  have h : Leaving 0 2 3 7 oneProcess := by
    refine ⟨⟨by decide, fun a ha => ⟨a + 1, ?_⟩, by decide⟩, by decide, by decide, by decide,
      by decide, by decide, by decide⟩
    revert a
    decide
  exact ⟨h, exit_unfaithful 0 2 3 7 1 oneProcess h⟩

end Xv6.Seq
