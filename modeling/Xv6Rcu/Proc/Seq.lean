import Xv6Rcu.Lib.Triple
import Xv6Rcu.Proc.Versions
import Xv6Rcu.Mem.Kalloc

/-!
# `proc.c`, one call at a time

The functions of `proc.c` over the process list and the blocks of the kernel heap, each run without
interference up to its `swtch`. `sleep` and `scheduler` are in two halves, before and behind it.

- A `t_node` and a `struct proc` are two blocks of `knmalloc`, at addresses that were never used
  before. A fresh block has the contents that its memory happens to have: `process` and `procs` at
  addresses that are not in use yet.
- `list` are the nodes on `process_list`. An unlinked node keeps its `next` (`stale`). The three
  list operations are one step each.
- `live` and `freed` are the blocks in use and those that were passed to `knfree`; `unlinked` are
  the nodes that the list operations took off the list, with their `process`. No function reads
  them.
- `calls` are the calls to other parts of the kernel that change something there. What such a call
  returns is an input (`Env`).
- The spinlocks, `synchronize_rcu` and the interrupt flags do nothing when one call runs at a time.
-/

namespace Xv6.Seq

open Sleep (after asleep awake runnable running)

/-! ## The state -/

/-- Why a call does not return. -/
inductive Stop where
  | panic (msg : String)
  /-- `NULL` is dereferenced. -/
  | fault
  /-- `ptr_node_to_free` is used and was never assigned, as `list_update_rcu` has found no node. -/
  | garbage
  /-- A loop does not end. -/
  | spin
  deriving DecidableEq

/-- The calls to other parts of the kernel. -/
inductive Call where
  | kfree (pa : Ptr)
  | freePagetable (pagetable : Ptr) (sz : Nat)
  | filedup (f : Addr)
  | fileclose (f : Addr)
  | idup (ip : Ptr)
  | iput (ip : Addr)
  deriving DecidableEq

structure Kernel where
  list : List Addr
  stale : Addr → Ptr := fun _ => none
  /-- The `process` field of a node. -/
  process : Addr → Ptr
  procs : Addr → Proc
  cpuProc : CpuId → Ptr := fun _ => none
  /-- `ptr_node_to_free` of the scheduler of a CPU, while a process runs there. -/
  toFree : CpuId → Ptr := fun _ => none
  initproc : Ptr := none
  nextpid : Int := 1
  uniqueId : Int := 0
  /-- The kernel stacks that are taken. -/
  bitmap : Int → Bool := fun _ => false
  fresh : Addr
  live : List Addr
  freed : List Addr := []
  unlinked : List (Addr × Ptr) := []
  calls : List Call := []

/-- What the functions of other files return in a call; `forkret` is an address in the kernel. -/
structure Env where
  kalloc : Ptr
  procPagetable : Ptr
  /-- `uvmcopy` and `copyout` return 0. -/
  uvmcopy : Bool := true
  copyout : Bool := true
  uvmalloc : Ptr → Nat → Nat → Nat := fun _ _ newsz => newsz
  uvmdealloc : Ptr → Nat → Nat → Nat := fun _ _ newsz => newsz
  forkret : BitVec 64 := 0

abbrev KernelM := EStateM Stop Kernel

namespace Kernel

/-- `a->next`. -/
def next (s : Kernel) (a : Addr) : Ptr := if a ∈ s.list then after a s.list else s.stale a

end Kernel

def deref : Ptr → KernelM Addr
  | some a => pure a
  | none => throw .fault

def load (p : Addr) : KernelM Proc := return (← get).procs p

def store (p : Addr) (v : Proc) : KernelM Unit :=
  modify fun s => { s with procs := Function.update s.procs p v }

def modifyProc (p : Addr) (f : Proc → Proc) : KernelM Unit := do store p (f (← load p))

/-- `a->process`, to be dereferenced. -/
def processOf (a : Addr) : KernelM Addr := do deref ((← get).process a)

def call (x : Call) : KernelM Unit := modify fun s => { s with calls := s.calls ++ [x] }

def myproc (c : CpuId) : KernelM Ptr := return (← get).cpuProc c

/-- `mycpu()->proc = p`. -/
def setCpuProc (c : CpuId) (p : Ptr) : KernelM Unit :=
  modify fun s => { s with cpuProc := Function.update s.cpuProc c p }

/-! ## Blocks -/

def knmalloc : KernelM Addr :=
  modifyGet fun s => (s.fresh, { s with fresh := s.fresh + 1, live := s.fresh :: s.live })

def knfree (a : Addr) : KernelM Unit :=
  modify fun s => { s with live := s.live.erase a, freed := a :: s.freed }

def setProcess (a p : Addr) : KernelM Unit :=
  modify fun s => { s with process := Function.update s.process a (some p) }

/-- A new node with a new `struct proc`, that is the copy `v`. -/
def newNode (v : Proc) : KernelM (Addr × Addr) := do
  let new ← knmalloc
  let p ← knmalloc
  setProcess new p
  store p v
  return (new, p)

/-! ## `list_proc.c` -/

def listAddRcu (a : Addr) : KernelM Unit := modify fun s => { s with list := a :: s.list }

/-- The first of the nodes whose process has the pid `k`. -/
def findPid (k : Int) : List Addr → KernelM (Option Addr)
  | [] => return none
  | a :: l => do
    let p ← processOf a
    if (← load p).pid = k then return some a else findPid k l

/-- Take the node `old` off the list; it keeps its `next`. -/
def unlink (old : Addr) (list : List Addr) : KernelM Unit :=
  modify fun s => { s with
    list
    stale := Function.update s.stale old (s.next old)
    unlinked := (old, s.process old) :: s.unlinked }

/-- The displaced node (`*ptr_to_free`), if there is one. -/
def listUpdateRcu (new q : Addr) : KernelM (Option Addr) := do
  let s ← get
  if s.list = [] then throw .fault
  match ← findPid (s.procs q).pid s.list with
  | some old =>
    unlink old (s.list.replace old new)
    return some old
  | none => return none

def listDelRcu (a : Addr) : KernelM Unit := do
  let s ← get
  if s.list = [] then throw (.panic "list_del_rcu")
  if a ∈ s.list then unlink a (s.list.erase a)

/-! ## `allocproc` and `freeproc` -/

def MAXVA : Nat := 2 ^ (9 + 9 + 9 + 12 - 1)

def TRAMPOLINE : Nat := MAXVA - PGSIZE

def KSTACK (n : Nat) : Nat := TRAMPOLINE - (n + 1) * 2 * PGSIZE

def allocpid : KernelM Int :=
  modifyGet fun s => (s.nextpid, { s with nextpid := s.nextpid + 1 })

/-- The first free kernel stack. -/
def allocKStack : KernelM Nat := do
  let s ← get
  match (List.range NPROC).find? fun n : Nat => !s.bitmap n with
  | some n =>
    modify fun s => { s with bitmap := Function.update s.bitmap n true }
    return n
  | none => throw (.panic "kernelstack overflow")

/-- `context.ra` and `context.sp` of a process that has never run. -/
def firstContext (e : Env) (n : Nat) : Context := fun
  | .ra => e.forkret
  | .sp => BitVec.ofNat 64 (KSTACK n + PGSIZE)
  | _ => 0

def allocproc (e : Env) : KernelM (Option Addr) := do
  let p ← knmalloc
  let pid ← allocpid
  modifyProc p fun v => { v with pid, state := .used }
  let uid := (← get).uniqueId
  modify fun s => { s with uniqueId := s.uniqueId + 1 }
  modifyProc p fun v => { v with uid, pUid := -1 }
  let n ← allocKStack
  modifyProc p fun v => { v with nKStack := n, lock := {}, kstack := KSTACK n }
  let some trapframe := e.kalloc
    | do
      knfree p
      return none
  modifyProc p fun v => { v with trapframe := some trapframe }
  let some pagetable := e.procPagetable
    | do
      knfree p
      return none
  modifyProc p fun v => { v with
    pagetable := some pagetable
    context := firstContext e n
    ofile := Vector.replicate NOFILE none
    killed := 0
    chan := 0
    parent := none
    xstate := 0
    cwd := none }
  return some p

/-- `flag = 1`: also the trapframe, the user memory and the kernel stack. -/
def freeproc (p : Addr) (flag : Bool) : KernelM Unit := do
  let v ← load p
  if flag then
    if v.trapframe.isSome then call (.kfree v.trapframe)
    if v.pagetable.isSome then call (.freePagetable v.pagetable v.sz)
    modify fun s => { s with bitmap := Function.update s.bitmap v.nKStack false }
  store p {}

/-- `freeproc(old->process, 0); knfree(old);` -/
def reclaim (old : Addr) : KernelM Unit := do
  freeproc (← processOf old) false
  knfree old

/-! ## `fork` and `growproc` -/

def fork (c : CpuId) (e : Env) : KernelM Int := do
  let p ← deref (← myproc c)
  let process ← load p
  let some np ← allocproc e
    | return -1
  if !e.uvmcopy then
    freeproc np false
    return -1
  modifyProc np fun v => { v with sz := process.sz }
  for f in process.ofile.toList.reduceOption do
    call (.filedup f)
  call (.idup process.cwd)
  modifyProc np fun v => { v with ofile := process.ofile, cwd := process.cwd, name := process.name }
  let pid := (← load np).pid
  let pUid := (← load p).uid
  modifyProc np fun v => { v with parent := some p, pUid, state := .runnable }
  let node ← knmalloc
  setProcess node np
  listAddRcu node
  return pid

/-- `sz` is a 32-bit `uint`. -/
def growproc (c : CpuId) (n : Int) (e : Env) : KernelM Int := do
  let p ← deref (← myproc c)
  let v ← load p
  let (new, np) ← newNode v
  let sz := v.sz % 2 ^ 32
  let newsz := ((sz + n) % 2 ^ 32).toNat
  let r := if 0 < n then e.uvmalloc v.pagetable sz newsz % 2 ^ 32
    else if n < 0 then e.uvmdealloc v.pagetable sz newsz % 2 ^ 32
    else sz
  if 0 < n ∧ r = 0 then return -1
  modifyProc np fun v => { v with sz := r }
  let some old ← listUpdateRcu new p
    | throw (.panic "proc disappeared")
  reclaim old
  setCpuProc c (some np)
  return 0

/-! ## `sleep`, `wakeup`, `yield` and `kill` -/

/-- Up to `sched()`. -/
def sleep (c : CpuId) (chan : Chan) : KernelM Unit := do
  let p ← deref (← myproc c)
  let (new, np) ← newNode (asleep chan (← load p))
  let some old ← listUpdateRcu new p
    | throw .garbage
  reclaim old
  setCpuProc c (some np)

/-- From `sched()` on. -/
def woken (c : CpuId) : KernelM Unit := do
  let p ← deref (← myproc c)
  let (new, np) ← newNode (awake (← load p))
  let some old ← listUpdateRcu new p
    | throw (.panic "[SLEEP] List_update_rcu failed\n")
  reclaim old
  setCpuProc c (some np)

/-- The second traversal of `wakeup`, from the node `cur`. -/
def wakeupFrom (c : CpuId) (chan : Chan) : Nat → Ptr → KernelM Unit
  | _, none => return
  | 0, some _ => throw .spin
  | fuel + 1, some a => do
    let p ← processOf a
    let v ← load p
    if some p ≠ (← myproc c) ∧ v.state = .sleeping ∧ v.chan = chan then
      let (new, _) ← newNode (runnable v)
      let some old ← listUpdateRcu new p
        | throw .garbage
      reclaim old
    wakeupFrom c chan fuel ((← get).next a)

def wakeup (c : CpuId) (chan : Chan) : KernelM Unit := do
  let s ← get
  wakeupFrom c chan s.fresh s.list.head?

/-- Up to `sched()`. -/
def yield (c : CpuId) : KernelM Unit := do
  let p ← deref (← myproc c)
  let (new, np) ← newNode (runnable (← load p))
  if let some old ← listUpdateRcu new p then
    setCpuProc c (some np)
    reclaim old

/-- What `kill` writes. -/
def killed (v : Proc) : Proc :=
  { v with killed := 1, state := if v.state = .sleeping then .runnable else v.state }

/-- The loop of `kill`. Its new node has no `struct proc`: `process` is what the memory has. -/
def killFrom (pid : Int) : Nat → Ptr → KernelM Int
  | _, none => return -1
  | 0, some _ => throw .spin
  | fuel + 1, some a => do
    let p ← processOf a
    if (← load p).pid = pid then
      let new ← knmalloc
      let np ← processOf new
      store np (killed (← load p))
      let some old ← listUpdateRcu new p
        | throw .garbage
      reclaim old
      return 0
    else killFrom pid fuel ((← get).next a)

def kill (pid : Int) : KernelM Int := do
  let s ← get
  killFrom pid s.fresh s.list.head?

/-! ## `exit` and `wait` -/

/-- The loop of `reparent`: it passes `p`, not the child, to `list_update_rcu`. `ptr_node_to_free`
is declared outside the loop: where no node is found, it is still that of an earlier round
(`toFree`). -/
def reparentFrom (c : CpuId) (p : Addr) : Nat → Ptr → Ptr → KernelM Unit
  | _, _, none => return
  | 0, _, some _ => throw .spin
  | fuel + 1, toFree, some a => do
    let q ← processOf a
    let v ← load q
    if v.pUid = (← load p).uid then
      let (new, _) ← newNode { v with parent := (← get).initproc, pUid := 0 }
      let some old := (← listUpdateRcu new p).or toFree
        | throw .garbage
      reclaim old
      wakeup c (← load p).uid
      reparentFrom c p fuel (some old) ((← get).next a)
    else reparentFrom c p fuel toFree ((← get).next a)

def reparent (c : CpuId) (p : Addr) : KernelM Unit := do
  let s ← get
  reparentFrom c p s.fresh none s.list.head?

/-- The `struct proc` of the new version, without open files. -/
def closeFile (p : Addr) : KernelM Addr := do
  let v ← load p
  let (new, np) ← newNode v
  for f in v.ofile.toList.reduceOption do
    call (.fileclose f)
  modifyProc np fun v => { v with ofile := Vector.replicate NOFILE none }
  let some old ← listUpdateRcu new p
    | throw (.panic "[LOG closeFile] proc disappeared")
  reclaim old
  return np

/-- Up to `sched()`. -/
def exit (c : CpuId) (status : Int) : KernelM Unit := do
  let p ← deref (← myproc c)
  if some p = (← get).initproc then throw (.panic "init exiting")
  setCpuProc c (some (← closeFile p))
  -- `p` is still the version that `closeFile` has replaced; `iput` reads `ip->ref`
  let ip ← deref (← load p).cwd
  call (.iput ip)
  modifyProc p fun v => { v with cwd := none }
  reparent c p
  let p ← deref (← myproc c)
  wakeup c (← load p).pUid
  let p ← deref (← myproc c)
  let v ← load p
  let (new, np) ← newNode { v with xstate := status, state := .zombie }
  let some old ← listUpdateRcu new p
    | throw (.panic "[LOG reparent] proc disappeared")
  setCpuProc c (some np)
  reclaim old

/-- The traversal of `wait`: whether there are children, and the first zombie among them. -/
def waitFrom (p : Addr) : Nat → Bool → Ptr → KernelM (Bool × Option Addr)
  | _, havekids, none => return (havekids, none)
  | 0, _, some _ => throw .spin
  | fuel + 1, havekids, some a => do
    let q ← processOf a
    let v ← load q
    if v.pUid = (← load p).uid then
      if v.state = .zombie then return (true, some a)
      waitFrom p fuel true ((← get).next a)
    else waitFrom p fuel havekids ((← get).next a)

/-- One round of `wait`, with the `p` that it fetched when it was called; `none`: it sleeps. -/
def waitRound (c : CpuId) (p : Addr) (addr : Nat) (e : Env) : KernelM (Option Int) := do
  let s ← get
  match ← waitFrom p s.fresh false s.list.head? with
  | (_, some a) =>
    let q ← processOf a
    let pid := (← load q).pid
    if addr ≠ 0 ∧ !e.copyout then throw (.panic "Wait failed!")
    listDelRcu a
    freeproc q true
    knfree a
    return some pid
  | (havekids, none) =>
    let v ← load p
    if !havekids ∨ v.killed ≠ 0 then return some (-1)
    sleep c v.uid
    return none

def wait (c : CpuId) (addr : Nat) (e : Env) : KernelM (Option Int) := do
  waitRound c (← deref (← myproc c)) addr e

/-! ## `scheduler` -/

/-- The visit of the node `a`, up to `swtch`. Only CPU 0 looks at the states. -/
def schedule (c : CpuId) (a : Addr) : KernelM Unit := do
  if c ≠ 0 then return
  let p ← processOf a
  let v ← load p
  if v.state = .runnable then
    let (new, np) ← newNode (running v)
    let some old ← listUpdateRcu new p
      | throw (if v.pid = 1 then .panic "[LOG SCHEDULER] list_update_rcu failed \n" else .garbage)
    setCpuProc c (some np)
    modify fun s => { s with toFree := Function.update s.toFree c (some old) }

/-- From `swtch` on. -/
def descheduled (c : CpuId) : KernelM Unit := do
  reclaim (← deref ((← get).toFree c))
  modify fun s => { s with toFree := Function.update s.toFree c none }
  setCpuProc c none

/-! ## Rules for what a program reads -/

section Reads
open Lib

variable {s : Kernel} {p a : Addr} {c : CpuId} {P : Kernel → Prop}

theorem load_reads (p : Addr) : Triple P (load p) fun v s => P s ∧ s.procs p = v := by
  refine .get fun s hs => .pure ?_
  rintro _ rfl
  exact ⟨hs, rfl⟩

theorem deref_reads (q : Ptr) : Triple P (deref q) fun a s => P s ∧ q = some a := by
  cases q with
  | none => exact .throw
  | some a => exact .pure fun s hs => ⟨hs, rfl⟩

theorem processOf_reads (a : Addr) :
    Triple P (processOf a) fun p s => P s ∧ s.process a = some p := by
  refine .get fun s hs => (deref_reads _).post ?_
  rintro p _ ⟨rfl, e⟩
  exact ⟨hs, e⟩

theorem myproc_reads (c : CpuId) : Triple P (myproc c) fun q s => P s ∧ s.cpuProc c = q := by
  refine .get fun s hs => .pure ?_
  rintro _ rfl
  exact ⟨hs, rfl⟩

section
variable {β : Type} {Q : β → Kernel → Prop}

theorem at_load {f : Proc → KernelM β} (h : Triple (· = s) (f (s.procs p)) Q) :
    Triple (· = s) (load p >>= f) Q := by
  refine (load_reads p).bind fun v s' b s'' hv hm => ?_
  obtain ⟨rfl, rfl⟩ := hv
  exact h s' b s'' rfl hm

theorem at_processOf {f : Addr → KernelM β}
    (h : ∀ p, s.process a = some p → Triple (· = s) (f p) Q) :
    Triple (· = s) (processOf a >>= f) Q := by
  refine (processOf_reads a).bind fun p s' b s'' hp hm => ?_
  obtain ⟨rfl, hp⟩ := hp
  exact h p hp s' b s'' rfl hm

theorem at_myproc {f : Ptr → KernelM β} (h : Triple (· = s) (f (s.cpuProc c)) Q) :
    Triple (· = s) (myproc c >>= f) Q := by
  refine (myproc_reads c).bind fun v s' b s'' hv hm => ?_
  obtain ⟨rfl, rfl⟩ := hv
  exact h s' b s'' rfl hm

theorem at_get {f : Kernel → KernelM β} (h : Triple (· = s) (f s) Q) :
    Triple (· = s) (get >>= f) Q := by
  refine .get fun s' hs => ?_
  subst hs
  exact h

theorem at_deref {f : Addr → KernelM β} (h : Triple (· = s) (f p) Q) :
    Triple (· = s) (deref (some p) >>= f) Q := h

theorem at_modify {f : Kernel → Kernel} {g : PUnit → KernelM β} (h : Triple (· = f s) (g ⟨⟩) Q) :
    Triple (· = s) (modify f >>= g) Q :=
  .bind (.modify (by rintro _ rfl; rfl)) fun _ => h

theorem at_modifyGet {γ : Type} {f : Kernel → γ × Kernel} {g : γ → KernelM β}
    (h : Triple (· = (f s).2) (g (f s).1) Q) : Triple (· = s) (modifyGet f >>= g) Q := by
  refine .bind (.modifyGet (Q := fun a s' => s' = (f s).2 ∧ a = (f s).1) ?_) fun a =>
    .assuming fun ha => ?_
  · rintro _ rfl
    exact ⟨rfl, rfl⟩
  · rw [ha]
    exact h

theorem at_modifyProc {f : Proc → Proc} {g : PUnit → KernelM β}
    (h : Triple (· = { s with procs := Function.update s.procs p (f (s.procs p)) }) (g ⟨⟩) Q) :
    Triple (· = s) (modifyProc p f >>= g) Q := by
  unfold modifyProc
  rw [bind_assoc]
  exact at_load (at_modify h)

theorem of_at {P : Kernel → Prop} {m : KernelM β} (h : ∀ s, P s → Triple (· = s) m Q) :
    Triple P m Q := fun s b s' hs hm => h s hs s b s' rfl hm

theorem at_start {P : Kernel → Prop} {m : KernelM β} (h : Triple P m Q) (hs : P s) :
    Triple (· = s) m Q := h.mono (by rintro _ rfl; exact hs) fun _ _ => id

end

theorem findPid_reads (k : Int) (l : List Addr) :
    Triple P (findPid k l) fun r s => P s ∧ ∀ a ∈ r, a ∈ l := by
  induction l with
  | nil => exact .pure fun s hs => ⟨hs, by simp⟩
  | cons b l ih =>
    refine (processOf_reads b).bind fun q => .bind ((load_reads q).mono (fun _ h => h.1)
      fun _ _ h => h.1) fun v => .ite (fun _ => .pure fun s hs => ⟨hs, by simp⟩) fun _ => ?_
    exact ih.post fun r s h => ⟨h.1, fun a ha => List.mem_cons_of_mem _ (h.2 a ha)⟩

theorem next_of_append {l1 l2 : List Addr} (hnd : s.list.Nodup) (hl : s.list = l1 ++ a :: l2) :
    s.next a = l2.head? := by
  rw [hl] at hnd
  have ha : a ∉ l1 := fun hm => (List.nodup_append.mp hnd).2.2 a hm a List.mem_cons_self rfl
  rw [Kernel.next, hl, if_pos (by simp), Sleep.after_middle ha]

/-- A traversal of the list that has changed nothing so far: `Q l` is for the nodes `l` ahead. -/
theorem at_walk {β : Type} {F : Nat → Ptr → KernelM β} {Q : List Addr → β → Kernel → Prop}
    {b : β} {e : Stop} (hnd : s.list.Nodup) (hnone : ∀ fuel, F fuel none = pure b)
    (hzero : ∀ a, F 0 (some a) = throw e) (hnil : Q [] b s)
    (hcons : ∀ fuel a l, a ∈ s.list → Triple (· = s) (do F fuel ((← get).next a)) (Q l) →
      Triple (· = s) (F (fuel + 1) (some a)) (Q (a :: l))) (fuel : Nat) :
    Triple (· = s) (F fuel s.list.head?) (Q s.list) := by
  suffices h : ∀ l1 l2, s.list = l1 ++ l2 → Triple (· = s) (F fuel l2.head?) (Q l2) from
    h [] s.list rfl
  have hend : ∀ fuel, Triple (· = s) (F fuel none) (Q []) := fun fuel => by
    rw [hnone]
    exact .pure fun _ e => e ▸ hnil
  induction fuel with
  | zero =>
    intro l1 l2 hl
    cases l2 with
    | nil => exact hend 0
    | cons a l2 =>
      rw [List.head?_cons, hzero]
      exact .throw
  | succ fuel ih =>
    intro l1 l2 hl
    cases l2 with
    | nil => exact hend _
    | cons a l2 =>
      refine hcons fuel a l2 (by simp [hl]) (at_get ?_)
      rw [next_of_append hnd hl]
      exact ih (l1 ++ [a]) l2 (by simp [hl])

/-- The process of the node `a` is a child of that in `p`. -/
def child (s : Kernel) (p a : Addr) : Bool :=
  match s.process a with
  | some q => (s.procs q).pUid = (s.procs p).uid
  | none => false

/-- The process of the node `a` is in the state `st`. -/
def inState (s : Kernel) (st : ProcState) (a : Addr) : Bool :=
  match s.process a with
  | some p => (s.procs p).state = st
  | none => false

/-- The traversal of `wait` only reads. -/
theorem waitFrom_finds (hnd : s.list.Nodup) (p : Addr) (fuel : Nat) (kids : Bool)
    (l1 l2 : List Addr) (hl : s.list = l1 ++ l2) :
    Triple (· = s) (waitFrom p fuel kids l2.head?) fun r s' => s' = s ∧
      match r.2 with
      | some a => a ∈ l2 ∧ child s p a = true ∧ inState s .zombie a = true
      | none => (∀ a ∈ l2, child s p a = true → inState s .zombie a = false) ∧
          r.1 = (kids || l2.any (child s p)) := by
  induction fuel generalizing l1 l2 kids with
  | zero =>
    cases l2 with
    | nil => exact .pure fun _ e => ⟨e, by simp⟩
    | cons a l2 => exact .throw
  | succ fuel ih =>
    cases l2 with
    | nil => exact .pure fun _ e => ⟨e, by simp⟩
    | cons a l2 =>
      have hrest : ∀ kids', (child s p a = true → inState s .zombie a = false) →
          kids' = (kids || child s p a) →
          Triple (· = s) (do waitFrom p fuel kids' ((← get).next a)) fun r s' => s' = s ∧
            match r.2 with
            | some b => b ∈ a :: l2 ∧ child s p b = true ∧ inState s .zombie b = true
            | none => (∀ b ∈ a :: l2, child s p b = true → inState s .zombie b = false) ∧
                r.1 = (kids || (a :: l2).any (child s p)) := by
        intro kids' hz hk
        refine at_get ?_
        rw [next_of_append hnd hl]
        refine (ih kids' (l1 ++ [a]) l2 (by simp [hl])).post fun r s' h => ⟨h.1, ?_⟩
        obtain ⟨-, h⟩ := h
        cases hr : r.2 with
        | some b =>
          simp only [hr] at h ⊢
          exact ⟨List.mem_cons_of_mem _ h.1, h.2⟩
        | none =>
          simp only [hr] at h ⊢
          refine ⟨?_, ?_⟩
          · intro b hb
            rcases List.mem_cons.mp hb with rfl | hb
            · exact hz
            · exact h.1 b hb
          · rw [h.2, hk, List.any_cons, Bool.or_assoc]
      refine at_processOf fun q hq => at_load (at_load (.ite (fun hc => ?_) fun hc => ?_))
      · have hch : child s p a = true := by simpa [child, hq] using hc
        refine .ite (fun hz => .pure fun s' e => ⟨e, List.mem_cons_self, hch, ?_⟩) fun hz => ?_
        · simpa [inState, hq] using hz
        · exact hrest true (fun _ => by simpa [inState, hq] using hz) (by simp [hch])
      · have hch : child s p a = false := by simpa [child, hq] using hc
        exact hrest kids (by simp [hch]) (by simp [hch])

end Reads

end Xv6.Seq
