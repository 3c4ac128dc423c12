import Xv6Rcu.Lib.Machine
import Xv6Rcu.Lib.Keyed
import Xv6Rcu.Kernel.Types

/-!
# Pointers to the current process

Kernel code holds pointers to the `struct proc` of the process it runs for: `cpus[c].proc`, and
locals `p` or `pr` that were fetched with `myproc()`. Every change of the process replaces that
struct.

The machine `kernel` runs the functions of `proc.c`, `exec.c` and `pipe.c` on any number of CPUs. Of
each function it has the steps that read, hold, replace or free such a pointer, in the order of the
source, with its branches and loops (`Instr`); which branch is taken is a choice of the run. A
process has a stack of calls, so what a caller holds is still there when a nested call returns.

- A version is a `struct proc` with its node. A new version is private to its function until
  `list_update_rcu` publishes it, and has its address from then on.
- `list_update_rcu` and `freeproc` are one step each; `synchronize_rcu` may return at any time.
  `fork` takes its pid when it adds the node.
- A timer or device interrupt may come between any two steps of a process (`kerneltrap`): it may
  call `wakeup`, and `yield` for the process. On a CPU without a process it may call `wakeup`.
- `wakeup` may select any sleeping version: the channels are left out. Only CPU 0 schedules.
- A step that would use an uninitialised `ptr_node_to_free`, or panic, does not exist.
-/

namespace Xv6.Current

open Lib Function

/-! ## Code -/

/-- What a function does after it has published a new version of the current process. -/
inductive Mode where
  /-- `freeproc(old)`, then `mycpu()->proc = new`. -/
  | reclaimFirst
  /-- `mycpu()->proc = new`, then `freeproc(old)`. -/
  | installFirst
  /-- The same in `yield`, which goes on if `list_update_rcu` finds nothing. -/
  | yield
  deriving DecidableEq

/-- The functions. -/
inductive Fn where
  | sched | yield | sleep | io | fork | growproc | exec | reparent | exit | wait | piperead
  | pipewrite
  | wakeup | kerneltrap
  deriving DecidableEq

/-- The steps of a function. Its local `p` points to the current process. -/
inductive Instr where
  /-- `p = myproc()`. -/
  | fetch
  /-- `p->...`. -/
  | useP
  /-- `myproc()->...`. -/
  | useCpu
  /-- `*new = *p`, with a new state or the same. -/
  | copy (state : Option ProcState)
  /-- `*new` is a copy of another listed version. -/
  | adopt
  /-- `list_update_rcu(&process_list, new, p, ...)` and what follows. -/
  | commit (m : Mode)
  /-- The same in `reparent`: only `freeproc(old)` follows. -/
  | replace
  /-- The loop of `wakeup`. -/
  | wake
  /-- `swtch(&p->context, &mycpu()->context)`. -/
  | swtch
  /-- `list_add_rcu` of a new process. -/
  | add
  /-- `list_del_rcu` and `freeproc` of a zombie. -/
  | reap
  | call (f : Fn)
  | alt (a b : List Instr)
  /-- Any number of rounds. -/
  | loop (body : List Instr)
  | ret

/-- Of the functions only `reparent` has the current process as a parameter. -/
def Fn.takesP : Fn → Bool
  | .reparent => true
  | _ => false

open Instr in
/-- The code of the functions, in the order of the source. -/
def Fn.code : Fn → List Instr
  -- `holding(&p->lock)`, `p->state`, `swtch`
  | .sched => [fetch, useP, useP, swtch]
  | .yield => [fetch, copy (some .runnable), commit .yield, call .sched]
  -- `acquire(&p->lock)` and `print_proc(p)` come first
  | .sleep => [fetch, useP, useP, copy (some .sleeping), commit .reclaimFirst, call .sched,
      fetch, copy none, commit .reclaimFirst]
  -- the file system (`begin_op`, `namei`, `ilock`, `readi`, `iput`, `fileclose`, ...) sleeps, wakes
  -- others and reads `myproc()`
  | .io => [loop [alt [call .sleep] [alt [useCpu] [call .wakeup]]]]
  -- `*p`, the failures of `allocproc` and `uvmcopy`, `p->uid`
  | .fork => [fetch, useP, alt [ret] [], alt [ret] [], useP, add]
  | .growproc => [fetch, copy none, useP, alt [ret] [], commit .reclaimFirst]
  -- up to the ELF header; `proc_pagetable(p)`; the segments; from `p = myproc()` on
  | .exec => [fetch, call .io, alt [call .io, ret] [], useP, alt [call .io, ret] [],
      loop [call .io, alt [call .io, ret] []], call .io,
      fetch, useP, alt [ret] [], useP, useP, useP]
  -- `print_proc(p)`; the new version of a child is published under the pid of `p`
  | .reparent => [useP, loop [useP, alt [] [adopt, replace, useP, call .wakeup]]]
  -- `closeFile(p)`, `iput(p->cwd)`, `p->cwd = 0`, `reparent(p)`, the parent's wakeup, the zombie
  | .exit => [fetch, useP, copy none, call .io, commit .reclaimFirst,
      call .io, useP, call .io, useP, call .reparent,
      fetch, useP, call .wakeup, fetch, copy (some .zombie), commit .installFirst, call .sched]
  -- `p->uid` at each node and `p->pagetable` for a zombie; then `p->killed`, `p->uid`
  | .wait => [fetch, loop [loop [useP, alt [] [alt [] [useP], reap, ret]],
      alt [ret] [], useP, alt [ret] [], useP, call .sleep]]
  | .piperead => [fetch, loop [useP, alt [ret] [], call .sleep], loop [useP], call .wakeup]
  | .pipewrite => [fetch, loop [alt [ret] [], useP, alt [ret] [],
      alt [call .wakeup, call .sleep] [useP]], call .wakeup]
  | .wakeup => [wake]
  -- a device interrupt or a timer interrupt
  | .kerneltrap => [alt [] [call .wakeup], alt [] [useCpu, alt [] [call .yield]]]

/-- The functions that a process calls from user space. -/
def Fn.entries : List Fn :=
  [.fork, .growproc, .exec, .exit, .wait, .yield, .sleep, .wakeup, .piperead, .pipewrite]

/-! ## The state -/

/-- Of a `struct proc`: the pid and the state. -/
structure Version where
  pid : Int := 0
  state : ProcState := .unused
  deriving DecidableEq

/-- Where a call is between two of its instructions. -/
inductive Mid where
  | none
  /-- It has published the version `new` of the current process. -/
  | published (new old : Addr) (m : Mode)
  | toInstall (new : Addr)
  | toReclaim (old : Addr)
  /-- In `wakeup`: it has copied the version `cur`; it has published the copy; it has printed. -/
  | waking (cur : Addr) (copy : Version)
  | woke (old : Addr)
  | wokeFree (old : Addr)
  deriving DecidableEq

/-- A call. -/
structure Frame where
  todo : List Instr
  p : Ptr := none
  new : Option Version := none
  mid : Mid := .none

/-- Where the scheduler of a CPU is; `old` is what it frees, `none` if `list_update_rcu` found
nothing. -/
inductive Sched where
  | idle
  | copied (cur : Addr) (copy : Version)
  | published (new : Addr) (old : Ptr)
  | installed (new : Addr) (old : Ptr)
  /-- A process runs on the CPU. -/
  | under (old : Ptr)
  | free (old : Ptr)
  | clear
  deriving DecidableEq

/-- A CPU; `wake` is an interrupt handler's `wakeup` while no process runs. -/
structure Cpu where
  proc : Ptr := none
  run : Option Int := none
  sched : Sched := .idle
  wake : Mid := .none
  deriving DecidableEq

structure St (n : Nat) where
  versions : Addr → Version
  list : List Addr
  fresh : Addr
  nextpid : Int
  /-- The calls of each process, the innermost first; none in user space. -/
  stack : Int → List Frame := fun _ => []
  cpu : Fin n → Cpu := fun _ => {}

variable {n : Nat}

namespace St

def pid (s : St n) (v : Addr) : Int := (s.versions v).pid

def setStack (s : St n) (k : Int) (fs : List Frame) : St n :=
  { s with stack := update s.stack k fs }

def setCpu (s : St n) (c : Fin n) (x : Cpu) : St n := { s with cpu := update s.cpu c x }

/-- `freeproc(v, 0)`. -/
def clear (s : St n) (v : Addr) : St n := { s with versions := update s.versions v {} }

/-- A new version gets its address. -/
def alloc (s : St n) (w : Version) : St n :=
  { s with versions := update s.versions s.fresh w, fresh := s.fresh + 1 }

/-- `list_update_rcu(&process_list, w, q, ...)`: the displaced version, and the state, in which the
new version has the old `fresh` as its address. -/
def publish (s : St n) (q : Addr) (w : Version) : Option (Addr × St n) := do
  let old ← s.list.find? (s.pid · = s.pid q)
  return (old, { s.alloc w with list := setKey s.pid (s.pid q) s.fresh s.list })

/-- `allocpid`, `list_add_rcu`. -/
def add (s : St n) : St n :=
  { s.alloc { pid := s.nextpid, state := .runnable } with
    list := s.fresh :: s.list
    nextpid := s.nextpid + 1 }

end St

/-! ## Steps -/

/-- The choices of a run. -/
inductive Choice where
  | go
  /-- The branch of an `alt`, another round of a `loop`. -/
  | left
  | right
  /-- The version that a traversal selects. -/
  | pick (v : Addr)
  | call (f : Fn)
  | interrupt
  /-- The interrupt handler of a CPU on which no process runs. -/
  | wake (v : Addr)
  | wakeGo
  deriving DecidableEq

/-- The copy that `wakeup` makes of the version `v`: it is asleep, and not that of the CPU. -/
def wakeCopy (s : St n) (c : Fin n) (v : Addr) : Option Mid :=
  if v ∈ s.list ∧ (s.versions v).state = .sleeping ∧ some v ≠ (s.cpu c).proc then
    some (.waking v { s.versions v with state := .runnable })
  else none

/-- One instruction of the process `k`, which runs on the CPU `c`, in the call `f`. -/
def Instr.step (s : St n) (c : Fin n) (k : Int) (f : Frame) (fs : List Frame) (rest : List Instr) :
    Instr → Choice → Option (St n)
  | .fetch, .go => some (s.setStack k ({ f with todo := rest, p := (s.cpu c).proc } :: fs))
  | .useP, .go => do
    let _ ← f.p
    return s.setStack k ({ f with todo := rest } :: fs)
  | .useCpu, .go => do
    let _ ← (s.cpu c).proc
    return s.setStack k ({ f with todo := rest } :: fs)
  | .copy state, .go => do
    let v := s.versions (← f.p)
    return s.setStack k
      ({ f with todo := rest, new := some { v with state := state.getD v.state } } :: fs)
  | .adopt, .pick v =>
    if v ∈ s.list then
      some (s.setStack k ({ f with todo := rest, new := some (s.versions v) } :: fs))
    else none
  | .commit m, .go => do
    let p ← f.p
    let w ← f.new
    match s.publish p w with
    | some (old, s') =>
      some (s'.setStack k
        ({ f with todo := rest, new := none, mid := .published s.fresh old m } :: fs))
    | none =>
      if m = .yield then some (s.setStack k ({ f with todo := rest, new := none } :: fs)) else none
  | .replace, .go => do
    let p ← f.p
    let w ← f.new
    let (old, s') ← s.publish p w
    return s'.setStack k ({ f with todo := rest, new := none, mid := .toReclaim old } :: fs)
  | .wake, .pick v => do
    let mid ← wakeCopy s c v
    return s.setStack k ({ f with mid := mid } :: fs)
  | .wake, .right => some (s.setStack k ({ f with todo := rest } :: fs))
  | .swtch, .go => do
    let _ ← f.p
    match (s.cpu c).sched with
    | .under old =>
      some ((s.setStack k ({ f with todo := rest } :: fs)).setCpu c
        { s.cpu c with run := none, sched := .free old })
    | _ => none
  | .add, .go => some (s.add.setStack k ({ f with todo := rest } :: fs))
  | .reap, .pick v =>
    if v ∈ s.list ∧ (s.versions v).state = .zombie then
      some ({ s with list := s.list.erase v }.setStack k
        ({ f with todo := rest, mid := .toReclaim v } :: fs))
    else none
  | .call g, .go =>
    some (s.setStack k
      ({ todo := g.code, p := if g.takesP then f.p else none } :: { f with todo := rest } :: fs))
  | .alt a _, .left => some (s.setStack k ({ f with todo := a ++ rest } :: fs))
  | .alt _ b, .right => some (s.setStack k ({ f with todo := b ++ rest } :: fs))
  | .loop body, .left => some (s.setStack k ({ f with todo := body ++ .loop body :: rest } :: fs))
  | .loop _, .right => some (s.setStack k ({ f with todo := rest } :: fs))
  | .ret, .go => some (s.setStack k fs)
  | _, _ => none

/-- The next step of the call `f`. -/
def frameStep (s : St n) (c : Fin n) (k : Int) (f : Frame) (fs : List Frame) (ch : Choice) :
    Option (St n) :=
  match f.mid, ch with
  | .none, ch =>
    match f.todo with
    | i :: rest => i.step s c k f fs rest ch
    | [] => if ch = .go then some (s.setStack k fs) else none
  | .published new old m, .go =>
    match m with
    | .reclaimFirst => some ((s.clear old).setStack k ({ f with mid := .toInstall new } :: fs))
    | .installFirst | .yield =>
      some ((s.setCpu c { s.cpu c with proc := some new }).setStack k
        ({ f with mid := .toReclaim old } :: fs))
  | .toInstall new, .go =>
    some ((s.setCpu c { s.cpu c with proc := some new }).setStack k ({ f with mid := .none } :: fs))
  | .toReclaim old, .go => some ((s.clear old).setStack k ({ f with mid := .none } :: fs))
  | .waking cur copy, .go => do
    let (old, s') ← s.publish cur copy
    return s'.setStack k ({ f with mid := .woke old } :: fs)
  | .woke old, .go => some (s.setStack k ({ f with mid := .wokeFree old } :: fs))
  | .wokeFree old, .go => some ((s.clear old).setStack k ({ f with mid := .none } :: fs))
  | _, _ => none

/-- The scheduler of the CPU `c`. -/
def schedStep (s : St n) (c : Fin n) : Sched → Choice → Option (St n)
  | .idle, .pick v =>
    if c.val = 0 ∧ v ∈ s.list ∧ (s.versions v).state = .runnable then
      some (s.setCpu c
        { s.cpu c with sched := .copied v { s.versions v with state := .running } })
    else none
  | .copied cur copy, .go =>
    match s.publish cur copy with
    | some (old, s') => some (s'.setCpu c { s.cpu c with sched := .published s.fresh (some old) })
    -- a failed `list_update_rcu` panics for init only
    | none =>
      if copy.pid = 1 then none
      else some ((s.alloc copy).setCpu c { s.cpu c with sched := .published s.fresh none })
  | .published new old, .go =>
    some (s.setCpu c { s.cpu c with proc := some new, sched := .installed new old })
  | .installed new old, .go =>
    some (s.setCpu c { s.cpu c with run := some (s.pid new), sched := .under old })
  | .free (some old), .go => some ((s.clear old).setCpu c { s.cpu c with sched := .clear })
  | .clear, .go => some (s.setCpu c { s.cpu c with proc := none, sched := .idle })
  | _, _ => none

/-- The interrupt handler of a CPU on which no process runs. -/
def handlerStep (s : St n) (c : Fin n) : Mid → Choice → Option (St n)
  | .none, .wake v => do
    let mid ← wakeCopy s c v
    return s.setCpu c { s.cpu c with wake := mid }
  | .waking cur copy, .wakeGo => do
    let (old, s') ← s.publish cur copy
    return s'.setCpu c { s.cpu c with wake := .wokeFree old }
  | .wokeFree old, .wakeGo => some ((s.clear old).setCpu c { s.cpu c with wake := .none })
  | _, _ => none

structure Lbl (n : Nat) where
  cpu : Fin n
  choice : Choice
  deriving DecidableEq

/-- A step of a process on the CPU `c`: an interrupt, a call from user space, or its next step. -/
def procStep (s : St n) (c : Fin n) (k : Int) : List Frame → Choice → Option (St n)
  | fs, .interrupt => some (s.setStack k ({ todo := Fn.kerneltrap.code } :: fs))
  | [], .call f => if f ∈ Fn.entries then some (s.setStack k [{ todo := f.code }]) else none
  | f :: fs, ch => frameStep s c k f fs ch
  | _, _ => none

def kernel : Machine (St n) (Lbl n) where
  next s l :=
    match (s.cpu l.cpu).run with
    | some k => procStep s l.cpu k (s.stack k) l.choice
    | none =>
      match l.choice with
      | .wake _ | .wakeGo => handlerStep s l.cpu (s.cpu l.cpu).wake l.choice
      -- the handler returns before the scheduler goes on
      | ch =>
        if (s.cpu l.cpu).wake = .none then schedStep s l.cpu (s.cpu l.cpu).sched ch else none

/-! ## The property -/

/-- The pointers to the current process that the next step of a call dereferences. `wakeup` prints
the current process, if there is one. -/
def Frame.derefs (f : Frame) (proc : Ptr) : List Ptr :=
  match f.mid with
  | .none =>
    match f.todo with
    | .useP :: _ | .copy _ :: _ | .commit _ :: _ | .replace :: _ | .swtch :: _ => [f.p]
    | .useCpu :: _ => [proc]
    | _ => []
  | .woke _ => if proc.isSome then [proc] else []
  | _ => []

/-- `q` points to the only listed version of the process `k`. -/
def IsCurrent (s : St n) (k : Int) (q : Ptr) : Prop :=
  ∃ v, q = some v ∧ v ∈ s.list ∧ s.pid v = k ∧ ∀ w ∈ s.list, s.pid w = k → w = v

/-- What the code that runs for a process dereferences next is the current version. -/
def Coherent (s : St n) : Prop :=
  ∀ c k f fs, (s.cpu c).run = some k → s.stack k = f :: fs →
    ∀ q ∈ f.derefs (s.cpu c).proc, IsCurrent s k q

end Xv6.Current
