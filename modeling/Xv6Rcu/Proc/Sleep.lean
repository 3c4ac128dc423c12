import Xv6Rcu.Lib.Machine
import Xv6Rcu.Lib.Keyed
import Xv6Rcu.Kernel.Types

/-!
# `sleep`, `wakeup` and `scheduler`

The machine `kernel` runs any number of **contexts** of control (the main thread of a CPU, an
interrupt handler), each on a CPU. A context is in `sleep`, in `wakeup`, in `scheduler` or between
calls; a step is one lock operation, one copy of a struct, one publication, one visit of a node, one
`freeproc`, one `memset`, one store of `cpus[c].proc` or one half of `swtch`.

- A **version** is a `t_node` with its `struct proc`: the functions allocate them together and never
  assign `process` again, so one address names both. `knmalloc` gives an address that was never used
  before (`fresh`).
- `list` are the versions on `process_list`; an unlinked version keeps its `next` field (`stale`).
  `list_update_rcu` is one step, under `rcu_writers_lock`. Where it finds no node, the caller goes
  on with an uninitialised `ptr_node_to_free`: there is no step.
- `synchronize_rcu` may return at any time: it is no step.
- `frames k` is what the process with the pid `k` has on its kernel stack while it is off the CPU:
  the registers that its `swtch` stored and where it continues. `scheduler` loads the registers from
  the `context` of the listed version; if they are not those of the frame, the CPU goes on at a
  stale place (`Pc.wild`).
-/

namespace Xv6

/-! ## `spinlock.c` -/

/-- The two panics of a spinlock. -/
inductive Panic where
  | acquire | release
  deriving DecidableEq

namespace Spinlock

def holding (l : Spinlock) (c : CpuId) : Bool := l.locked && l.cpu = some c

/-- `none`: the CPU spins. -/
def acquire (l : Spinlock) (c : CpuId) : Option (Except Panic Spinlock) :=
  if l.holding c then some (.error .acquire)
  else if l.locked then none
  else some (.ok { locked := true, cpu := some c })

def release (l : Spinlock) (c : CpuId) : Except Panic Spinlock :=
  if l.holding c then .ok {} else .error .release

end Spinlock

namespace Sleep

open Lib Function

/-! ## The state -/

/-- The arguments of `sleep`. -/
structure Arg where
  chan : Chan
  lk : Addr
  deriving DecidableEq

/-- Where a context is in `sleep`, by what it does next. -/
inductive SleepPc where
  /-- `acquire(&p->lock)`, `release(lk)`, the copy of `*p`, `list_update_rcu`. -/
  | acquire (p : Addr)
  | release (p : Addr)
  | copy (p : Addr)
  | publish (p new : Addr)
  /-- `release(&new->lock)`, then `freeproc` of the old version. -/
  | unlock (p new old : Addr)
  | free (p new old : Addr)
  /-- `mycpu()->proc = new`, the `memset` of the lock, then `sched()`: its `myproc()`, its `swtch`.
  -/
  | install (new : Addr)
  | memset (new : Addr)
  | sched
  | swtch (p : Addr)
  /-- After `sched()` has returned: the second update, and `acquire(lk)`. -/
  | wokeCopy
  | wokePublish (p new : Addr)
  | wokeFree (new old : Addr)
  | wokeInstall (new : Addr)
  | wokeAcquire
  deriving DecidableEq

/-- Where a context is in `wakeup`. -/
inductive WakePc where
  /-- The first traversal: before `acquire`, before `release`. -/
  | lock (cur : Ptr)
  | unlock (cur : Addr)
  /-- The second traversal: the test of a node, the copy, `list_update_rcu`, `freeproc`. -/
  | visit (cur : Ptr)
  | copy (cur : Addr)
  | publish (cur new : Addr)
  | free (cur old : Addr)
  /-- Before the return. -/
  | done
  deriving DecidableEq

/-- Where a context is in `scheduler`; `init`: it runs the process 1. -/
inductive SchedPc where
  | top
  | visit (cur : Ptr)
  | copy (cur : Addr) (init : Bool)
  | publish (cur new : Addr) (init : Bool)
  /-- `c->proc = new`, `swtch`; when the process is done, `freeproc` and `c->proc = 0`. -/
  | install (cur new old : Addr) (init : Bool)
  | swtch (cur new old : Addr) (init : Bool)
  | free (cur old : Addr) (init : Bool)
  | clear (cur : Addr) (init : Bool)
  deriving DecidableEq

/-- Where a context is. -/
inductive Pc where
  /-- Between calls, for the process `k` if there is one, with the lock `lk` if it holds one. -/
  | idle (k : Option Int) (lk : Option Addr)
  | sleep (k : Int) (a : Arg) (pc : SleepPc)
  | wake (chan : Chan) (k : Option Int) (lk : Option Addr) (pc : WakePc)
  | sched (pc : SchedPc)
  | panic (p : Panic)
  /-- `swtch` loaded registers that are not those of the process's frame. -/
  | wild
  deriving DecidableEq

/-- Where a process continues. -/
inductive Resume where
  | woke (a : Arg)
  | user
  deriving DecidableEq

def Resume.pc (k : Int) : Resume → Pc
  | .woke a => .sleep k a .wokeCopy
  | .user => .idle (some k) none

/-- The kernel stack of a process that is off the CPU. -/
structure Frame where
  regs : Context
  resume : Resume

/-- The locals of `scheduler` while a process runs on its CPU. -/
structure SchedFrame where
  cur : Addr
  old : Addr
  init : Bool

structure St (n : Nat) where
  procs : Addr → Proc
  list : List Addr
  /-- The `next` field of a version that is not listed. -/
  stale : Addr → Ptr := fun _ => none
  cpuProc : CpuId → Ptr
  /-- The locks that callers pass to `sleep`. -/
  locks : Addr → Spinlock := fun _ => {}
  pc : Fin n → Pc
  frames : Int → Option Frame := fun _ => none
  /-- The scheduler under the process that a context runs. -/
  under : Fin n → Option SchedFrame := fun _ => none
  fresh : Addr

/-- The CPU of each context, and `&ticks`. -/
structure Cfg (n : Nat) where
  cpu : Fin n → CpuId
  ticks : Chan

variable {n : Nat}

/-- The element behind the first `v`. -/
def after (v : Addr) : List Addr → Ptr
  | [] => none
  | a :: l => if a = v then l.head? else after v l

namespace St

def pid (s : St n) (v : Addr) : Int := (s.procs v).pid

/-- `v->next`. -/
def next (s : St n) (v : Addr) : Ptr := if v ∈ s.list then after v s.list else s.stale v

def goto (s : St n) (t : Fin n) (pc : Pc) : St n := { s with pc := update s.pc t pc }

def setLock (s : St n) (v : Addr) (l : Spinlock) : St n :=
  { s with procs := update s.procs v { s.procs v with lock := l } }

def setCpuProc (s : St n) (c : CpuId) (p : Ptr) : St n :=
  { s with cpuProc := update s.cpuProc c p }

/-- A new version, `f` of the version `q`; its address is the old `fresh`. -/
def copy (s : St n) (q : Addr) (f : Proc → Proc) : St n :=
  { s with procs := update s.procs s.fresh (f (s.procs q)), fresh := s.fresh + 1 }

/-- `freeproc(v, 0)`. -/
def freeproc (s : St n) (v : Addr) : St n := { s with procs := update s.procs v {} }

/-- `list_update_rcu(&process_list, new, q, ...)`, with `*ptr_to_free`. -/
def listUpdateRcu (s : St n) (new q : Addr) : Option (Addr × St n) := do
  let old ← s.list.find? (s.pid · = s.pid q)
  return (old, { s with
    list := setKey s.pid (s.pid q) new s.list
    stale := update s.stale old (s.next old) })

/-- `acquire(&v->lock)` by the context `t`, that goes on at `pc`. -/
def acquire (s : St n) (c : CpuId) (t : Fin n) (v : Addr) (pc : Pc) : Option (St n) :=
  ((s.procs v).lock.acquire c).map fun
    | .ok l => (s.setLock v l).goto t pc
    | .error e => s.goto t (.panic e)

/-- `release(&v->lock)`. -/
def release (s : St n) (c : CpuId) (t : Fin n) (v : Addr) (pc : Pc) : St n :=
  match (s.procs v).lock.release c with
  | .ok l => (s.setLock v l).goto t pc
  | .error e => s.goto t (.panic e)

/-- `acquire(lk)` of a lock outside the processes. -/
def acquireLk (s : St n) (c : CpuId) (t : Fin n) (lk : Addr) (pc : Pc) : Option (St n) :=
  ((s.locks lk).acquire c).map fun
    | .ok l => { s with locks := update s.locks lk l }.goto t pc
    | .error e => s.goto t (.panic e)

def releaseLk (s : St n) (c : CpuId) (t : Fin n) (lk : Addr) (pc : Pc) : St n :=
  match (s.locks lk).release c with
  | .ok l => { s with locks := update s.locks lk l }.goto t pc
  | .error e => s.goto t (.panic e)

end St

/-! ## The machine -/

variable (cfg : Cfg n) (s : St n) (t : Fin n)

/-- The changes that the three functions make to a copy. -/
def asleep (chan : Chan) (p : Proc) : Proc := { p with chan, state := .sleeping }

def awake (p : Proc) : Proc := { p with chan := 0 }

def runnable (p : Proc) : Proc := { p with state := .runnable }

def running (p : Proc) : Proc := { p with state := .running }

/-- `sleep`, up to the `swtch` of `sched` and from it on. -/
def sleepStep (k : Int) (a : Arg) : SleepPc → Option (St n)
  | .acquire p => s.acquire (cfg.cpu t) t p (.sleep k a (.release p))
  | .release p => some (s.releaseLk (cfg.cpu t) t a.lk (.sleep k a (.copy p)))
  | .copy p => some ((s.copy p (asleep a.chan)).goto t (.sleep k a (.publish p s.fresh)))
  | .publish p new => do
    let (old, s) ← s.listUpdateRcu new p
    return s.goto t (.sleep k a (.unlock p new old))
  | .unlock p new old => some (s.release (cfg.cpu t) t new (.sleep k a (.free p new old)))
  | .free _ new old => some ((s.freeproc old).goto t (.sleep k a (.install new)))
  | .install new =>
    some ((s.setCpuProc (cfg.cpu t) (some new)).goto t (.sleep k a (.memset new)))
  | .memset new => some ((s.setLock new {}).goto t (.sleep k a .sched))
  | .sched => do
    let p ← s.cpuProc (cfg.cpu t)
    return s.goto t (.sleep k a (.swtch p))
  | .swtch _ => none
  | .wokeCopy => do
    let p ← s.cpuProc (cfg.cpu t)
    return (s.copy p awake).goto t (.sleep k a (.wokePublish p s.fresh))
  | .wokePublish p new => do
    let (old, s) ← s.listUpdateRcu new p
    return s.goto t (.sleep k a (.wokeFree new old))
  | .wokeFree new old => some ((s.freeproc old).goto t (.sleep k a (.wokeInstall new)))
  | .wokeInstall new =>
    some ((s.setCpuProc (cfg.cpu t) (some new)).goto t (.sleep k a .wokeAcquire))
  | .wokeAcquire => s.acquireLk (cfg.cpu t) t a.lk (.idle (some k) (some a.lk))

/-- The `swtch` of `sched`: the registers are stored in `p->context`, and the scheduler goes on. -/
def swtchOut (k : Int) (a : Arg) (p : Addr) (regs : Context) : Option (St n) := do
  let f ← s.under t
  return { s with
    procs := update s.procs p { s.procs p with context := regs }
    frames := update s.frames k (some ⟨regs, .woke a⟩)
    under := update s.under t none }.goto t (.sched (.free f.cur f.old f.init))

/-- `wakeup`. -/
def wakeStep (chan : Chan) (k : Option Int) (lk : Option Addr) : WakePc → Option (St n)
  | .lock none => some (s.goto t (.wake chan k lk (.visit s.list.head?)))
  | .lock (some cur) =>
    if chan = cfg.ticks then some (s.goto t (.wake chan k lk (.lock (s.next cur))))
    else s.acquire (cfg.cpu t) t cur (.wake chan k lk (.unlock cur))
  | .unlock cur =>
    some (s.release (cfg.cpu t) t cur (.wake chan k lk (.lock (s.next cur))))
  | .visit none => some (s.goto t (.wake chan k lk .done))
  | .visit (some cur) =>
    if some cur ≠ s.cpuProc (cfg.cpu t) ∧ (s.procs cur).state = .sleeping ∧
        (s.procs cur).chan = chan then
      some (s.goto t (.wake chan k lk (.copy cur)))
    else some (s.goto t (.wake chan k lk (.visit (s.next cur))))
  | .copy cur => some ((s.copy cur runnable).goto t (.wake chan k lk (.publish cur s.fresh)))
  | .publish cur new => do
    let (old, s) ← s.listUpdateRcu new cur
    return s.goto t (.wake chan k lk (.free cur old))
  | .free cur old =>
    some ((s.freeproc old).goto t (.wake chan k lk (.visit (s.next cur))))
  | .done => some (s.goto t (.idle k lk))

/-- `scheduler`; only CPU 0 looks at the states. -/
def schedStep : SchedPc → Option (St n)
  | .top => some (s.goto t (.sched (.visit s.list.head?)))
  | .visit none => some (s.goto t (.sched .top))
  | .visit (some cur) =>
    if cfg.cpu t = 0 ∧ (s.procs cur).state = .runnable then
      some (s.goto t (.sched (.copy cur (s.pid cur = 1))))
    else some (s.goto t (.sched (.visit (s.next cur))))
  | .copy cur init =>
    some ((s.copy cur running).goto t (.sched (.publish cur s.fresh init)))
  | .publish cur new init => do
    let (old, s) ← s.listUpdateRcu new cur
    return s.goto t (.sched (.install cur new old init))
  | .install cur new old init =>
    some ((s.setCpuProc (cfg.cpu t) (some new)).goto t (.sched (.swtch cur new old init)))
  | .swtch cur new old init =>
    -- the registers come from the struct; they are a place to go on only if a frame has them
    match s.frames (s.pid new) with
    | some f =>
      if (s.procs new).context = f.regs then
        some ({ s with
          frames := update s.frames (s.pid new) none
          under := update s.under t (some ⟨cur, old, init⟩) }.goto t
            (f.resume.pc (s.pid new)))
      else some (s.goto t .wild)
    | none => some (s.goto t .wild)
  | .free cur old init => some ((s.freeproc old).goto t (.sched (.clear cur init)))
  | .clear cur init =>
    some ((s.setCpuProc (cfg.cpu t) none).goto t
      (.sched (if init then .top else .visit (s.next cur))))

/-- What a context does: the next step of its function, with the registers at a `swtch`, or a call.
-/
inductive Ev where
  | go
  | regs (r : Context)
  | acquire (lk : Addr)
  | release
  | sleep (chan : Chan)
  | wakeup (chan : Chan)
  deriving DecidableEq

structure Lbl (n : Nat) where
  ctx : Fin n
  ev : Ev
  deriving DecidableEq

/-- The machine; a caller of `sleep` holds the lock that it passes. -/
def kernel : Machine (St n) (Lbl n) where
  next s l :=
    match s.pc l.ctx, l.ev with
    | .sleep k a (.swtch p), .regs r => swtchOut s l.ctx k a p r
    | .sleep k a pc, .go => sleepStep cfg s l.ctx k a pc
    | .wake chan k lk pc, .go => wakeStep cfg s l.ctx chan k lk pc
    | .sched pc, .go => schedStep cfg s l.ctx pc
    | .idle k none, .acquire lk => s.acquireLk (cfg.cpu l.ctx) l.ctx lk (.idle k (some lk))
    | .idle k (some lk), .release => some (s.releaseLk (cfg.cpu l.ctx) l.ctx lk (.idle k none))
    | .idle (some k) (some lk), .sleep chan => do
      let p ← s.cpuProc (cfg.cpu l.ctx)
      return s.goto l.ctx (.sleep k ⟨chan, lk⟩ (.acquire p))
    | .idle k lk, .wakeup chan => some (s.goto l.ctx (.wake chan k lk (.lock s.list.head?)))
    | _, _ => none

end Sleep
end Xv6
