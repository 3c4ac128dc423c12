import Xv6Rcu.Lib.RcuList
import Xv6Rcu.Lib.Triple
import Xv6Rcu.Kernel.Types

/-!
# `list_proc.c` refines lists

The operations on `process_list`, as loads and stores of the fields of the nodes, each run without
interference. A load through `NULL` and a load or store of a node that was passed to `knfree` stop
the run.

- `Cpu`: `push_off` and `pop_off` with the interrupt flag; `Cpu.rest` is the state behind a balanced
  section.
- `search`, `scan`: the head case and the loop with the two pointers, which the three searching
  functions share. `search_hit`, `search_miss`: what they run.
- `IsList s l`: the nodes of `process_list` are `l`. `IsList.cons`, `IsList.remove`,
  `IsList.replace`: the stores on the list.
- `list_ops_refine`: the operations are those on the list `l`.
-/

namespace Xv6.ListProc

open Lib Function
open List hiding beq_eq_decide

/-! ## The CPU -/

structure Cpu where
  noff : Nat := 0
  intena : Bool := false
  /-- `intr_get()`. -/
  intr : Bool := false
  deriving DecidableEq

namespace Cpu

/-- The state that `push_off` makes. -/
def push (κ : Cpu) : Cpu where
  noff := κ.noff + 1
  intena := if κ.noff = 0 then κ.intr else κ.intena
  intr := false

/-- The state that `pop_off` makes. -/
def pop (κ : Cpu) : Cpu where
  noff := κ.noff - 1
  intena := κ.intena
  intr := if κ.noff - 1 = 0 ∧ κ.intena = true then true else κ.intr

/-- The state behind a balanced section. -/
def rest (κ : Cpu) : Cpu := κ.push.pop

@[simp] theorem noff_rest (κ : Cpu) : κ.rest.noff = κ.noff := rfl

@[simp] theorem push_push_pop (κ : Cpu) : κ.push.push.pop = κ.push := by
  simp [push, pop]

@[simp] theorem rest_push (κ : Cpu) : κ.rest.push = κ.push := by
  cases κ with
  | mk noff intena intr =>
    cases noff <;> cases intena <;> cases intr <;> simp [rest, push, pop]

theorem rest_rest (κ : Cpu) : κ.rest.rest = κ.rest := by
  rw [rest, rest_push, ← rest]

end Cpu

/-! ## The state -/

structure TNode where
  process : Ptr
  next : Ptr

/-- Why a run stops. -/
inductive Stop where
  | panic (msg : String)
  /-- `NULL` is dereferenced. -/
  | fault
  /-- A lock is not free. -/
  | deadlock
  /-- A loop does not end. -/
  | spin
  /-- A field of a node that was passed to `knfree`. -/
  | freed (a : Addr)
  /-- A store to a `struct proc` that is not in use. -/
  | wild (p : Addr)
  deriving DecidableEq

structure Heap where
  nodes : Addr → TNode
  procs : Addr → Proc
  processList : Ptr
  /-- `rcu_writers_lock`. -/
  writers : Spinlock := {}
  cpu : Cpu := {}
  /-- `mycpu()->proc`. -/
  cpuProc : Ptr := none
  /-- The blocks that `knmalloc` will return. -/
  supply : List Addr := []
  /-- The blocks for a `struct proc` that were obtained in the call. -/
  structs : List Addr := []
  /-- The nodes that were passed to `knfree`. -/
  freed : List Addr := []

abbrev HeapM := EStateM Stop Heap

def deref : Ptr → HeapM Addr
  | some a => pure a
  | none => throw .fault

/-- The fields of a node. -/
def node (a : Addr) : HeapM TNode := do
  let s ← get
  if a ∈ s.freed then throw (.freed a) else return s.nodes a

/-- `a->next = p`. -/
def setNext (a : Addr) (p : Ptr) : HeapM Unit := do
  let n ← node a
  modify fun s => { s with nodes := Function.update s.nodes a { n with next := p } }

/-- `a->process->pid`. -/
def pidOf (a : Addr) : HeapM Int := do
  let p ← deref (← node a).process
  return ((← get).procs p).pid

def rcuAssignPointer (p : Ptr) : HeapM Unit := modify fun s => { s with processList := p }

/-! ## `spinlock.c` -/

def pushOff : HeapM Unit := modify fun s => { s with cpu := s.cpu.push }

def popOff : HeapM Unit := do
  let s ← get
  if s.cpu.intr then throw (.panic "pop_off - interruptible")
  else if s.cpu.noff < 1 then throw (.panic "pop_off")
  else set { s with cpu := s.cpu.pop }

/-- The writers lock and the locks of the processes. -/
inductive Lock where
  | writers
  | proc (p : Addr)
  deriving DecidableEq

def Heap.lock (s : Heap) : Lock → Spinlock
  | .writers => s.writers
  | .proc p => (s.procs p).lock

def Heap.setLock (s : Heap) (l : Lock) (v : Spinlock) : Heap :=
  match l with
  | .writers => { s with writers := v }
  | .proc p => { s with procs := Function.update s.procs p { s.procs p with lock := v } }

/-- `holding(lk)` on the CPU `c`. -/
def holding (s : Heap) (l : Lock) (c : CpuId) : Bool :=
  (s.lock l).locked && (s.lock l).cpu == some c

def acquire (c : CpuId) (l : Lock) : HeapM Unit := do
  pushOff
  let s ← get
  if holding s l c then throw (.panic "acquire")
  else if (s.lock l).locked then throw .deadlock
  else set (s.setLock l ⟨true, some c⟩)

def release (c : CpuId) (l : Lock) : HeapM Unit := do
  let s ← get
  if holding s l c then
    set (s.setLock l {})
    popOff
  else throw (.panic "release")

def rcuReadLock : HeapM Unit := pushOff

def rcuReadUnlock : HeapM Unit := popOff

/-! ## `list_proc.c` -/

def listAddRcu (c : CpuId) (a : Addr) : HeapM Unit := do
  acquire c .writers
  rcuReadLock
  setNext a (← get).processList
  rcuReadUnlock
  rcuAssignPointer (some a)
  release c .writers

/-- The loop with two pointers of the three functions that search the list: `hit` is run at the
first node that meets the test, with the node before it. -/
def scan {β : Type} (test : Addr → HeapM Bool) (hit : Addr → Addr → HeapM β) (miss : β) :
    Nat → Ptr → Ptr → HeapM β
  | _, _, none => return miss
  | 0, _, some _ => throw .spin
  | n + 1, prev, some cur => do
    if ← test cur then hit (← deref prev) cur
    else
      let cur' := (← node cur).next
      let prev' := (← node (← deref prev)).next
      scan test hit miss n prev' cur'

/-- The search of the three functions: the head is tested first, and `first` is run there. -/
def search {β : Type} (test : Addr → HeapM Bool) (first : Addr → HeapM β)
    (hit : Addr → Addr → HeapM β) (miss : β) (fuel : Nat) : HeapM β := do
  let cur ← deref (← get).processList
  if ← test cur then first cur
  else scan test hit miss fuel (some cur) (← node cur).next

def listDelRcu (c : CpuId) (a : Addr) (fuel : Nat) : HeapM Unit := do
  if (← get).processList = none then throw (.panic "list_del_rcu")
  else
    acquire c .writers
    search (fun tmp => return decide (tmp = a))
      (fun tmp => do rcuAssignPointer (← node tmp).next)
      (fun prev tmp => do setNext prev (← node tmp).next) () fuel
    release c .writers

/-- `cur->process->pid == proc_ptr->pid`. -/
def samePid (q cur : Addr) : HeapM Bool := do
  let k ← pidOf cur
  return decide (k = ((← get).procs q).pid)

/-- The result and `*ptr_to_free`, which was `toFree`. -/
def listUpdateRcu (c : CpuId) (new q : Addr) (toFree : Ptr) (fuel : Nat) : HeapM (Int × Ptr) := do
  acquire c .writers
  rcuReadLock
  let r ← search (samePid q)
    (fun cur => do
      setNext new (← node cur).next
      rcuAssignPointer (some new)
      return (1, some cur))
    (fun prev cur => do
      setNext new (← node cur).next
      setNext prev (some new)
      return (1, some cur))
    (0, toFree) fuel
  rcuReadUnlock
  release c .writers
  return r

def listDelFromProcRcu (c : CpuId) (q : Addr) (toFree : Ptr) (fuel : Nat) :
    HeapM (Int × Ptr) := do
  acquire c .writers
  rcuReadLock
  let r ← search (samePid q)
    (fun cur => do
      rcuAssignPointer (← node cur).next
      return (1, some cur))
    (fun prev cur => do
      setNext prev (← node cur).next
      return (1, some cur))
    (0, toFree) fuel
  rcuReadUnlock
  release c .writers
  return r

/-! ## Single steps -/

section Steps
variable {s : Heap} {a p : Addr} {q : Ptr} {c : CpuId} {κ : Cpu} {l : Lock}

theorem node_ok (h : a ∉ s.freed) : node a s = .ok (s.nodes a) s :=
  congrFun (if_neg h) s

/-- The state that `a->next = q` makes. -/
def Heap.link (s : Heap) (a : Addr) (q : Ptr) : Heap :=
  { s with nodes := Function.update s.nodes a { s.nodes a with next := q } }

theorem setNext_ok (h : a ∉ s.freed) : setNext a q s = .ok () (s.link a q) :=
  (bind_of_ok (node_ok h)).trans rfl

theorem pidOf_ok (h : a ∉ s.freed) (hp : (s.nodes a).process = some p) :
    pidOf a s = .ok (s.procs p).pid s := by
  refine (bind_of_ok (node_ok h)).trans ?_
  rw [hp]
  rfl

theorem samePid_ok {r : Addr} (h : a ∉ s.freed) (hp : (s.nodes a).process = some p) :
    samePid r a s = .ok (decide ((s.procs p).pid = (s.procs r).pid)) s :=
  (bind_of_ok (pidOf_ok h hp)).trans rfl

theorem popOff_ok (hc : s.cpu = κ.push) : popOff s = .ok () { s with cpu := κ.rest } := by
  have h1 : ¬ s.cpu.intr = true := by simp [hc, Cpu.push]
  have h2 : ¬ s.cpu.noff < 1 := by simp [hc, Cpu.push]
  refine (congrFun ((if_neg h1).trans (if_neg h2)) s).trans ?_
  rw [hc]
  rfl

theorem acquire_ok (h : (s.lock l).locked = false) :
    acquire c l s = .ok () ({ s with cpu := s.cpu.push }.setLock l ⟨true, some c⟩) := by
  have hl : ({ s with cpu := s.cpu.push }.lock l).locked = false := by cases l <;> exact h
  have h1 : ¬ holding { s with cpu := s.cpu.push } l c = true := by simp [holding, hl]
  have h2 : ¬ ({ s with cpu := s.cpu.push }.lock l).locked = true := by simp [hl]
  exact congrFun ((if_neg h1).trans (if_neg h2)) { s with cpu := s.cpu.push }

theorem release_ok (h : s.lock l = ⟨true, some c⟩) (hc : s.cpu = κ.push) :
    release c l s = .ok () { s.setLock l {} with cpu := κ.rest } := by
  have h1 : holding s l c = true := by simp [holding, h]
  refine (congrFun (if_pos h1) s).trans ?_
  have hc' : (s.setLock l {}).cpu = κ.push := by cases l <;> exact hc
  exact popOff_ok hc'

end Steps

/-! ## The list -/

/-- The nodes of `process_list` are `l`. -/
structure IsList (s : Heap) (l : List Addr) : Prop where
  chain : Chain (fun a => (s.nodes a).next) s.processList l
  nodup : l.Nodup
  live : ∀ a ∈ l, a ∉ s.freed

/-- The state behind a section of the writers lock. -/
def Heap.rest (s : Heap) : Heap := { s with writers := {}, cpu := s.cpu.rest }

/-- The state in a section of the writers lock, with the CPU `κ`. -/
def Heap.within (s : Heap) (c : CpuId) (κ : Cpu) : Heap :=
  { s with writers := ⟨true, some c⟩, cpu := κ }

/-- The pointer to the node behind `l` is set: the `next` of its last node, or the head. -/
def Heap.point (s : Heap) (l : List Addr) (q : Ptr) : Heap :=
  match l.getLast? with
  | none => { s with processList := q }
  | some p => s.link p q

theorem point_nil {s : Heap} {q : Ptr} : s.point [] q = { s with processList := q } := rfl

theorem point_last {s : Heap} {l : List Addr} {p : Addr} {q : Ptr} (h : l.getLast? = some p) :
    s.point l q = s.link p q := by
  rw [Heap.point, h]

section Within
variable {s : Heap} {c : CpuId} {κ : Cpu} {a : Addr} {q : Ptr}

theorem enter_ok (hw : s.writers.locked = false) :
    acquire c .writers s = .ok () (s.within c s.cpu.push) := acquire_ok (l := .writers) hw

theorem leave_ok : release c .writers (s.within c s.cpu.push) = .ok () s.rest :=
  release_ok rfl rfl

theorem readLock_within : rcuReadLock (s.within c κ) = .ok () (s.within c κ.push) := rfl

theorem readUnlock_within :
    rcuReadUnlock (s.within c κ.push.push) = .ok () (s.within c κ.push) := by
  rfl

theorem node_within (h : a ∉ s.freed) : node a (s.within c κ) = .ok (s.nodes a) (s.within c κ) :=
  node_ok h

theorem setNext_within (h : a ∉ s.freed) :
    setNext a q (s.within c κ) = .ok () ((s.link a q).within c κ) := setNext_ok h

theorem assign_within :
    rcuAssignPointer q (s.within c κ) = .ok () ({ s with processList := q }.within c κ) := rfl

end Within

section Search
variable {s : Heap} {c : CpuId} {x : Addr} {β : Type} {test : Addr → HeapM Bool}
  {hit : Addr → Addr → HeapM β} {miss : β} {p : Addr} {l : List Addr} {n : Nat}

theorem scan_step {a : Addr} (hp : p ∉ s.freed) (ha : a ∉ s.freed) (ht : test a s = .ok false s) :
    scan test hit miss (n + 1) (some p) (some a) s =
      scan test hit miss n (s.nodes p).next (s.nodes a).next s := by
  refine (bind_of_ok ht).trans ?_
  refine (bind_of_ok (node_ok ha)).trans ?_
  exact (bind_of_ok rfl).trans (bind_of_ok (node_ok hp))

theorem scan_hit {cur : Ptr} (hn : l.length < n)
    (hs : Seg (fun a => (s.nodes a).next) cur l (some x)) (hp : (s.nodes p).next = cur)
    (hlive : ∀ a ∈ p :: l, a ∉ s.freed) (hmiss : ∀ a ∈ l, test a s = .ok false s)
    (hx : test x s = .ok true s) :
    scan test hit miss n (some p) cur s = hit ((p :: l).getLast (List.cons_ne_nil p l)) x s := by
  induction l generalizing n p cur with
  | nil =>
    cases hs
    obtain ⟨n, rfl⟩ := Nat.exists_eq_succ_of_ne_zero (ne_of_gt hn)
    exact (bind_of_ok hx).trans (bind_of_ok rfl)
  | cons a l ih =>
    obtain ⟨rfl, hs⟩ := hs
    obtain ⟨n, rfl⟩ := Nat.exists_eq_succ_of_ne_zero (Nat.ne_zero_of_lt hn)
    have ha : a ∉ s.freed := hlive a (by simp)
    rw [scan_step (hlive p (by simp)) ha (hmiss a (by simp)), hp,
      ih (Nat.lt_of_succ_lt_succ hn) hs rfl (fun b hb => hlive b (mem_cons_of_mem _ hb))
        fun b hb => hmiss b (mem_cons_of_mem _ hb)]
    simp

theorem scan_miss {cur : Ptr} (hn : l.length ≤ n) (hs : Chain (fun a => (s.nodes a).next) cur l)
    (hp : (s.nodes p).next = cur) (hlive : ∀ a ∈ p :: l, a ∉ s.freed)
    (hmiss : ∀ a ∈ l, test a s = .ok false s) :
    scan test hit miss n (some p) cur s = .ok miss s := by
  induction l generalizing n p cur with
  | nil =>
    cases hs
    cases n <;> rfl
  | cons a l ih =>
    obtain ⟨rfl, hs⟩ := hs
    obtain ⟨n, rfl⟩ := Nat.exists_eq_succ_of_ne_zero (Nat.ne_zero_of_lt hn)
    have ha : a ∉ s.freed := hlive a (by simp)
    rw [scan_step (hlive p (by simp)) ha (hmiss a (by simp)), hp]
    exact ih (Nat.le_of_succ_le_succ hn) hs rfl (fun b hb => hlive b (mem_cons_of_mem _ hb))
      fun b hb => hmiss b (mem_cons_of_mem _ hb)

theorem search_hit {first : Addr → HeapM β} {l1 l2 : List Addr} {fuel : Nat} {r : β} {s' : Heap}
    (hl : IsList s (l1 ++ x :: l2)) (hf : l1.length ≤ fuel)
    (hmiss : ∀ a ∈ l1, test a s = .ok false s) (hx : test x s = .ok true s)
    (hfirst : l1 = [] → first x s = .ok r s')
    (hhit : ∀ p, l1.getLast? = some p → hit p x s = .ok r s') :
    search test first hit miss fuel s = .ok r s' := by
  refine (bind_of_ok rfl).trans ?_
  cases l1 with
  | nil =>
    obtain ⟨hh, -⟩ := hl.chain
    rw [hh]
    exact (bind_of_ok hx).trans (hfirst rfl)
  | cons a l1 =>
    obtain ⟨hh, hs⟩ := hl.chain
    obtain ⟨m, hs1, rfl, -⟩ := seg_append.mp hs
    rw [hh]
    refine (bind_of_ok (hmiss a (by simp))).trans ?_
    refine (bind_of_ok (node_ok (hl.live a (by simp)))).trans ?_
    refine (scan_hit hf hs1 rfl ?_ ?_ hx).trans (hhit _ (getLast?_eq_some_getLast _))
    · exact fun b hb => hl.live b (mem_append_left _ hb)
    · exact fun b hb => hmiss b (mem_cons_of_mem _ hb)

theorem search_miss {first : Addr → HeapM β} {fuel : Nat} (hl : IsList s l) (hne : l ≠ [])
    (hf : l.length ≤ fuel) (hmiss : ∀ a ∈ l, test a s = .ok false s) :
    search test first hit miss fuel s = .ok miss s := by
  refine (bind_of_ok rfl).trans ?_
  cases l with
  | nil => exact absurd rfl hne
  | cons a l =>
    obtain ⟨hh, hs⟩ := hl.chain
    rw [hh]
    refine (bind_of_ok (hmiss a (by simp))).trans ?_
    refine (bind_of_ok (node_ok (hl.live a (by simp)))).trans ?_
    exact scan_miss (Nat.le_of_succ_le hf) hs rfl hl.live
      fun b hb => hmiss b (mem_cons_of_mem _ hb)

end Search

/-! ## The operations as stores -/

section Stores
variable {s : Heap} {c : CpuId} {a x new q : Addr} {l l1 l2 : List Addr} {fuel : Nat} {tf : Ptr}

/-- Some listed process has the pid of `q`. -/
def hasPid (s : Heap) (q a : Addr) : Bool :=
  (s.nodes a).process.map (fun p => (s.procs p).pid) == some (s.procs q).pid

theorem samePid_eq (h : a ∉ s.freed) (hp : (s.nodes a).process ≠ none) :
    samePid q a s = .ok (hasPid s q a) s := by
  obtain ⟨p, hp⟩ := Option.ne_none_iff_exists'.mp hp
  rw [samePid_ok h hp, hasPid, hp]
  simp [beq_eq_decide]

theorem listAddRcu_ok (hw : s.writers.locked = false) (ha : a ∉ s.freed) :
    listAddRcu c a s = .ok () ({ s.link a s.processList with processList := some a }).rest := by
  refine (bind_of_ok (enter_ok hw)).trans ?_
  refine (bind_of_ok (setNext_within ha)).trans ?_
  refine (bind_of_ok readUnlock_within).trans ?_
  exact (bind_of_ok assign_within).trans leave_ok


theorem IsList.within {κ : Cpu} (h : IsList s l) : IsList (s.within c κ) l :=
  ⟨h.chain, h.nodup, h.live⟩

/-- Behind the search of `list_del_rcu` the lock is released. -/
theorem listDelRcu_eq {s' : Heap} (hw : s.writers.locked = false) (hne : s.processList ≠ none)
    (h : search (fun tmp => return decide (tmp = a))
      (fun tmp => do rcuAssignPointer (← node tmp).next)
      (fun prev tmp => do setNext prev (← node tmp).next) () fuel (s.within c s.cpu.push) =
        .ok () (s'.within c s'.cpu.push)) :
    listDelRcu c a fuel s = .ok () s'.rest := by
  refine (congrFun (if_neg hne) s).trans ?_
  exact (bind_of_ok (enter_ok hw)).trans ((bind_of_ok h).trans leave_ok)

theorem IsList.head_ne (hl : IsList s l) (hne : l ≠ []) : s.processList ≠ none := by
  cases l with
  | nil => exact absurd rfl hne
  | cons a l => simp [hl.chain.1]

theorem IsList.notMem_left (hl : IsList s (l1 ++ x :: l2)) : x ∉ l1 :=
  fun hm => (nodup_append.mp hl.nodup).2.2 x hm x (by simp) rfl

theorem length_left_le (hf : (l1 ++ x :: l2).length ≤ fuel) : l1.length ≤ fuel := by
  rw [length_append] at hf
  exact le_trans (Nat.le_add_right _ _) hf

theorem listDelRcu_hit (hl : IsList s (l1 ++ x :: l2)) (hw : s.writers.locked = false)
    (hf : l1.length ≤ fuel) :
    listDelRcu c x fuel s = .ok () (s.point l1 (s.nodes x).next).rest := by
  have hx : x ∉ s.freed := hl.live x (by simp)
  refine listDelRcu_eq hw (hl.head_ne (by simp)) (search_hit hl.within hf ?_ ?_ ?_ ?_)
  · intro a ha
    have hax : ¬ a = x := ne_of_mem_of_not_mem ha hl.notMem_left
    simp only [hax]
    rfl
  · simp only
    rfl
  · rintro rfl
    exact (bind_of_ok (node_within hx)).trans assign_within
  · intro p hp
    have hpl : p ∈ l1 ++ x :: l2 := mem_append_left _ (mem_of_getLast? hp)
    refine (bind_of_ok (node_within hx)).trans ((setNext_within (hl.live p hpl)).trans ?_)
    rw [point_last hp]
    rfl

theorem listDelRcu_miss (hl : IsList s l) (hw : s.writers.locked = false) (hne : l ≠ [])
    (hx : x ∉ l) (hf : l.length ≤ fuel) : listDelRcu c x fuel s = .ok () s.rest := by
  refine listDelRcu_eq hw (hl.head_ne hne) (search_miss hl.within hne hf fun a ha => ?_)
  have hax : ¬ a = x := ne_of_mem_of_not_mem ha hx
  simp only [hax]
  rfl

/-- The two functions that search for a pid: the frame around the search. -/
theorem within_search {β : Type} {m : HeapM β} {r : β} {s' : Heap} (hw : s.writers.locked = false)
    (h : m (s.within c s.cpu.push.push) = .ok r (s'.within c s'.cpu.push.push)) :
    (do acquire c .writers
        rcuReadLock
        let r ← m
        rcuReadUnlock
        release c .writers
        return r : HeapM β) s = .ok r s'.rest := by
  refine (bind_of_ok (enter_ok hw)).trans ?_
  refine (bind_of_ok readLock_within).trans ((bind_of_ok h).trans ?_)
  exact (bind_of_ok readUnlock_within).trans (bind_of_ok leave_ok)

theorem samePid_within {κ : Cpu} (hl : IsList s l) (hp : ∀ a ∈ l, (s.nodes a).process ≠ none)
    (ha : a ∈ l) : samePid q a (s.within c κ) = .ok (hasPid s q a) (s.within c κ) :=
  samePid_eq (hl.live a ha) (hp a ha)

theorem listUpdateRcu_hit (hl : IsList s (l1 ++ x :: l2)) (hw : s.writers.locked = false)
    (hp : ∀ a ∈ l1 ++ x :: l2, (s.nodes a).process ≠ none) (hnew : new ∉ s.freed)
    (hmiss : ∀ a ∈ l1, hasPid s q a = false) (hx : hasPid s q x = true)
    (hf : l1.length ≤ fuel) :
    listUpdateRcu c new q tf fuel s =
      .ok (1, some x) ((s.link new (s.nodes x).next).point l1 (some new)).rest := by
  have hxl : x ∉ s.freed := hl.live x (by simp)
  refine within_search hw (search_hit hl.within hf ?_ ?_ ?_ ?_)
  · intro a ha
    rw [samePid_within hl hp (mem_append_left _ ha), hmiss a ha]
  · rw [samePid_within hl hp (by simp), hx]
  · rintro rfl
    refine (bind_of_ok (node_within hxl)).trans ((bind_of_ok (setNext_within hnew)).trans ?_)
    exact (bind_of_ok assign_within).trans rfl
  · intro p hpl
    have hpl' : p ∉ (s.link new (s.nodes x).next).freed :=
      hl.live p (mem_append_left _ (mem_of_getLast? hpl))
    refine (bind_of_ok (node_within hxl)).trans ((bind_of_ok (setNext_within hnew)).trans ?_)
    refine (bind_of_ok (setNext_within hpl')).trans ?_
    rw [point_last hpl]
    rfl

theorem listUpdateRcu_miss (hl : IsList s l) (hw : s.writers.locked = false) (hne : l ≠ [])
    (hp : ∀ a ∈ l, (s.nodes a).process ≠ none) (hmiss : ∀ a ∈ l, hasPid s q a = false)
    (hf : l.length ≤ fuel) : listUpdateRcu c new q tf fuel s = .ok (0, tf) s.rest := by
  refine within_search hw (search_miss hl.within hne hf fun a ha => ?_)
  rw [samePid_within hl hp ha, hmiss a ha]

theorem listDelFromProcRcu_hit (hl : IsList s (l1 ++ x :: l2)) (hw : s.writers.locked = false)
    (hp : ∀ a ∈ l1 ++ x :: l2, (s.nodes a).process ≠ none)
    (hmiss : ∀ a ∈ l1, hasPid s q a = false) (hx : hasPid s q x = true)
    (hf : l1.length ≤ fuel) :
    listDelFromProcRcu c q tf fuel s = .ok (1, some x) (s.point l1 (s.nodes x).next).rest := by
  have hxl : x ∉ s.freed := hl.live x (by simp)
  refine within_search hw (search_hit hl.within hf ?_ ?_ ?_ ?_)
  · intro a ha
    rw [samePid_within hl hp (mem_append_left _ ha), hmiss a ha]
  · rw [samePid_within hl hp (by simp), hx]
  · rintro rfl
    exact (bind_of_ok (node_within hxl)).trans ((bind_of_ok assign_within).trans rfl)
  · intro p hpl
    have hpl' : p ∉ s.freed := hl.live p (mem_append_left _ (mem_of_getLast? hpl))
    refine (bind_of_ok (node_within hxl)).trans ((bind_of_ok (setNext_within hpl')).trans ?_)
    rw [point_last hpl]
    rfl

theorem listDelFromProcRcu_miss (hl : IsList s l) (hw : s.writers.locked = false) (hne : l ≠ [])
    (hp : ∀ a ∈ l, (s.nodes a).process ≠ none) (hmiss : ∀ a ∈ l, hasPid s q a = false)
    (hf : l.length ≤ fuel) : listDelFromProcRcu c q tf fuel s = .ok (0, tf) s.rest := by
  refine within_search hw (search_miss hl.within hne hf fun a ha => ?_)
  rw [samePid_within hl hp ha, hmiss a ha]

end Stores

/-! ## The stores on the list -/

section Lists
variable {s : Heap} {a b x new : Addr} {l l1 l2 : List Addr} {q : Ptr}

theorem next_link : (fun b => ((s.link a q).nodes b).next) =
    update (fun b => (s.nodes b).next) a q := by
  funext b
  rcases eq_or_ne b a with rfl | hb
  · simp [Heap.link]
  · simp [Heap.link, update_of_ne hb]

theorem next_link_self : ((s.link a q).nodes a).next = q := congrFun next_link a |>.trans (by simp)

theorem nodes_link_of_ne (h : b ≠ a) : (s.link a q).nodes b = s.nodes b :=
  update_of_ne h ..

theorem process_link : ((s.link a q).nodes b).process = (s.nodes b).process := by
  rcases eq_or_ne b a with rfl | hb
  · simp [Heap.link]
  · rw [nodes_link_of_ne hb]

theorem IsList.rest (h : IsList s l) : IsList s.rest l := ⟨h.chain, h.nodup, h.live⟩

theorem IsList.cons (h : IsList s l) (ha : a ∉ l) (hfr : a ∉ s.freed) :
    IsList { s.link a s.processList with processList := some a } (a :: l) := by
  refine ⟨⟨rfl, ?_⟩, nodup_cons.mpr ⟨ha, h.nodup⟩, ?_⟩
  · simp only [next_link, next_link_self]
    exact Seg.update h.chain ha
  · exact forall_mem_cons.mpr ⟨hfr, h.live⟩

/-- A list is empty or ends in its last node. -/
theorem split_last (l : List Addr) : l = [] ∨ ∃ l' p, l = l' ++ [p] ∧ l.getLast? = some p := by
  rcases eq_nil_or_concat l with rfl | ⟨l', p, rfl⟩
  · exact .inl rfl
  · exact .inr ⟨l', p, by simp, by simp⟩

theorem IsList.remove (h : IsList s (l1 ++ x :: l2)) :
    IsList (s.point l1 (s.nodes x).next) (l1 ++ l2) := by
  have hsub : (l1 ++ l2).Sublist (l1 ++ x :: l2) :=
    Sublist.append_left (sublist_cons_self x l2) l1
  have hnd : (l1 ++ l2).Nodup := h.nodup.sublist hsub
  rcases split_last l1 with rfl | ⟨l', p, rfl, hp⟩
  · exact ⟨h.chain.2, hnd, fun a ha => h.live a (hsub.subset ha)⟩
  · rw [point_last hp]
    refine ⟨?_, hnd, fun a ha => h.live a (hsub.subset ha)⟩
    have hc := h.chain
    have hn := h.nodup
    simp only [append_assoc] at hc hn ⊢
    rw [next_link]
    exact Chain.remove hc hn

theorem IsList.replace (h : IsList s (l1 ++ x :: l2)) (hnew : new ∉ l1 ++ x :: l2)
    (hfr : new ∉ s.freed) :
    IsList ((s.link new (s.nodes x).next).point l1 (some new)) (l1 ++ new :: l2) := by
  have hsub : (l1 ++ l2).Sublist (l1 ++ x :: l2) :=
    Sublist.append_left (sublist_cons_self x l2) l1
  have hmem : ∀ a ∈ l1 ++ new :: l2, a ∉ s.freed := by
    intro a ha
    rcases mem_append.mp ha with ha | ha
    · exact h.live a (mem_append_left _ ha)
    · rcases mem_cons.mp ha with rfl | ha
      · exact hfr
      · exact h.live a (by simp [ha])
  have hnd : (l1 ++ new :: l2).Nodup :=
    nodup_middle.mpr
      (nodup_cons.mpr ⟨fun hm => hnew (hsub.subset hm), h.nodup.sublist hsub⟩)
  rcases split_last l1 with rfl | ⟨l', p, rfl, hp⟩
  · refine ⟨⟨rfl, ?_⟩, hnd, hmem⟩
    simp only [point_nil, next_link, next_link_self]
    exact Seg.update h.chain.2 fun hm => hnew (mem_cons_of_mem _ hm)
  · rw [point_last hp]
    refine ⟨?_, hnd, hmem⟩
    have hc := h.chain
    have hn := h.nodup
    simp only [append_assoc] at hc hn hnew ⊢
    rw [next_link, next_link]
    exact Chain.replace hc hn hnew

/-- What the operations keep: everything but `next` fields and the head, with the writers lock
released and the depth of `push_off` restored. -/
structure Kept (s s' : Heap) : Prop where
  process : ∀ a, (s'.nodes a).process = (s.nodes a).process
  procs : s'.procs = s.procs
  writers : s'.writers = {}
  cpu : s'.cpu = s.cpu.rest
  noff : s'.cpu.noff = s.cpu.noff
  cpuProc : s'.cpuProc = s.cpuProc
  supply : s'.supply = s.supply
  structs : s'.structs = s.structs
  freed : s'.freed = s.freed

theorem kept_rest : Kept s s.rest := ⟨fun _ => rfl, rfl, rfl, rfl, rfl, rfl, rfl, rfl, rfl⟩

theorem Kept.link {s' : Heap} (h : Kept s s'.rest) : Kept s (s'.link a q).rest :=
  ⟨fun b => process_link.trans (h.process b), h.procs, rfl, h.cpu, h.noff, h.cpuProc, h.supply,
    h.structs, h.freed⟩

theorem Kept.point {s' : Heap} (h : Kept s s'.rest) : Kept s (s'.point l q).rest := by
  rcases split_last l with rfl | ⟨-, p, -, hp⟩
  · exact ⟨h.process, h.procs, rfl, h.cpu, h.noff, h.cpuProc, h.supply, h.structs, h.freed⟩
  · rw [point_last hp]
    exact h.link

/-- A store to the pointer behind `l` changes no node outside `l`. -/
theorem nodes_point (h : b ∉ l) : (s.point l q).nodes b = s.nodes b := by
  rcases split_last l with rfl | ⟨-, p, -, hp⟩
  · rfl
  · rw [point_last hp]
    exact nodes_link_of_ne (ne_of_mem_of_not_mem (mem_of_getLast? hp) h).symm

/-- The first element that meets `P` is replaced. -/
theorem replaceF_split {P : Addr → Bool} (h1 : ∀ a ∈ l1, P a = false) (hx : P x = true) :
    (l1 ++ x :: l2).replaceF (fun a => if P a then some new else none) = l1 ++ new :: l2 := by
  induction l1 with
  | nil => simp [hx]
  | cons a l1 ih =>
    obtain ⟨ha, h1⟩ := forall_mem_cons.mp h1
    simp [ha, ih h1]

theorem replaceF_none {P : Addr → Bool} (h : ∀ a ∈ l, P a = false) :
    l.replaceF (fun a => if P a then some new else none) = l := by
  induction l with
  | nil => rfl
  | cons a l ih =>
    obtain ⟨ha, h⟩ := forall_mem_cons.mp h
    simp [ha, ih h]

end Lists

/-! ## The operations refine those on lists -/

section Refine
variable {s : Heap} {c : CpuId} {l : List Addr} {fuel : Nat}

section
variable (hl : IsList s l) (hw : s.writers.locked = false)
include hl hw

theorem listAddRcu_refines {a : Addr} (ha : a ∉ l) (hfr : a ∉ s.freed) :
    ∃ s', listAddRcu c a s = .ok () s' ∧ IsList s' (a :: l) ∧ Kept s s' ∧
      ∀ b, b ≠ a → s'.nodes b = s.nodes b :=
  ⟨_, listAddRcu_ok hw hfr, (hl.cons ha hfr).rest,
    ⟨fun _ => process_link, rfl, rfl, rfl, rfl, rfl, rfl, rfl, rfl⟩, fun _ => nodes_link_of_ne⟩

theorem listDelRcu_refines {a : Addr} (hne : l ≠ []) (hf : l.length ≤ fuel) :
    ∃ s', listDelRcu c a fuel s = .ok () s' ∧ IsList s' (l.erase a) ∧ Kept s s' ∧
      (∀ b, b ∉ l.erase a → s'.nodes b = s.nodes b) ∧ (a ∉ l → s' = s.rest) := by
  by_cases ha : a ∈ l
  · obtain ⟨l1, l2, rfl⟩ := append_of_mem ha
    rw [erase_append_right _ hl.notMem_left, erase_cons_head]
    refine ⟨_, listDelRcu_hit hl hw (length_left_le hf), hl.remove.rest, kept_rest.point,
      fun b hb => ?_, fun h => absurd ha h⟩
    exact nodes_point fun hm => hb (mem_append_left _ hm)
  · rw [erase_of_not_mem ha]
    exact ⟨_, listDelRcu_miss hl hw hne ha hf, hl.rest, kept_rest, fun _ _ => rfl, fun _ => rfl⟩

omit hl hw in
/-- A list either has no process with the pid, or a first one. -/
theorem find_cases (s : Heap) (q : Addr) (l : List Addr) :
    (l.find? (hasPid s q) = none ∧ ∀ a ∈ l, hasPid s q a = false) ∨
      ∃ l1 x l2, l = l1 ++ x :: l2 ∧ l.find? (hasPid s q) = some x ∧
        (∀ a ∈ l1, hasPid s q a = false) ∧ hasPid s q x = true := by
  cases h : l.find? (hasPid s q) with
  | none => exact .inl ⟨rfl, fun a ha => by simpa using find?_eq_none.mp h a ha⟩
  | some x =>
    obtain ⟨hx, l1, l2, rfl, h1⟩ := find?_eq_some_iff_append.mp h
    exact .inr ⟨l1, x, l2, rfl, rfl, fun a ha => by simpa using h1 a ha, hx⟩

theorem listUpdateRcu_refines {new q : Addr} {tf : Ptr} (hne : l ≠ []) (hf : l.length ≤ fuel)
    (hp : ∀ a ∈ l, (s.nodes a).process ≠ none) (hnew : new ∉ l) (hfr : new ∉ s.freed) :
    ∃ s', listUpdateRcu c new q tf fuel s =
        .ok (if (l.find? (hasPid s q)).isSome then 1 else 0, (l.find? (hasPid s q)).or tf) s' ∧
      IsList s' (l.replaceF fun a => if hasPid s q a then some new else none) ∧ Kept s s' ∧
      (∀ b, b ≠ new → b ∉ l ∨ l.find? (hasPid s q) = some b → s'.nodes b = s.nodes b) ∧
      (l.find? (hasPid s q) = none → s' = s.rest) := by
  rcases find_cases s q l with ⟨hnone, hmiss⟩ | ⟨l1, x, l2, rfl, hsome, hmiss, hx⟩
  · rw [hnone, replaceF_none hmiss]
    exact ⟨_, listUpdateRcu_miss hl hw hne hp hmiss hf, hl.rest, kept_rest, fun _ _ _ => rfl,
      fun _ => rfl⟩
  · rw [hsome, replaceF_split hmiss hx]
    have hf1 := length_left_le hf
    refine ⟨_, listUpdateRcu_hit hl hw hp hfr hmiss hx hf1, (hl.replace hnew hfr).rest,
      kept_rest.link.point, fun b hb hbl => ?_, nofun⟩
    have hb1 : b ∉ l1 := by
      rcases hbl with hbl | hbl
      · exact fun hm => hbl (mem_append_left _ hm)
      · cases hbl
        exact hl.notMem_left
    exact (nodes_point hb1).trans (nodes_link_of_ne hb)

theorem listDelFromProcRcu_refines {q : Addr} {tf : Ptr} (hne : l ≠ []) (hf : l.length ≤ fuel)
    (hp : ∀ a ∈ l, (s.nodes a).process ≠ none) :
    ∃ s', listDelFromProcRcu c q tf fuel s =
        .ok (if (l.find? (hasPid s q)).isSome then 1 else 0, (l.find? (hasPid s q)).or tf) s' ∧
      IsList s' (l.eraseP (hasPid s q)) ∧ Kept s s' ∧
      (∀ b, b ∉ l ∨ l.find? (hasPid s q) = some b → s'.nodes b = s.nodes b) ∧
      (l.find? (hasPid s q) = none → s' = s.rest) := by
  rcases find_cases s q l with ⟨hnone, hmiss⟩ | ⟨l1, x, l2, rfl, hsome, hmiss, hx⟩
  · rw [hnone, eraseP_of_forall_not (by simpa using hmiss)]
    exact ⟨_, listDelFromProcRcu_miss hl hw hne hp hmiss hf, hl.rest, kept_rest, fun _ _ => rfl,
      fun _ => rfl⟩
  · rw [hsome, eraseP_append_right _ (by simpa using hmiss), eraseP_cons_of_pos hx]
    have hf1 := length_left_le hf
    refine ⟨_, listDelFromProcRcu_hit hl hw hp hmiss hx hf1, hl.remove.rest, kept_rest.point,
      fun b hbl => nodes_point ?_, nofun⟩
    rcases hbl with hbl | hbl
    · exact fun hm => hbl (mem_append_left _ hm)
    · cases hbl
      exact hl.notMem_left

end

/-- The operations on `process_list` are those on the list of its nodes. The bound of the loops is
the length of the list. -/
theorem list_ops_refine (c : CpuId) (hl : IsList s l) (hw : s.writers.locked = false) :
    (∀ a, a ∉ l → a ∉ s.freed → ∃ s', listAddRcu c a s = .ok () s' ∧ IsList s' (a :: l) ∧
      Kept s s' ∧ ∀ b, b ≠ a → s'.nodes b = s.nodes b) ∧
    (l ≠ [] → ∀ fuel, l.length ≤ fuel →
      (∀ a, ∃ s', listDelRcu c a fuel s = .ok () s' ∧ IsList s' (l.erase a) ∧ Kept s s' ∧
        (∀ b, b ∉ l.erase a → s'.nodes b = s.nodes b) ∧ (a ∉ l → s' = s.rest)) ∧
      ((∀ a ∈ l, (s.nodes a).process ≠ none) → ∀ q tf,
        (∀ new, new ∉ l → new ∉ s.freed → ∃ s',
          listUpdateRcu c new q tf fuel s = .ok
            (if (l.find? (hasPid s q)).isSome then 1 else 0, (l.find? (hasPid s q)).or tf) s' ∧
          IsList s' (l.replaceF fun a => if hasPid s q a then some new else none) ∧ Kept s s' ∧
          (∀ b, b ≠ new → b ∉ l ∨ l.find? (hasPid s q) = some b → s'.nodes b = s.nodes b) ∧
          (l.find? (hasPid s q) = none → s' = s.rest)) ∧
        ∃ s', listDelFromProcRcu c q tf fuel s = .ok
            (if (l.find? (hasPid s q)).isSome then 1 else 0, (l.find? (hasPid s q)).or tf) s' ∧
          IsList s' (l.eraseP (hasPid s q)) ∧ Kept s s' ∧
          (∀ b, b ∉ l ∨ l.find? (hasPid s q) = some b → s'.nodes b = s.nodes b) ∧
          (l.find? (hasPid s q) = none → s' = s.rest))) := by
  refine ⟨fun a => listAddRcu_refines hl hw, fun hne fuel hf => ⟨fun a => ?_, fun hp q tf => ?_⟩⟩
  · exact listDelRcu_refines hl hw hne hf
  · exact ⟨fun new => listUpdateRcu_refines hl hw hne hf hp,
      listDelFromProcRcu_refines hl hw hne hf hp⟩

end Refine

/-- Two nodes, of the processes 1 and 2. -/
def twoNodes : Heap where
  nodes a := if a = 10 then ⟨some 1, some 20⟩ else if a = 20 then ⟨some 2, none⟩ else ⟨none, none⟩
  procs p := { pid := p }
  processList := some 10

theorem list_ops_refine_twoNodes :
    (∃ s', listAddRcu 0 30 twoNodes = .ok () s' ∧ IsList s' [30, 10, 20]) ∧
    (∃ s', listDelRcu 0 20 2 twoNodes = .ok () s' ∧ IsList s' [10]) ∧
    (∃ s', listUpdateRcu 0 30 2 none 2 twoNodes = .ok (1, some 20) s' ∧ IsList s' [10, 30]) ∧
    ∃ s', listDelFromProcRcu 0 1 none 2 twoNodes = .ok (1, some 10) s' ∧ IsList s' [20] := by
  have hl : IsList twoNodes [10, 20] := ⟨⟨rfl, rfl, rfl⟩, by decide, by simp [twoNodes]⟩
  have hp : ∀ a ∈ [10, 20], (twoNodes.nodes a).process ≠ none := by simp [twoNodes]
  obtain ⟨hadd, h⟩ := list_ops_refine 0 hl rfl
  obtain ⟨hdel, hproc⟩ := h (by simp) 2 (by simp)
  have hfree : 30 ∉ twoNodes.freed := by simp [twoNodes]
  obtain ⟨s₁, hr₁, hs₁, -⟩ := hadd 30 (by simp) hfree
  obtain ⟨s₂, hr₂, hs₂, -⟩ := hdel 20
  obtain ⟨s₃, hr₃, hs₃, -⟩ := (hproc hp 2 none).1 30 (by simp) hfree
  obtain ⟨s₄, hr₄, hs₄, -⟩ := (hproc hp 1 none).2
  exact ⟨⟨s₁, hr₁, hs₁⟩, ⟨s₂, hr₂, hs₂⟩, ⟨s₃, hr₃, hs₃⟩, s₄, hr₄, hs₄⟩

end Xv6.ListProc
