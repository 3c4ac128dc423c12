import Xv6Rcu.Proc.ListProc
import Xv6Rcu.Proc.Seq

/-!
# `wakeup` and `kill` over the nodes

The two functions that look for processes and publish new versions of them, run without
interference over the heap of `ListProc`: the allocations, the stores through the new node, the
grace period and the reclamation are single steps. A field of a reclaimed node cannot be read, and
a `struct proc` can be written only if it is on the list or was allocated in the call.

- `forEach`: a loop over the list that reads `next` after its body. It returns the nodes that it
  has visited.
- `publish`: from `list_update_rcu` to `knfree`. `publish_ok`: the state that it makes.
- `wakeup_exact`: `wakeup` is exact iff nobody has to be woken; otherwise it reads the `next` of
  the node that it has just freed.
- `kill_exact`: `kill` is exact only if no process has the pid, or by accident: its new node
  points wherever the memory of the block points.
-/

namespace Xv6.ListProc

open Lib Function List
open Sleep (runnable)
open Xv6.Seq (killed)

/-! ## The program -/

def myproc : HeapM Ptr := do
  pushOff
  let p := (← get).cpuProc
  popOff
  return p

def knmalloc : HeapM Addr := do
  match (← get).supply with
  | [] => throw .fault
  | a :: supply =>
    modify fun s => { s with supply }
    return a

/-- The fields of the node keep the contents of the memory. -/
def knfree (a : Addr) : HeapM Unit := modify fun s => { s with freed := a :: s.freed }

/-- `knmalloc(sizeof(struct proc))`. -/
def newStruct : HeapM Addr := do
  let p ← knmalloc
  modify fun s => { s with structs := p :: s.structs }
  return p

/-- `a->process = p`. -/
def setProcess (a p : Addr) : HeapM Unit := do
  let n ← node a
  modify fun s => { s with nodes := update s.nodes a { n with process := some p } }

/-- `a->process`, to be dereferenced. -/
def processOf (a : Addr) : HeapM Addr := do deref (← node a).process

def loadProc (p : Addr) : HeapM Proc := return (← get).procs p

/-- `*p = v`. -/
def storeProc (p : Addr) (v : Proc) : HeapM Unit := do
  let s ← get
  if p ∈ s.structs then set { s with procs := update s.procs p v } else throw (.wild p)

/-- A new node with a new `struct proc`, that is the copy `v`. -/
def newNode (v : Proc) : HeapM (Addr × Addr) := do
  let new ← knmalloc
  let np ← newStruct
  setProcess new np
  storeProc np v
  return (new, np)

def synchronizeRcu (c : CpuId) : HeapM Unit := do
  acquire c .writers
  -- nobody else runs: the other CPUs are idle
  release c .writers

/-- `freeproc(p, 0)`. -/
def freeproc (p : Addr) : HeapM Unit :=
  modify fun s => { s with
    procs := update s.procs p {}
    structs := s.structs.erase p }

/-- From `list_update_rcu` on. `ptr_node_to_free` is assigned where a node is found. -/
def publish (c : CpuId) (new q : Addr) (fuel : Nat) : HeapM Unit := do
  let r ← listUpdateRcu c new q none fuel
  synchronizeRcu c
  let old ← deref r.2
  freeproc (← processOf old)
  knfree old

/-- `for (a = cur; a != 0; a = a->next)`. -/
def forEach (body : Addr → HeapM Unit) : Nat → Ptr → HeapM (List Addr)
  | _, none => return []
  | 0, some _ => throw .spin
  | n + 1, some a => do
    body a
    let visited ← forEach body n (← node a).next
    return a :: visited

/-- A visit of the first loop of `wakeup`. -/
def passLock (c : CpuId) (ticks chan : Chan) (a : Addr) : HeapM Unit := do
  if chan ≠ ticks then
    let p ← processOf a
    acquire c (.proc p)
    release c (.proc p)

/-- A visit of the second loop. -/
def wakeOne (c : CpuId) (chan : Chan) (fuel : Nat) (a : Addr) : HeapM Unit := do
  let p ← processOf a
  let v ← loadProc p
  if some p ≠ (← myproc) ∧ v.state = .sleeping ∧ v.chan = chan then
    let (new, np) ← newNode v
    rcuReadUnlock
    storeProc np (runnable v)
    publish c new p fuel
    rcuReadLock
  else
    rcuReadUnlock
    rcuReadLock

/-- The nodes that the second loop has visited; `ticks` is the address of the variable. -/
def wakeup (c : CpuId) (ticks chan : Chan) (fuel : Nat) : HeapM (List Addr) := do
  rcuReadLock
  let _ ← forEach (passLock c ticks chan) fuel (← get).processList
  let visited ← forEach (wakeOne c chan fuel) fuel (← get).processList
  rcuReadUnlock
  return visited

/-- The branch of the process that is found: no `struct proc` is allocated for the new node. -/
def killOne (c : CpuId) (fuel : Nat) (p : Addr) (v : Proc) : HeapM Int := do
  let new ← knmalloc
  let np ← processOf new
  storeProc np v
  rcuReadUnlock
  storeProc np (killed v)
  publish c new p fuel
  return 0

/-- The loop of `kill`. -/
def killFrom (c : CpuId) (pid : Int) (fuel : Nat) : Nat → Ptr → HeapM Int
  | _, none => do
    rcuReadUnlock
    return -1
  | 0, some _ => throw .spin
  | n + 1, some a => do
    let p ← processOf a
    let v ← loadProc p
    if v.pid = pid then killOne c fuel p v
    else
      rcuReadUnlock
      rcuReadLock
      killFrom c pid fuel n (← node a).next

def kill (c : CpuId) (pid : Int) (fuel : Nat) : HeapM Int := do
  rcuReadLock
  killFrom c pid fuel fuel (← get).processList

/-- Why a run has stopped. -/
def stopOf {α : Type} : EStateM.Result Stop Heap α → Option Stop
  | .ok _ _ => none
  | .error e _ => some e

/-! ## Single steps -/

section Steps
variable {s : Heap} {c : CpuId} {κ : Cpu} {a p new : Addr} {v : Proc}

/-- The state with another CPU state. -/
def Heap.on (s : Heap) (κ : Cpu) : Heap := { s with cpu := κ }

theorem myproc_ok : myproc (s.on κ.push) = .ok s.cpuProc (s.on κ.push) := by
  have h : popOff (s.on κ.push.push) = .ok () (s.on κ.push) := by
    refine (popOff_ok (κ := κ.push) rfl).trans ?_
    rw [Cpu.rest, Cpu.push_push_pop]
    rfl
  exact (bind_of_ok rfl).trans ((bind_of_ok rfl).trans ((bind_of_ok h).trans rfl))

theorem readUnlock_on : rcuReadUnlock (s.on κ.push) = .ok () (s.on κ.rest) := popOff_ok rfl

theorem readLock_on : rcuReadLock (s.on κ) = .ok () (s.on κ.push) := rfl

theorem processOf_ok (h : a ∉ s.freed) (hp : (s.nodes a).process = some p) :
    processOf a s = .ok p s := by
  refine (bind_of_ok (node_ok h)).trans ?_
  rw [hp]
  rfl

theorem processOf_null (h : a ∉ s.freed) (hp : (s.nodes a).process = none) :
    processOf a s = .error .fault s := by
  refine (bind_of_ok (node_ok h)).trans ?_
  rw [hp]
  rfl

theorem processOf_on (h : a ∉ s.freed) (hp : (s.nodes a).process = some p) :
    processOf a (s.on κ) = .ok p (s.on κ) := processOf_ok h hp

theorem node_on (h : a ∉ s.freed) : node a (s.on κ) = .ok (s.nodes a) (s.on κ) := node_ok h

theorem loadProc_on : loadProc p (s.on κ) = .ok (s.procs p) (s.on κ) := rfl

theorem storeProc_ok (h : p ∈ s.structs) :
    storeProc p v s = .ok () { s with procs := update s.procs p v } :=
  congrFun (if_pos h) s

theorem storeProc_wild (h : p ∉ s.structs) : storeProc p v s = .error (.wild p) s :=
  congrFun (if_neg h) s

theorem knmalloc_ok {supply : List Addr} (h : s.supply = a :: supply) :
    knmalloc s = .ok a { s with supply } := by
  refine (bind_of_ok rfl).trans ?_
  rw [h]
  rfl

theorem knmalloc_on {supply : List Addr} (h : s.supply = a :: supply) :
    knmalloc (s.on κ) = .ok a ({ s with supply }.on κ) := knmalloc_ok h

theorem setProcess_ok (h : a ∉ s.freed) : setProcess a p s =
    .ok () { s with nodes := update s.nodes a { s.nodes a with process := some p } } :=
  (bind_of_ok (node_ok h)).trans rfl

theorem synchronizeRcu_ok (hw : s.writers.locked = false) :
    synchronizeRcu c s = .ok () s.rest := (bind_of_ok (enter_ok hw)).trans leave_ok

theorem rest_rest : s.rest.rest = s.rest := by
  simp only [Heap.rest, Cpu.rest_rest]

end Steps

/-! ## Publication -/

section Publish
variable {s : Heap} {c : CpuId} {x new q px : Addr} {l₁ l₂ : List Addr} {fuel : Nat}

/-- The state behind the publication of `new` for `x`, whose `struct proc` is `px`. -/
def Heap.published (s : Heap) (l₁ : List Addr) (x new px : Addr) : Heap :=
  { ((s.link new (s.nodes x).next).point l₁ (some new)).rest with
    procs := update s.procs px {}
    structs := s.structs.erase px
    freed := x :: s.freed }

theorem publish_ok (hl : IsList s (l₁ ++ x :: l₂)) (hw : s.writers.locked = false)
    (hp : ∀ a ∈ l₁ ++ x :: l₂, (s.nodes a).process ≠ none) (hnew : new ∉ s.freed)
    (hmiss : ∀ a ∈ l₁, hasPid s q a = false) (hx : hasPid s q x = true)
    (hpx : (s.nodes x).process = some px) (hf : (l₁ ++ x :: l₂).length ≤ fuel) :
    publish c new q fuel s = .ok () (s.published l₁ x new px) := by
  have hk : Kept s ((s.link new (s.nodes x).next).point l₁ (some new)).rest :=
    kept_rest.link.point
  refine (bind_of_ok (listUpdateRcu_hit hl hw hp hnew hmiss hx (length_left_le hf))).trans ?_
  refine (bind_of_ok (synchronizeRcu_ok (by rw [hk.writers]))).trans ?_
  rw [rest_rest]
  refine (bind_of_ok rfl).trans ?_
  have hxl : x ∉ ((s.link new (s.nodes x).next).point l₁ (some new)).rest.freed := by
    rw [hk.freed]
    exact hl.live x (by simp)
  refine (bind_of_ok (processOf_ok hxl ((hk.process x).trans hpx))).trans ?_
  refine (bind_of_ok rfl).trans ?_
  have h1 := hk.procs
  have h2 := hk.structs
  have h3 := hk.freed
  simp only [Heap.published]
  rw [← h1, ← h2, ← h3]
  rfl

end Publish

/-! ## The processes -/

/-- The `struct proc` of a node. -/
def Heap.procOf (s : Heap) (a : Addr) : Proc :=
  match (s.nodes a).process with
  | some p => s.procs p
  | none => {}

theorem procOf_eq {s : Heap} {a p : Addr} (h : (s.nodes a).process = some p) :
    s.procOf a = s.procs p := by
  rw [Heap.procOf, h]

/-- A list of processes with distinct pids, whose structs are those in use; the writers lock is
free. -/
structure Processes (s : Heap) (l : List Addr) : Prop extends IsList s l where
  process : ∀ a ∈ l, ∃ p, (s.nodes a).process = some p
  structs : ∀ p, p ∈ s.structs ↔ ∃ a ∈ l, (s.nodes a).process = some p
  pids : (l.map fun a => (s.procOf a).pid).Nodup
  writers : s.writers.locked = false

/-- At least `n` blocks are left, and they are not in use. -/
structure Supply (s : Heap) (l : List Addr) (n : Nat) : Prop where
  length : n ≤ s.supply.length
  node : ∀ a ∈ s.supply, a ∉ l ∧ a ∉ s.freed
  struct : ∀ p ∈ s.supply, p ∉ s.structs

section Processes
variable {s : Heap} {a b p q : Addr} {l l₁ l₂ : List Addr}

namespace Processes

theorem ne_none (h : Processes s l) : ∀ a ∈ l, (s.nodes a).process ≠ none := by
  intro a ha
  obtain ⟨p, hp⟩ := h.process a ha
  simp [hp]

theorem pid_ne (h : Processes s (l₁ ++ a :: l₂)) :
    ∀ b ∈ l₁ ++ l₂, (s.procOf b).pid ≠ (s.procOf a).pid := by
  have hn := h.pids
  rw [map_append, map_cons, nodup_middle, nodup_cons] at hn
  intro b hb he
  refine hn.1 ?_
  rw [← map_append, ← he]
  exact mem_map_of_mem hb

theorem eq_of_pid (h : Processes s l) (ha : a ∈ l) (hb : b ∈ l)
    (he : (s.procOf a).pid = (s.procOf b).pid) : a = b :=
  inj_on_of_nodup_map h.pids ha hb he

theorem eq_of_process (h : Processes s l) (ha : a ∈ l) (hb : b ∈ l)
    (he : (s.nodes a).process = (s.nodes b).process) : a = b := by
  obtain ⟨p, hp⟩ := h.process a ha
  refine h.eq_of_pid ha hb ?_
  rw [procOf_eq hp, procOf_eq (he ▸ hp)]

end Processes

theorem hasPid_iff (hp : (s.nodes a).process = some p) :
    hasPid s q a = true ↔ (s.procs p).pid = (s.procs q).pid := by
  simp [hasPid, hp]

end Processes

/-! ## Loops over the list -/

section Loop
variable {s : Heap} {body : Addr → HeapM Unit} {l l₁ l₂ : List Addr} {n : Nat} {cur : Ptr}
  {a : Addr}

theorem bind_eq_of_eq {α β : Type} {m m' : HeapM α} {f : α → HeapM β} (h : m s = m' s) :
    (m >>= f) s = (m' >>= f) s := by
  simp only [bind, EStateM.bind, h]

theorem bind_of_error {α β : Type} {m : HeapM α} {f : α → HeapM β} {e : Stop} {s' : Heap}
    (h : m s = .error e s') : (m >>= f) s = .error e s' := by
  simp only [bind, EStateM.bind, h]

/-- A loop whose body changes nothing arrives at any place. -/
theorem forEach_skip {next : Ptr} (hn : l₁.length ≤ n)
    (hc : Seg (fun a => (s.nodes a).next) cur l₁ next) (hlive : ∀ a ∈ l₁, a ∉ s.freed)
    (hbody : ∀ a ∈ l₁, body a s = .ok () s) :
    forEach body n cur s = (do return l₁ ++ (← forEach body (n - l₁.length) next)) s := by
  induction l₁ generalizing n cur with
  | nil =>
    cases hc
    simp
  | cons a l ih =>
    obtain ⟨rfl, hc⟩ := hc
    obtain ⟨n, rfl⟩ := Nat.exists_eq_succ_of_ne_zero (Nat.ne_zero_of_lt hn)
    refine (bind_of_ok (hbody a (by simp))).trans ?_
    refine (bind_of_ok (node_ok (hlive a (by simp)))).trans ?_
    refine (bind_eq_of_eq (ih (Nat.le_of_succ_le_succ hn) hc
      (fun b hb => hlive b (mem_cons_of_mem _ hb))
      (fun b hb => hbody b (mem_cons_of_mem _ hb)))).trans ?_
    simp only [bind_assoc, pure_bind, cons_append, length_cons, Nat.succ_eq_add_one,
      Nat.add_sub_add_right]

theorem forEach_all (hl : IsList s l) (hn : l.length ≤ n) (hbody : ∀ a ∈ l, body a s = .ok () s) :
    forEach body n s.processList s = .ok l s := by
  rw [forEach_skip hn hl.chain hl.live hbody]
  have h : forEach body (n - l.length) none s = .ok [] s := by cases n - l.length <;> rfl
  refine (bind_of_ok h).trans ?_
  rw [append_nil]
  rfl

/-- The loop reads the `next` of the node that its body has freed. -/
theorem forEach_freed {s' : Heap} (hl : IsList s (l₁ ++ a :: l₂))
    (hn : (l₁ ++ a :: l₂).length ≤ n) (hbody : ∀ b ∈ l₁, body b s = .ok () s)
    (ha : body a s = .ok () s') (hfr : a ∈ s'.freed) :
    forEach body n s.processList s = .error (.freed a) s' := by
  obtain ⟨m, hs, rfl, -⟩ := seg_append.mp hl.chain
  have hlt : l₁.length < n := by
    simp only [length_append, length_cons] at hn
    omega
  rw [forEach_skip hlt.le hs (fun b hb => hl.live b (mem_append_left _ hb)) hbody]
  obtain ⟨k, hk⟩ := Nat.exists_eq_add_of_lt hlt
  have hstop : forEach body (n - l₁.length) (some a) s = .error (.freed a) s' := by
    rw [show n - l₁.length = k + 1 by omega]
    refine (bind_of_ok ha).trans ?_
    have hnode : node a s' = .error (.freed a) s' := congrFun (if_pos hfr) s'
    exact bind_of_error hnode
  exact bind_of_error hstop

end Loop

/-! ## `wakeup` -/

section Wakeup
variable {s : Heap} {c : CpuId} {κ : Cpu} {ticks chan : Chan} {fuel : Nat} {a p : Addr}
  {l l₁ l₂ : List Addr}

/-- A process other than the current one that sleeps on `chan`. -/
def Sleeps (s : Heap) (chan : Chan) (a : Addr) : Prop :=
  (s.nodes a).process ≠ s.cpuProc ∧ (s.procOf a).state = .sleeping ∧ (s.procOf a).chan = chan

instance : Decidable (Sleeps s chan a) := inferInstanceAs (Decidable (_ ∧ _))

/-- `wakeup` returns, it has visited every node, and its sleepers are runnable. -/
def WakeupExact (c : CpuId) (ticks chan : Chan) (fuel : Nat) (s : Heap) (l : List Addr) : Prop :=
  ∃ visited s', wakeup c ticks chan fuel s = .ok visited s' ∧ (∀ a ∈ l, a ∈ visited) ∧
    (∃ l', IsList s' l' ∧ l'.map s'.procOf =
      l.map fun a => if Sleeps s chan a then runnable (s.procOf a) else s.procOf a) ∧
    s'.cpuProc = s.cpuProc ∧ s'.writers.locked = false ∧ s'.cpu.noff = s.cpu.noff

theorem passLock_ok (hl : a ∉ s.freed) (hp : (s.nodes a).process = some p)
    (hlock : (s.procs p).lock = {}) :
    passLock c ticks chan a (s.on κ.push) = .ok () (s.on κ.push) := by
  unfold passLock
  split
  · refine (bind_of_ok (processOf_on hl hp)).trans ?_
    have hfree : ((s.on κ.push).lock (.proc p)).locked = false := by
      rw [show (s.on κ.push).lock (.proc p) = {} from hlock]
    refine (bind_of_ok (acquire_ok hfree)).trans ?_
    refine (release_ok (κ := κ.push) ?_ rfl).trans ?_
    · simp [Heap.lock, Heap.setLock]
    · have hprocs : update s.procs p { s.procs p with lock := {} } = s.procs := by
        rw [← hlock]
        exact update_eq_self p s.procs
      simp [Heap.setLock, Heap.on, hprocs, Cpu.rest]
  · rfl

theorem wakeOne_idle (hl : a ∉ s.freed) (hp : (s.nodes a).process = some p)
    (h : ¬ Sleeps s chan a) :
    wakeOne c chan fuel a (s.on κ.push) = .ok () (s.on κ.push) := by
  refine (bind_of_ok (processOf_on hl hp)).trans ((bind_of_ok loadProc_on).trans ?_)
  refine (bind_of_ok myproc_ok).trans ?_
  rw [Sleeps, procOf_eq hp, hp] at h
  refine (congrFun (if_neg h) _).trans ?_
  refine (bind_of_ok readUnlock_on).trans (readLock_on.trans ?_)
  rw [Cpu.rest_push]

/-- The state with the new node `new`, whose struct is the copy `v` at `np`. -/
def Heap.version (s : Heap) (new np : Addr) (v : Proc) (supply : List Addr) : Heap :=
  { s with
    nodes := update s.nodes new { s.nodes new with process := some np }
    procs := update s.procs np v
    structs := np :: s.structs
    supply }

section Version
variable {new np : Addr} {v w : Proc} {supply : List Addr}

theorem newNode_ok (hsup : s.supply = new :: np :: supply) (hnew : new ∉ s.freed) :
    newNode v (s.on κ) = .ok (new, np) ((s.version new np v supply).on κ) := by
  refine (bind_of_ok (knmalloc_on hsup)).trans ?_
  have hnp : newStruct ({ s with supply := np :: supply }.on κ) =
      .ok np ({ s with supply, structs := np :: s.structs }.on κ) :=
    (bind_of_ok (knmalloc_on rfl)).trans rfl
  refine (bind_of_ok hnp).trans ?_
  have hset := setProcess_ok (p := np)
    (s := { s with supply, structs := np :: s.structs }.on κ) hnew
  refine (bind_of_ok hset).trans ?_
  exact (bind_of_ok (storeProc_ok mem_cons_self)).trans rfl

theorem storeProc_version : storeProc np w ((s.version new np v supply).on κ) =
    .ok () ((s.version new np w supply).on κ) := by
  refine (storeProc_ok mem_cons_self).trans ?_
  simp only [Heap.version, Heap.on, update_idem]

theorem IsList.version (h : IsList s l) (hnew : new ∉ l) :
    IsList ((s.version new np v supply).on κ) l := by
  refine ⟨h.chain.congr fun b hb => ?_, h.nodup, h.live⟩
  have hb' : b ≠ new := ne_of_mem_of_not_mem hb hnew
  simp only [Heap.version, Heap.on, update_of_ne hb']

theorem process_version {b : Addr} (hb : b ≠ new) :
    (((s.version new np v supply).on κ).nodes b).process = (s.nodes b).process := by
  simp only [Heap.version, Heap.on, update_of_ne hb]

theorem procs_version {q : Addr} (hq : q ≠ np) :
    ((s.version new np v supply).on κ).procs q = s.procs q := update_of_ne hq ..

end Version

theorem wakeOne_frees (h : Processes s (l₁ ++ a :: l₂)) (hs : Supply s (l₁ ++ a :: l₂) 2)
    (hf : (l₁ ++ a :: l₂).length ≤ fuel) (ha : Sleeps s chan a) :
    Returns (wakeOne c chan fuel a) (s.on κ.push) fun _ s' => a ∈ s'.freed := by
  obtain ⟨p, hp⟩ := h.process a (by simp)
  obtain ⟨new, np, supply, hsup⟩ : ∃ new np supply, s.supply = new :: np :: supply := by
    have h2 := hs.length
    match hsup : s.supply with
    | [] => simp [hsup] at h2
    | [_] => simp [hsup] at h2
    | new :: np :: supply => exact ⟨new, np, supply, rfl⟩
  obtain ⟨hnewl, hnew⟩ := hs.node new (by simp [hsup])
  have hnp : np ∉ s.structs := hs.struct np (by simp [hsup])
  -- the structs of the listed processes are other ones than the new struct
  have hstruct : ∀ b ∈ l₁ ++ a :: l₂, ∀ q, (s.nodes b).process = some q → q ≠ np :=
    fun b hb q hq => ne_of_mem_of_not_mem ((h.structs q).mpr ⟨b, hb, hq⟩) hnp
  have hne : ∀ b ∈ l₁ ++ a :: l₂, b ≠ new := fun b hb => ne_of_mem_of_not_mem hb hnewl
  have hpnp : p ≠ np := hstruct a (by simp) p hp
  refine .bind_eq (processOf_on (h.live a (by simp)) hp) ?_
  refine .bind_eq loadProc_on (.bind_eq myproc_ok ?_)
  rw [Sleeps, procOf_eq hp, hp] at ha
  rw [if_pos ha]
  refine .bind_eq (newNode_ok hsup hnew) (.bind_eq readUnlock_on (.bind_eq storeProc_version ?_))
  have hpa : (((s.version new np (runnable (s.procs p)) supply).on κ.rest).nodes a).process =
      some p := (process_version (hne a (by simp))).trans hp
  refine .bind_eq (publish_ok (h.version hnewl) h.writers ?_ hnew ?_ ?_ hpa hf) ?_
  · intro b hb
    rw [process_version (hne b hb)]
    exact h.ne_none b hb
  · intro b hb
    have hbl : b ∈ l₁ ++ a :: l₂ := mem_append_left _ hb
    obtain ⟨q, hq⟩ := h.process b hbl
    have hpid := h.pid_ne b (mem_append_left _ hb)
    rw [procOf_eq hq, procOf_eq hp] at hpid
    rw [Bool.eq_false_iff, ne_eq, hasPid_iff ((process_version (hne b hbl)).trans hq),
      procs_version (hstruct b hbl q hq), procs_version hpnp]
    exact hpid
  · rw [hasPid_iff hpa]
  · exact ⟨_, _, rfl, mem_cons_self⟩

section
variable (h : Processes s l) (hlock : ∀ a ∈ l, (s.procOf a).lock = {})
include h hlock

/-- The first loop changes nothing. -/
theorem wakeup_eq (hf : l.length ≤ fuel) :
    wakeup c ticks chan fuel s = (do
      let visited ← forEach (wakeOne c chan fuel) fuel (s.on s.cpu.push).processList
      rcuReadUnlock
      return visited : HeapM (List Addr)) (s.on s.cpu.push) := by
  have hl : IsList (s.on s.cpu.push) l := ⟨h.chain, h.nodup, h.live⟩
  have hpass : ∀ a ∈ l, passLock c ticks chan a (s.on s.cpu.push) = .ok () (s.on s.cpu.push) := by
    intro a ha
    obtain ⟨p, hp⟩ := h.process a ha
    have := hlock a ha
    rw [procOf_eq hp] at this
    exact passLock_ok (h.live a ha) hp this
  refine (bind_of_ok (readLock_on (s := s) (κ := s.cpu))).trans ((bind_of_ok rfl).trans ?_)
  exact (bind_of_ok (forEach_all hl hf hpass)).trans (bind_of_ok rfl)

omit h hlock in
theorem wakeOne_listed (h : Processes s l) (ha : a ∈ l) (hno : ¬ Sleeps s chan a) :
    wakeOne c chan fuel a (s.on κ.push) = .ok () (s.on κ.push) := by
  obtain ⟨p, hp⟩ := h.process a ha
  exact wakeOne_idle (h.live a ha) hp hno

/-- Nobody has to be woken. -/
theorem wakeup_idle (hf : l.length ≤ fuel) (hno : ∀ a ∈ l, ¬ Sleeps s chan a) :
    wakeup c ticks chan fuel s = .ok l (s.on s.cpu.rest) := by
  have hl : IsList (s.on s.cpu.push) l := ⟨h.chain, h.nodup, h.live⟩
  rw [wakeup_eq h hlock hf]
  refine (bind_of_ok (forEach_all hl hf fun a ha => wakeOne_listed h ha (hno a ha))).trans ?_
  exact (bind_of_ok readUnlock_on).trans rfl

/-- The `next` of the first sleeper is read after its node was freed. -/
theorem wakeup_reads_freed (hs : Supply s l 2) (hf : l.length ≤ fuel)
    (hsome : ∃ a ∈ l, Sleeps s chan a) :
    ∃ a s', wakeup c ticks chan fuel s = .error (.freed a) s' := by
  obtain ⟨a, ha⟩ : ∃ a, l.find? (fun a => decide (Sleeps s chan a)) = some a := by
    obtain ⟨a, ha, hsl⟩ := hsome
    exact Option.isSome_iff_exists.mp (find?_isSome.mpr ⟨a, ha, decide_eq_true hsl⟩)
  obtain ⟨hsl, l₁, l₂, rfl, hno⟩ := find?_eq_some_iff_append.mp ha
  have hl : IsList (s.on s.cpu.push) (l₁ ++ a :: l₂) := ⟨h.chain, h.nodup, h.live⟩
  have hidle : ∀ b ∈ l₁, wakeOne c chan fuel b (s.on s.cpu.push) = .ok () (s.on s.cpu.push) :=
    fun b hb => wakeOne_listed h (mem_append_left _ hb) (by simpa using hno b hb)
  obtain ⟨_, s', hwake, hfr⟩ := wakeOne_frees (c := c) (κ := s.cpu) h hs hf (of_decide_eq_true hsl)
  refine ⟨a, s', ?_⟩
  rw [wakeup_eq h hlock hf]
  have hloop := forEach_freed hl hf hidle hwake hfr
  exact bind_of_error hloop

end

/-- `wakeup` is exact, and reads no freed node, iff nobody has to be woken. -/
theorem wakeup_exact (h : Processes s l) (hlock : ∀ a ∈ l, (s.procOf a).lock = {})
    (hs : Supply s l 2) (hf : l.length ≤ fuel) :
    WakeupExact c ticks chan fuel s l ↔ ∀ a ∈ l, ¬ Sleeps s chan a := by
  constructor
  · rintro ⟨visited, s', hret, -⟩ a ha hsl
    obtain ⟨b, s'', hstop⟩ := wakeup_reads_freed h hlock hs hf ⟨a, ha, hsl⟩
    cases hret.symm.trans hstop
  · intro hno
    refine ⟨l, _, wakeup_idle h hlock hf hno, fun _ ha => ha, ⟨l, ⟨h.chain, h.nodup, h.live⟩, ?_⟩,
      rfl, h.writers, rfl⟩
    refine map_congr_left fun a ha => ?_
    rw [if_neg (hno a ha)]
    rfl

end Wakeup

/-- The current process, 1, and the process 2, which sleeps on the channel 7. -/
def oneSleeper : Heap where
  nodes a := if a = 10 then ⟨some 1, some 20⟩ else if a = 20 then ⟨some 2, none⟩ else ⟨none, none⟩
  procs p := if p = 2 then { pid := 2, state := .sleeping, chan := 7 } else { pid := p }
  processList := some 10
  cpuProc := some 1
  supply := [30, 31]
  structs := [1, 2]

theorem processes_oneSleeper : Processes oneSleeper [10, 20] where
  chain := ⟨rfl, rfl, rfl⟩
  nodup := by decide
  live := by simp [oneSleeper]
  process := by simp [oneSleeper]
  structs := by simp [oneSleeper, eq_comm]
  pids := by decide
  writers := rfl

theorem supply_oneSleeper : Supply oneSleeper [10, 20] 2 :=
  ⟨by decide, by decide, by decide⟩

theorem wakeup_exact_oneSleeper : WakeupExact 0 1 8 2 oneSleeper [10, 20] :=
  (wakeup_exact processes_oneSleeper (by decide) supply_oneSleeper (by decide)).mpr (by decide)

/-- The process 2 is woken, and its node is read after that. -/
theorem wakeup_oneSleeper : Processes oneSleeper [10, 20] ∧
    stopOf (wakeup 0 1 7 2 oneSleeper) = some (.freed 20) ∧
    ¬ WakeupExact 0 1 7 2 oneSleeper [10, 20] := by
  have h : stopOf (wakeup 0 1 7 2 oneSleeper) = some (.freed 20) := by decide +kernel
  refine ⟨processes_oneSleeper, h, ?_⟩
  rintro ⟨visited, s', hret, -⟩
  rw [hret] at h
  cases h

/-! ## `kill` -/

section Kill
variable {s : Heap} {c : CpuId} {κ : Cpu} {pid : Int} {fuel n : Nat} {a p np new : Addr}
  {l l₁ l₂ supply : List Addr} {b px x : Addr} {v : Proc}

/-- `kill` returns 0 iff the process is listed, and it has changed this process only. -/
def KillExact (c : CpuId) (pid : Int) (fuel : Nat) (s : Heap) (l : List Addr) : Prop :=
  ∃ r s', kill c pid fuel s = .ok r s' ∧ (r = 0 ↔ ∃ a ∈ l, (s.procOf a).pid = pid) ∧
    (r ≠ 0 → r = -1 ∧ IsList s' l) ∧
    (∃ l', IsList s' l' ∧ l'.map s'.procOf =
      l.map fun a => if (s.procOf a).pid = pid then killed (s.procOf a) else s.procOf a) ∧
    s'.writers.locked = false ∧ s'.cpu.noff = s.cpu.noff

/-- The block of the new node happens to point to a listed struct that is all zero, before the
process with the pid, which is killed and awake already. -/
def Accident (s : Heap) (l : List Addr) (pid : Int) (new : Addr) : Prop :=
  ∃ l₁ b l₂, l = l₁ ++ b :: l₂ ∧ (s.nodes new).process = (s.nodes b).process ∧ s.procOf b = {} ∧
    ∃ a ∈ l₂, (s.procOf a).pid = pid ∧ killed (s.procOf a) = s.procOf a

theorem killFrom_skip {next cur : Ptr} (hn : l₁.length ≤ n)
    (hc : Seg (fun a => (s.nodes a).next) cur l₁ next) (hlive : ∀ a ∈ l₁, a ∉ s.freed)
    (hno : ∀ a ∈ l₁, ∃ p, (s.nodes a).process = some p ∧ (s.procs p).pid ≠ pid) :
    killFrom c pid fuel n cur (s.on κ.push) =
      killFrom c pid fuel (n - l₁.length) next (s.on κ.push) := by
  induction l₁ generalizing n cur with
  | nil =>
    cases hc
    rfl
  | cons a l ih =>
    obtain ⟨rfl, hc⟩ := hc
    obtain ⟨n, rfl⟩ := Nat.exists_eq_succ_of_ne_zero (Nat.ne_zero_of_lt hn)
    obtain ⟨p, hp, hpid⟩ := hno a (by simp)
    have ha : a ∉ s.freed := hlive a (by simp)
    refine (bind_of_ok (processOf_on ha hp)).trans ((bind_of_ok loadProc_on).trans ?_)
    refine (congrFun (if_neg hpid) _).trans ?_
    refine (bind_of_ok readUnlock_on).trans ((bind_of_ok readLock_on).trans ?_)
    rw [Cpu.rest_push]
    refine (bind_of_ok (node_on ha)).trans ?_
    rw [ih (Nat.le_of_succ_le_succ hn) hc (fun b hb => hlive b (mem_cons_of_mem _ hb))
      fun b hb => hno b (mem_cons_of_mem _ hb)]
    simp only [length_cons, Nat.succ_eq_add_one, Nat.add_sub_add_right]

theorem kill_miss (h : Processes s l) (hf : l.length ≤ fuel)
    (hno : ∀ a ∈ l, (s.procOf a).pid ≠ pid) :
    kill c pid fuel s = .ok (-1) (s.on s.cpu.rest) := by
  have hno' : ∀ a ∈ l, ∃ p, (s.nodes a).process = some p ∧ (s.procs p).pid ≠ pid := by
    intro a ha
    obtain ⟨p, hp⟩ := h.process a ha
    exact ⟨p, hp, procOf_eq hp ▸ hno a ha⟩
  refine (bind_of_ok (readLock_on (s := s) (κ := s.cpu))).trans ((bind_of_ok rfl).trans ?_)
  refine (killFrom_skip hf h.chain h.live hno').trans ?_
  have hend : killFrom c pid fuel (fuel - l.length) none (s.on s.cpu.push) =
      (do rcuReadUnlock; return -1 : HeapM Int) (s.on s.cpu.push) := by
    cases fuel - l.length <;> rfl
  exact hend.trans ((bind_of_ok readUnlock_on).trans rfl)

theorem kill_found (h : Processes s l) (hf : l.length ≤ fuel) (ha : a ∈ l)
    (hp : (s.nodes a).process = some p) :
    kill c (s.procs p).pid fuel s = killOne c fuel p (s.procs p) (s.on s.cpu.push) := by
  obtain ⟨l₁, l₂, rfl⟩ := append_of_mem ha
  obtain ⟨m, hs, rfl, -⟩ := seg_append.mp h.chain
  have hno : ∀ b ∈ l₁, ∃ q, (s.nodes b).process = some q ∧ (s.procs q).pid ≠ (s.procs p).pid := by
    intro b hb
    obtain ⟨q, hq⟩ := h.process b (mem_append_left _ hb)
    have hne := h.pid_ne b (mem_append_left _ hb)
    rw [procOf_eq hq, procOf_eq hp] at hne
    exact ⟨q, hq, hne⟩
  refine (bind_of_ok (readLock_on (s := s) (κ := s.cpu))).trans ((bind_of_ok rfl).trans ?_)
  refine (killFrom_skip (length_left_le hf) hs
    (fun b hb => h.live b (mem_append_left _ hb)) hno).trans ?_
  obtain ⟨k, hk⟩ : ∃ k, fuel - l₁.length = k + 1 := by
    simp only [length_append, length_cons] at hf
    exact ⟨fuel - l₁.length - 1, by omega⟩
  rw [hk]
  refine (bind_of_ok (processOf_on (h.live a ha) hp)).trans ((bind_of_ok loadProc_on).trans ?_)
  exact congrFun (if_pos rfl) _

/-- The state with the struct `np` overwritten. -/
def Heap.overwrite (s : Heap) (np : Addr) (v : Proc) (supply : List Addr) : Heap :=
  { s with procs := update s.procs np v, supply }

theorem killOne_writes (hsup : s.supply = new :: supply) (hnew : new ∉ s.freed)
    (hnp : (s.nodes new).process = some np) (hst : np ∈ s.structs) :
    killOne c fuel p v (s.on κ.push) =
      (do publish c new p fuel; return 0 : HeapM Int)
        ((s.overwrite np (killed v) supply).on κ.rest) := by
  refine (bind_of_ok (knmalloc_on hsup)).trans ?_
  have hof : processOf new ({ s with supply }.on κ.push) = .ok np ({ s with supply }.on κ.push) :=
    processOf_on hnew hnp
  have hstore : storeProc np v ({ s with supply }.on κ.push) =
      .ok () ((s.overwrite np v supply).on κ.push) := storeProc_ok hst
  have hkill : storeProc np (killed v) ((s.overwrite np v supply).on κ.rest) =
      .ok () ((s.overwrite np (killed v) supply).on κ.rest) := by
    have hst' : np ∈ ((s.overwrite np v supply).on κ.rest).structs := hst
    refine (storeProc_ok hst').trans ?_
    simp only [Heap.overwrite, Heap.on, update_idem]
  refine (bind_of_ok hof).trans ((bind_of_ok hstore).trans ?_)
  exact (bind_of_ok readUnlock_on).trans (bind_of_ok hkill)

/-- What the new node points to must be a struct in use. -/
theorem killOne_returns {r : Int} {s' : Heap} (hsup : s.supply = new :: supply)
    (hnew : new ∉ s.freed) (h : killOne c fuel p v (s.on κ.push) = .ok r s') :
    ∃ np, (s.nodes new).process = some np ∧ np ∈ s.structs := by
  have h := (bind_of_ok (knmalloc_on hsup)).symm.trans h
  cases hnp : (s.nodes new).process with
  | none =>
    have hof : processOf new ({ s with supply }.on κ.push) =
        .error .fault ({ s with supply }.on κ.push) := processOf_null hnew hnp
    cases (bind_of_error hof).symm.trans h
  | some np =>
    refine ⟨np, rfl, ?_⟩
    by_contra hst
    have hof : processOf new ({ s with supply }.on κ.push) = .ok np ({ s with supply }.on κ.push) :=
      processOf_on hnew hnp
    have h := (bind_of_ok hof).symm.trans h
    have hwild : storeProc np v ({ s with supply }.on κ.push) =
        .error (.wild np) ({ s with supply }.on κ.push) := storeProc_wild hst
    cases (bind_of_error hwild).symm.trans h

theorem IsList.published (h : IsList s (l₁ ++ x :: l₂)) (hnew : new ∉ l₁ ++ x :: l₂)
    (hfr : new ∉ s.freed) : IsList (s.published l₁ x new px) (l₁ ++ new :: l₂) := by
  have hr := (h.replace hnew hfr).rest
  refine ⟨hr.chain, hr.nodup, fun b hb => ?_⟩
  have hnd := nodup_middle.mp h.nodup
  have hbx : b ≠ x := by
    rintro rfl
    rcases mem_append.mp hb with hb | hb
    · exact (nodup_cons.mp hnd).1 (mem_append_left _ hb)
    · rcases mem_cons.mp hb with rfl | hb
      · exact hnew (by simp)
      · exact (nodup_cons.mp hnd).1 (mem_append_right _ hb)
  have hbl : b ∉ s.freed := by
    have := hr.live b hb
    rwa [(kept_rest.link.point (s := s)).freed] at this
  exact fun hm => (mem_cons.mp hm).elim hbx hbl

theorem noff_published : (s.published l₁ x new px).cpu.noff = s.cpu.noff :=
  (kept_rest.link.point (s := s)).noff

theorem process_published : ((s.published l₁ x new px).nodes b).process = (s.nodes b).process :=
  (kept_rest.link.point (s := s)).process b

theorem hasPid_overwrite {q : Addr} (hq : (s.nodes b).process = some q) :
    hasPid ((s.overwrite np (killed (s.procs p)) supply).on κ) p b = true ↔
      q = np ∨ (s.procs q).pid = (s.procs p).pid := by
  have hpid : ∀ q, ((update s.procs np (killed (s.procs p))) q).pid =
      if q = np then (s.procs p).pid else (s.procs q).pid := by
    intro q
    rcases eq_or_ne q np with rfl | hne
    · simp [killed]
    · rw [update_of_ne hne, if_neg hne]
  have hq' : (((s.overwrite np (killed (s.procs p)) supply).on κ).nodes b).process = some q := hq
  refine (hasPid_iff hq').trans ?_
  simp only [Heap.overwrite, Heap.on, hpid, ite_self]
  rcases eq_or_ne q np with rfl | hne
  · simp
  · simp [hne]

/-- The first node whose struct is the overwritten one or has the pid is replaced. -/
theorem kill_hit (h : Processes s l) (hf : l.length ≤ fuel) (ha : a ∈ l)
    (hp : (s.nodes a).process = some p) (hsup : s.supply = new :: supply) (hnew : new ∉ s.freed)
    (hnp : (s.nodes new).process = some np) (hst : np ∈ s.structs) :
    ∃ l₁ x l₂ px, l = l₁ ++ x :: l₂ ∧ (s.nodes x).process = some px ∧
      (px = np ∨ x = a) ∧ (∀ b ∈ l₁, b ≠ a ∧ (s.nodes b).process ≠ some np) ∧
      kill c (s.procs p).pid fuel s = .ok 0
        (((s.overwrite np (killed (s.procs p)) supply).on s.cpu.rest).published l₁ x new px) := by
  have hl : IsList ((s.overwrite np (killed (s.procs p)) supply).on s.cpu.rest) l :=
    ⟨h.chain, h.nodup, h.live⟩
  rcases find_cases ((s.overwrite np (killed (s.procs p)) supply).on s.cpu.rest) p l with
    ⟨-, hno⟩ | ⟨l₁, x, l₂, rfl, -, hmiss, hx⟩
  · cases (hno a ha).symm.trans ((hasPid_overwrite hp).mpr (.inr rfl))
  · obtain ⟨px, hpx⟩ := h.process x (by simp)
    refine ⟨l₁, x, l₂, px, rfl, hpx, ?_, fun b hb => ⟨?_, ?_⟩, ?_⟩
    · rcases (hasPid_overwrite hpx).mp hx with hx | hx
      · exact .inl hx
      · exact .inr (h.eq_of_pid (by simp) ha (by rw [procOf_eq hpx, procOf_eq hp, hx]))
    · rintro rfl
      cases (hmiss b hb).symm.trans ((hasPid_overwrite hp).mpr (.inr rfl))
    · intro hbn
      cases (hmiss b hb).symm.trans ((hasPid_overwrite hbn).mpr (.inl rfl))
    · rw [kill_found h hf ha hp, killOne_writes hsup hnew hnp hst]
      exact (bind_of_ok (publish_ok hl h.writers h.ne_none hnew hmiss hx hpx hf)).trans rfl


/-- The processes behind `kill`: the struct of the displaced node is zero, the overwritten one is
the copy. -/
theorem procOf_killed {q : Addr} (hq : (s.nodes b).process = some q) :
    (((s.overwrite np v supply).on κ).published l₁ x new px).procOf b =
      if q = px then {} else if q = np then v else s.procs q := by
  have hq' : ((((s.overwrite np v supply).on κ).published l₁ x new px).nodes b).process = some q :=
    process_published.trans hq
  rw [procOf_eq hq']
  show update (update s.procs np v) px {} q = _
  simp only [update_apply]

theorem map_middle {α β : Type} {f g : α → β} {k1 k2 : List α} {x y : α} :
    (k1 ++ y :: k2).map f = (k1 ++ x :: k2).map g ↔
      f y = g x ∧ ∀ b ∈ k1 ++ k2, f b = g b := by
  simp only [map_append, map_cons, forall_mem_append]
  constructor
  · intro h
    obtain ⟨h1, h2⟩ := append_inj h (by simp)
    obtain ⟨h2, h3⟩ := cons.inj h2
    exact ⟨h2, map_inj_left.mp h1, map_inj_left.mp h3⟩
  · rintro ⟨h, h1, h2⟩
    rw [map_inj_left.mpr h1, map_inj_left.mpr h2, h]

/-- Where `kill` has found the process and is exact, it has changed nothing. -/
theorem accident_of_exact (h : Processes s l) (hsup : s.supply = new :: supply) (hnewl : new ∉ l)
    (hnew : new ∉ s.freed) (hf : l.length ≤ fuel) (ha : a ∈ l)
    (hk : KillExact c (s.procOf a).pid fuel s l) : Accident s l (s.procOf a).pid new := by
  obtain ⟨p, hp⟩ := h.process a ha
  obtain ⟨r, s', hret, -, -, ⟨l', hl', hmap⟩, -⟩ := hk
  have hret' := hret
  rw [procOf_eq hp, kill_found h hf ha hp] at hret'
  obtain ⟨np, hnp, hst⟩ := killOne_returns hsup hnew hret'
  obtain ⟨l₁, x, l₂, px, rfl, hpx, hxa, hbefore, hkill⟩ :=
    kill_hit (c := c) h hf ha hp hsup hnew hnp hst
  rw [procOf_eq hp, hkill] at hret
  cases hret
  have hl : IsList ((s.overwrite np (killed (s.procs p)) supply).on s.cpu.rest)
    (l₁ ++ x :: l₂) := ⟨h.chain, h.nodup, h.live⟩
  cases hl'.chain.unique (hl.published hnewl hnew).chain
  obtain ⟨hmid, hrest⟩ := map_middle.mp hmap
  have hdis : ∀ b ∈ l₁ ++ l₂, b ≠ x := by
    rintro b hb rfl
    exact (nodup_cons.mp (nodup_middle.mp h.nodup)).1 hb
  by_cases hpn : px = np
  · -- the overwritten struct is the one that is cleared
    subst hpn
    rw [procOf_killed hnp, if_pos rfl] at hmid
    have hxpid : (s.procOf x).pid ≠ (s.procOf a).pid := by
      intro he
      rw [if_pos he] at hmid
      cases congrArg Proc.killed hmid
    rw [if_neg hxpid] at hmid
    have hax : a ≠ x := by
      rintro rfl
      exact hxpid rfl
    have ha2 : a ∈ l₂ := by
      rcases mem_append.mp ha with ha | ha
      · exact absurd rfl (hbefore a ha).1
      · exact (mem_cons.mp ha).resolve_left hax
    have hppx : p ≠ px := by
      rintro rfl
      exact hax (h.eq_of_process ha (by simp) (hp.trans hpx.symm))
    have hself := hrest a (mem_append_right _ ha2)
    rw [if_pos rfl, procOf_killed hp, if_neg hppx, if_neg hppx, procOf_eq hp] at hself
    rw [← procOf_eq hp] at hself
    exact ⟨l₁, x, l₂, rfl, hnp.trans hpx.symm, hmid.symm, a, ha2, rfl, hself.symm⟩
  · -- another listed process has become the copy
    exfalso
    obtain ⟨b, hb, hbn⟩ := (h.structs np).mp hst
    have hbx : b ≠ x := by
      rintro rfl
      exact hpn (Option.some.inj (hpx.symm.trans hbn))
    have hb' : b ∈ l₁ ++ l₂ := by
      rcases mem_append.mp hb with hb | hb
      · exact mem_append_left _ hb
      · exact mem_append_right _ ((mem_cons.mp hb).resolve_left hbx)
    obtain rfl := hxa.resolve_left hpn
    have hpid : (s.procOf b).pid ≠ (s.procOf x).pid := fun he => hbx (h.eq_of_pid hb ha he)
    have hcopy := hrest b hb'
    rw [if_neg hpid, procOf_killed hbn, if_neg (Ne.symm hpn), if_pos rfl] at hcopy
    refine hpid ?_
    rw [← hcopy, procOf_eq hp]
    rfl

/-- In two decompositions of one list, what comes before `b` comes before what is behind it. -/
theorem mem_left_of_split {α : Type} {m1 m2 k1 k2 : List α} {b x : α}
    (h : m1 ++ b :: m2 = k1 ++ x :: k2) (hnd : (m1 ++ b :: m2).Nodup) (hx : x ∈ m2) : b ∈ k1 := by
  have hx1 : x ∉ m1 := fun hm =>
    (nodup_append.mp hnd).2.2 x hm x (mem_cons_of_mem _ hx) rfl
  have hxb : b ≠ x := by
    rintro rfl
    exact (nodup_cons.mp (nodup_append.mp hnd).2.1).1 hx
  rcases append_eq_append_iff.mp h with ⟨as, rfl, has⟩ | ⟨as, rfl, has⟩
  · cases as with
    | nil => exact absurd (cons.inj has).1 hxb
    | cons d as =>
      obtain ⟨rfl, -⟩ := cons.inj has
      simp
  · cases as with
    | nil => exact absurd (cons.inj has).1.symm hxb
    | cons d as =>
      obtain ⟨rfl, -⟩ := cons.inj has
      exact absurd (by simp) hx1

/-- The converse: `kill` returns 0 and has changed nothing. -/
theorem exact_of_accident (h : Processes s l) (hsup : s.supply = new :: supply) (hnewl : new ∉ l)
    (hnew : new ∉ s.freed) (hf : l.length ≤ fuel) (hacc : Accident s l pid new) :
    KillExact c pid fuel s l := by
  obtain ⟨m1, b, m2, hm, hnb, hzero, a, ham, rfl, hself⟩ := hacc
  have ha : a ∈ l := by simp [hm, ham]
  have hb : b ∈ l := by simp [hm]
  obtain ⟨p, hp⟩ := h.process a ha
  obtain ⟨np, hbn⟩ := h.process b hb
  have hst : np ∈ s.structs := (h.structs np).mpr ⟨b, hb, hbn⟩
  have hnd : (m1 ++ b :: m2).Nodup := hm ▸ h.nodup
  have hba : b ≠ a := by
    rintro rfl
    exact (nodup_cons.mp (nodup_append.mp hnd).2.1).1 ham
  obtain ⟨l₁, x, l₂, px, rfl, hpx, hxa, hbefore, hkill⟩ :=
    kill_hit (c := c) h hf ha hp hsup hnew (hnb.trans hbn) hst
  have hpn : px = np := by
    refine hxa.resolve_right ?_
    rintro rfl
    exact (hbefore b (mem_left_of_split hm.symm hnd ham)).2 hbn
  subst hpn
  obtain rfl := h.eq_of_process (by simp) hb (hpx.trans hbn.symm)
  have hl : IsList ((s.overwrite px (killed (s.procs p)) supply).on s.cpu.rest)
    (l₁ ++ x :: l₂) := ⟨h.chain, h.nodup, h.live⟩
  have hrun := (congrArg (fun v : Proc => kill c v.pid fuel s) (procOf_eq hp)).trans hkill
  refine ⟨0, _, hrun, ⟨fun _ => ⟨a, ha, rfl⟩, fun _ => rfl⟩, fun h0 => absurd rfl h0,
    ⟨_, hl.published hnewl hnew, map_middle.mpr ⟨?_, fun y hy => ?_⟩⟩, rfl, ?_⟩
  · have hxpid : (s.procOf x).pid ≠ (s.procOf a).pid := fun he => hba (h.eq_of_pid hb ha he)
    rw [procOf_killed (hnb.trans hbn), if_pos rfl, if_neg hxpid, hzero]
  · have hyx : y ≠ x := by
      rintro rfl
      exact (nodup_cons.mp (nodup_middle.mp h.nodup)).1 hy
    have hyl : y ∈ l₁ ++ x :: l₂ := mem_append.mpr
      ((mem_append.mp hy).imp_right (mem_cons_of_mem _))
    obtain ⟨q, hq⟩ := h.process y hyl
    have hqx : q ≠ px := by
      rintro rfl
      exact hyx (h.eq_of_process hyl hb (hq.trans hbn.symm))
    rw [procOf_killed hq, if_neg hqx, if_neg hqx, ← procOf_eq hq]
    split
    · obtain rfl := h.eq_of_pid hyl ha ‹_›
      exact hself.symm
    · rfl
  · exact noff_published

/-- `kill` is exact iff no process has the pid, or by accident. -/
theorem kill_exact (h : Processes s l) (hsup : s.supply = new :: supply) (hnewl : new ∉ l)
    (hnew : new ∉ s.freed) (hf : l.length ≤ fuel) :
    KillExact c pid fuel s l ↔ (∀ a ∈ l, (s.procOf a).pid ≠ pid) ∨ Accident s l pid new := by
  constructor
  · intro hk
    by_cases hno : ∀ a ∈ l, (s.procOf a).pid ≠ pid
    · exact .inl hno
    · simp only [not_forall, not_not] at hno
      obtain ⟨a, ha, rfl⟩ := hno
      exact .inr (accident_of_exact h hsup hnewl hnew hf ha hk)
  · rintro (hno | hacc)
    · refine ⟨-1, _, kill_miss h hf hno, ?_, fun _ => ⟨rfl, ⟨h.chain, h.nodup, h.live⟩⟩,
        ⟨l, ⟨h.chain, h.nodup, h.live⟩, ?_⟩, h.writers, rfl⟩
      · constructor
        · intro h0
          cases h0
        · rintro ⟨a, ha, hpid⟩
          exact absurd hpid (hno a ha)
      · refine map_congr_left fun a ha => ?_
        rw [if_neg (hno a ha)]
        rfl
    · exact exact_of_accident h hsup hnewl hnew hf hacc

end Kill

theorem kill_exact_oneSleeper : KillExact 0 5 2 oneSleeper [10, 20] := by
  have hsup : oneSleeper.supply = 30 :: [31] := rfl
  exact (kill_exact processes_oneSleeper hsup (by decide) (by decide) (by decide)).mpr
    (.inl (by decide))

/-- The memory of the new node holds the number 99. -/
def junkBlock : Heap :=
  { oneSleeper with nodes := update oneSleeper.nodes 30 ⟨some 99, none⟩ }

theorem processes_junkBlock : Processes junkBlock [10, 20] where
  chain := ⟨rfl, rfl, rfl⟩
  nodup := by decide
  live := by simp [junkBlock, oneSleeper]
  process := by simp [junkBlock, oneSleeper]
  structs := by simp [junkBlock, oneSleeper, eq_comm]
  pids := by decide
  writers := rfl

/-- The new version of the process 2 is written to the address 99. -/
theorem kill_junkBlock : Processes junkBlock [10, 20] ∧
    stopOf (kill 0 2 2 junkBlock) = some (.wild 99) ∧ ¬ KillExact 0 2 2 junkBlock [10, 20] := by
  have h : stopOf (kill 0 2 2 junkBlock) = some (.wild 99) := by decide +kernel
  refine ⟨processes_junkBlock, h, ?_⟩
  rintro ⟨r, s', hret, -⟩
  rw [hret] at h
  cases h

end Xv6.ListProc
