import Xv6Rcu.Lib.Machine
import Xv6Rcu.Lib.RcuList
import Xv6Rcu.Kernel.Types

/-!
# The process list of `list_proc.c`, store by store

The machine `rcu` runs the writers `list_add_rcu`, `list_del_rcu`, `list_update_rcu` and
`list_del_from_proc_rcu`, one call at a time (they hold the writers lock), and one reader that walks
the list through `next`. A step of a writer is one turn of its loop or one pointer store, so the
reader's loads of `next` come between any two stores.

- A `t_node` may be uninitialised: both fields are `Option`s, `none` before the first store. A load
  of an uninitialised field or through `NULL` has no step (the kernel faults).
- `pid` gives the `pid` field of a `struct proc`; no call changes it.
- `linked`: the nodes that have ever been on the list. No linked node is reclaimed, so a new node
  is none of them (`St.Fresh`).

The invariant `Inv` is `Lib.Ranked` for the list with the rank of a node given by its pid: newer
pids have greater ranks. `writer_step` is all that a reader needs to know of a writer's step.
-/

namespace Xv6.Rcu

open Lib Function List
open Option (bind_eq_some_iff)

/-! ## The machine -/

/-- `t_node`; `none`: the field is not initialised. -/
structure TNode where
  process : Option Addr := none
  next : Option Ptr := none
  deriving DecidableEq

/-- Where the writer is in its call. -/
inductive Pc where
  /-- No writer holds the lock. -/
  | idle
  /-- `list_add_rcu`: before `node_ptr->next = tmp_node_ptr`, before `rcu_assign_pointer`. -/
  | addLink (node : Addr)
  | addPublish (node : Addr)
  /-- `list_del_rcu`: at the head, at the `while` loop. -/
  | delHead (node : Addr)
  | delScan (node prev : Addr) (tmp : Ptr)
  /-- `list_update_rcu`: at the head, before `rcu_assign_pointer` (the head matched), at the
  `while` loop, before `prev_node_ptr->next = new_node_ptr`. -/
  | updHead (new proc : Addr)
  | updHeadPublish (new cur : Addr)
  | updScan (new proc prev : Addr) (cur : Ptr)
  | updPublish (new prev cur : Addr)
  /-- `list_del_from_proc_rcu`: at the head, at the `while` loop. -/
  | dfpHead (proc : Addr)
  | dfpScan (proc prev : Addr) (cur : Ptr)
  deriving DecidableEq

/-- Where the reader is in `for(tmp = process_list; tmp != 0; tmp = tmp->next)`. -/
inductive Cursor where
  | before
  | on (node : Addr)
  | done
  deriving DecidableEq

structure St where
  nodes : Addr → TNode
  processList : Ptr
  pc : Pc := .idle
  /-- `found` and `*ptr_to_free` of the last call. -/
  found : Bool := false
  ptrToFree : Ptr := none
  linked : List Addr
  cursor : Cursor := .before
  /-- The nodes that the reader has visited, the last first. -/
  visited : List Addr := []

inductive Lbl where
  /-- `list_add_rcu(&process_list, node, ...)` with a new node that holds `n`. -/
  | add (node : Addr) (n : TNode)
  | del (node : Addr)
  /-- `list_update_rcu(&process_list, new, proc, ...)` with a new node that holds `n`. -/
  | update (new : Addr) (n : TNode) (proc : Addr)
  | delFromProc (proc : Addr)
  /-- The next step of the writer's call. -/
  | writer
  /-- The reader: `tmp = process_list`. -/
  | start
  /-- The reader: `tmp = tmp->next`. -/
  | next
  deriving DecidableEq

variable (pid : Addr → Int)

/-- `node->process->pid`. -/
def St.pidOf (s : St) (a : Addr) : Option Int := (s.nodes a).process.map pid

/-- The state after the store `a->next = p`. -/
def St.setNext (s : St) (a : Addr) (p : Ptr) : St :=
  { s with nodes := Function.update s.nodes a { s.nodes a with next := some p } }

/-- `node` has never been on the list, and the caller has set its `process`. -/
def St.Fresh (s : St) (node : Addr) (n : TNode) : Bool :=
  decide (node ∉ s.linked) && n.process.isSome

/-- `list_add_rcu`, with the lock. -/
def listAddRcu (s : St) : Pc → Option St
  | .addLink node => some { s.setNext node s.processList with pc := .addPublish node }
  | .addPublish node =>
    some { s with processList := some node, linked := node :: s.linked, pc := .idle }
  | _ => none

/-- `list_del_rcu`, with the lock. -/
def listDelRcu (s : St) : Pc → Option St
  | .delHead node => do
    let tmp ← s.processList
    let n ← (s.nodes tmp).next
    if tmp = node then some { s with processList := n, pc := .idle }
    else some { s with pc := .delScan node tmp n, found := false }
  | .delScan _ _ none => some { s with pc := .idle }
  | .delScan node prev (some tmp) => do
    let n ← (s.nodes tmp).next
    if tmp = node then some { s.setNext prev n with pc := .idle, found := true }
    else
      let p ← (s.nodes prev).next
      let prev' ← p
      some { s with pc := .delScan node prev' n }
  | _ => none

/-- `list_update_rcu`, with the lock. -/
def listUpdateRcu (s : St) : Pc → Option St
  | .updHead new proc => do
    let cur ← s.processList
    let k ← s.pidOf pid cur
    let n ← (s.nodes cur).next
    if k = pid proc then
      some { s.setNext new n with pc := .updHeadPublish new cur, ptrToFree := some cur }
    else some { s with pc := .updScan new proc cur n }
  | .updHeadPublish new _ =>
    some { s with processList := some new, linked := new :: s.linked, found := true, pc := .idle }
  | .updScan _ _ _ none => some { s with found := false, pc := .idle }
  | .updScan new proc prev (some cur) => do
    let k ← s.pidOf pid cur
    let n ← (s.nodes cur).next
    if k = pid proc then some { s.setNext new n with pc := .updPublish new prev cur }
    else
      let p ← (s.nodes prev).next
      let prev' ← p
      some { s with pc := .updScan new proc prev' n }
  | .updPublish new prev cur =>
    some { s.setNext prev (some new) with
      linked := new :: s.linked, ptrToFree := some cur, found := true, pc := .idle }
  | _ => none

/-- `list_del_from_proc_rcu`, with the lock. -/
def listDelFromProcRcu (s : St) : Pc → Option St
  | .dfpHead proc => do
    let cur ← s.processList
    let k ← s.pidOf pid cur
    let n ← (s.nodes cur).next
    if k = pid proc then
      some { s with processList := n, ptrToFree := some cur, found := true, pc := .idle }
    else some { s with pc := .dfpScan proc cur n }
  | .dfpScan _ _ none => some { s with found := false, pc := .idle }
  | .dfpScan proc prev (some cur) => do
    let k ← s.pidOf pid cur
    let n ← (s.nodes cur).next
    if k = pid proc then
      some { s.setNext prev n with ptrToFree := some cur, found := true, pc := .idle }
    else
      let p ← (s.nodes prev).next
      let prev' ← p
      some { s with pc := .dfpScan proc prev' n }
  | _ => none

/-- The next step of the call that holds the lock. -/
def writer (s : St) : Option St :=
  match s.pc with
  | .idle => none
  | .addLink _ | .addPublish _ => listAddRcu s s.pc
  | .delHead _ | .delScan _ _ _ => listDelRcu s s.pc
  | .updHead _ _ | .updHeadPublish _ _ | .updScan _ _ _ _ | .updPublish _ _ _ =>
    listUpdateRcu pid s s.pc
  | .dfpHead _ | .dfpScan _ _ _ => listDelFromProcRcu pid s s.pc

/-- A call takes the writers lock. The pid of an added node is new; an updated node has the pid of
`proc_ptr`; `list_del_rcu` panics on an empty list before it takes the lock. -/
def call (s : St) : Lbl → Option St
  | .add node n =>
    if s.pc = .idle ∧ s.Fresh node n ∧ (∀ b ∈ s.linked, s.pidOf pid b ≠ n.process.map pid) then
      some { s with nodes := Function.update s.nodes node n, pc := .addLink node }
    else none
  | .del node =>
    if s.pc = .idle ∧ s.processList.isSome then some { s with pc := .delHead node } else none
  | .update new n proc =>
    if s.pc = .idle ∧ s.Fresh new n ∧ n.process.map pid = some (pid proc) then
      some { s with nodes := Function.update s.nodes new n, pc := .updHead new proc }
    else none
  | .delFromProc proc => if s.pc = .idle then some { s with pc := .dfpHead proc } else none
  | _ => none

/-- The reader stands on `p`. -/
def St.arrive (s : St) : Ptr → St
  | none => { s with cursor := .done }
  | some a => { s with cursor := .on a, visited := a :: s.visited }

/-- The reader's steps. -/
def reader (s : St) : Lbl → Option St
  | .start => if s.cursor = .before then some (s.arrive s.processList) else none
  | .next =>
    match s.cursor with
    | .on a => (s.nodes a).next.map s.arrive
    | _ => none
  | _ => none

/-- The writers, one call at a time, and one reader. -/
def rcu : Machine St Lbl where
  next s l :=
    match l with
    | .writer => writer pid s
    | .start | .next => reader s l
    | _ => call pid s l

/-! ## The writers' invariant -/

/-- The `next` field of a node, `NULL` if it is not initialised. -/
def St.nx (s : St) (a : Addr) : Ptr := (s.nodes a).next.join

/-- The rank of a node: the rank of its pid. -/
def St.rk (r : Int → Nat) (s : St) (a : Addr) : Nat := r ((s.pidOf pid a).getD 0)

/-- `new` is a node that is not linked, with the pid `k`. -/
def St.Ready (s : St) (new : Addr) (k : Option Int) : Prop :=
  new ∉ s.linked ∧ (s.nodes new).process.isSome ∧ s.pidOf pid new = k

/-- What holds at `pc`, with the list `l`. -/
def Pc.Ok (l : List Addr) (s : St) : Pc → Prop
  | .idle | .delHead _ | .dfpHead _ => True
  | .addLink x => (∃ k, s.Ready pid x k) ∧ ∀ b ∈ s.linked, s.pidOf pid b ≠ s.pidOf pid x
  | .addPublish x => (∃ k, s.Ready pid x k) ∧ (s.nodes x).next = some s.processList ∧
      ∀ b ∈ s.linked, s.pidOf pid b ≠ s.pidOf pid x
  | .delScan _ prev tmp => prev ∈ l ∧ s.nx prev = tmp
  | .updHead x q => s.Ready pid x (some (pid q))
  | .updHeadPublish x c => s.Ready pid x (s.pidOf pid c) ∧ (s.nodes x).next = some (s.nx c) ∧
      s.processList = some c
  | .updScan x q prev cur => s.Ready pid x (some (pid q)) ∧ prev ∈ l ∧ s.nx prev = cur
  | .updPublish x prev c => s.Ready pid x (s.pidOf pid c) ∧ (s.nodes x).next = some (s.nx c) ∧
      prev ∈ l ∧ s.nx prev = some c
  | .dfpScan _ prev cur => prev ∈ l ∧ s.nx prev = cur

/-- The invariant (module doc): `l` is the list, `r` ranks the pids. -/
structure Inv (r : Int → Nat) (l : List Addr) (s : St) : Prop where
  ranked : Ranked s.nx s.processList s.linked (s.rk pid r) l
  init : ∀ a ∈ s.linked, (s.nodes a).process.isSome ∧ (s.nodes a).next.isSome
  inj : ∀ a ∈ s.linked, ∀ b ∈ s.linked, s.rk pid r a = s.rk pid r b →
    s.pidOf pid a = s.pidOf pid b
  pc : s.pc.Ok pid l s

/-- What a reader needs to know of a writer's step: linked nodes keep their pids and ranks; a `next`
that changed leads to a node of the new list or to the `next` of a node of the old list; a node that
is new on the list has the pid of an old one, or a rank of at least `R`. -/
structure Writes (R : Nat) (r r' : Int → Nat) (l l' : List Addr) (s s' : St) : Prop where
  linked : ∀ a ∈ s.linked, a ∈ s'.linked
  keepPid : ∀ a ∈ s.linked, s'.pidOf pid a = s.pidOf pid a
  rank : ∀ a ∈ s.linked, s'.rk pid r' a = s.rk pid r a
  next : ∀ a ∈ s'.linked, ∀ b, s'.nx a = some b →
    (a ∈ s.linked ∧ s.nx a = some b) ∨ b ∈ l' ∨ ∃ c ∈ l, s.nx c = some b
  new : ∀ a ∈ l', a ∈ l ∨
    (∃ c ∈ l, s'.pidOf pid a = s.pidOf pid c ∧ s'.rk pid r' a = s.rk pid r c) ∨
      R ≤ s'.rk pid r' a
  cursor : s'.cursor = s.cursor
  visited : s'.visited = s.visited

variable {pid} {s s' : St} {l : List Addr} {r : Int → Nat} {a c x : Addr} {l2 : List Addr} {p : Ptr}

theorem rk_congr (a : Addr) (h : s'.pidOf pid a = s.pidOf pid a) :
    s'.rk pid r a = s.rk pid r a := by
  unfold St.rk; rw [h]

theorem pidOf_nodes (h : s'.nodes a = s.nodes a) : s'.pidOf pid a = s.pidOf pid a := by
  unfold St.pidOf; rw [h]

/-- A store of `next` keeps every pid. -/
theorem pidOf_setNext (h : s'.nodes = (s.setNext x p).nodes) (a : Addr) :
    s'.pidOf pid a = s.pidOf pid a := by
  unfold St.pidOf
  rw [h, St.setNext]
  by_cases e : a = x
  · subst e; simp
  · simp [update_of_ne e]

theorem nx_setNext (h : s'.nodes = (s.setNext x p).nodes) : s'.nx = update s.nx x p := by
  funext a
  unfold St.nx
  rw [h, St.setNext]
  by_cases e : a = x
  · subst e; simp
  · simp [update_of_ne e]

theorem nx_of_next (h : (s.nodes a).next = some p) : s.nx a = p := by
  unfold St.nx; rw [h]; rfl

/-! ## Steps that leave the list alone -/

/-- A step that changes no linked node and not the head. -/
theorem Inv.keep (h : Inv pid r l s) (hl : s'.linked = s.linked)
    (hp : s'.processList = s.processList) (hn : ∀ a ∈ s.linked, s'.nodes a = s.nodes a)
    (hpc : s'.pc.Ok pid l s') : Inv pid r l s' where
  ranked := by
    rw [hl, hp]
    refine (h.ranked.next_congr fun a ha => ?_).rank_congr fun a ha => ?_
    · unfold St.nx; rw [hn a ha]
    · exact rk_congr a (pidOf_nodes (hn a ha))
  init a ha := by rw [hl] at ha; rw [hn a ha]; exact h.init a ha
  inj a ha b hb := by
    rw [hl] at ha hb
    rw [rk_congr a (pidOf_nodes (hn a ha)), rk_congr b (pidOf_nodes (hn b hb)),
      pidOf_nodes (hn a ha), pidOf_nodes (hn b hb)]
    exact h.inj a ha b hb
  pc := hpc

theorem Writes.keep (R : Nat) (hl : s'.linked = s.linked)
    (hn : ∀ a ∈ s.linked, s'.nodes a = s.nodes a) (hc : s'.cursor = s.cursor)
    (hv : s'.visited = s.visited) : Writes pid R r r l l s s' where
  linked a ha := hl ▸ ha
  keepPid a ha := pidOf_nodes (hn a ha)
  rank a ha := rk_congr a (pidOf_nodes (hn a ha))
  next a ha b hb := by
    rw [hl] at ha
    unfold St.nx at hb ⊢
    rw [hn a ha] at hb
    exact .inl ⟨ha, hb⟩
  new a ha := .inl ha
  cursor := hc
  visited := hv

/-- A step as in `Inv.keep` keeps the list and tells the reader nothing. -/
theorem Inv.still (h : Inv pid r l s) (R : Nat) (hl : s'.linked = s.linked)
    (hp : s'.processList = s.processList) (hn : ∀ a ∈ s.linked, s'.nodes a = s.nodes a)
    (hpc : s'.pc.Ok pid l s') (hc : s'.cursor = s.cursor) (hv : s'.visited = s.visited) :
    ∃ r' l', Inv pid r' l' s' ∧ Writes pid R r r' l l' s s' :=
  ⟨r, l, h.keep hl hp hn hpc, .keep R hl hn hc hv⟩

/-! ## Steps that change the list -/

/-- A new node is published at the head. -/
theorem Inv.push (h : Inv pid r l s) (R : Nat) {k : Option Int} (hx : s.Ready pid x k)
    (hk : ∀ b ∈ s.linked, s.pidOf pid b ≠ s.pidOf pid x)
    (hn : (s.nodes x).next = some s.processList) (hn' : s'.nodes = s.nodes)
    (hp : s'.processList = some x) (hl : s'.linked = x :: s.linked) (hpc : s'.pc = .idle)
    (hc : s'.cursor = s.cursor) (hv : s'.visited = s.visited) :
    ∃ r' l', Inv pid r' l' s' ∧ Writes pid R r r' l l' s s' := by
  obtain ⟨hxl, hxp, -⟩ := hx
  obtain ⟨q, hq⟩ := Option.isSome_iff_exists.mp hxp
  have hpx : s.pidOf pid x = some (pid q) := by unfold St.pidOf; rw [hq]; rfl
  -- the new pid goes above all ranks in use, and above `R`
  obtain ⟨top, hR, habove⟩ := exists_rank_above (s.rk pid r) R s.linked
  let r' := update r (pid q) top
  have hpid : ∀ a, s'.pidOf pid a = s.pidOf pid a := fun a => pidOf_nodes (by rw [hn'])
  have hnx : s'.nx = s.nx := by unfold St.nx; rw [hn']
  have hold : ∀ a ∈ s.linked, s'.rk pid r' a = s.rk pid r a := by
    intro a ha
    unfold St.rk
    rw [hpid a]
    refine update_of_ne (fun e => hk a ha ?_) _ _
    obtain ⟨q', hq'⟩ := Option.isSome_iff_exists.mp (h.init a ha).1
    have hpa : s.pidOf pid a = some (pid q') := by unfold St.pidOf; rw [hq']; rfl
    rw [hpa, Option.getD_some] at e
    rw [hpa, hpx, e]
  have htop : s'.rk pid r' x = top := by
    unfold St.rk; rw [hpid x, hpx]; exact update_self _ _ _
  have hlt : ∀ a ∈ s.linked, s'.rk pid r' a < s'.rk pid r' x := by
    intro a ha
    rw [hold a ha, htop]
    exact habove a ha
  refine ⟨r', x :: l, ⟨?_, fun a ha => ?_, fun a ha b hb e => ?_, by rw [hpc]; trivial⟩,
    ⟨fun a ha => by simp [hl, ha], fun a _ => hpid a, hold, fun a ha b hb => ?_, fun a ha => ?_,
      hc, hv⟩⟩
  · rw [hl, hp, hnx]
    exact (h.ranked.rank_congr hold).push (nx_of_next hn) hlt
  · rw [hn']
    rw [hl] at ha
    rcases mem_cons.mp ha with rfl | ha
    · exact ⟨hxp, by rw [hn]; rfl⟩
    · exact h.init a ha
  · rw [hpid, hpid]
    rw [hl] at ha hb
    rcases mem_cons.mp ha with ea | ha' <;> rcases mem_cons.mp hb with eb | hb'
    · rw [ea, eb]
    · exact absurd e (ea ▸ ne_of_gt (hlt b hb'))
    · exact absurd e (eb ▸ ne_of_lt (hlt a ha'))
    · rw [hold a ha', hold b hb'] at e; exact h.inj a ha' b hb' e
  · rw [hnx] at hb
    rw [hl] at ha
    rcases mem_cons.mp ha with rfl | ha
    · rw [nx_of_next hn] at hb
      obtain ⟨l2, rfl⟩ := h.ranked.chain.head_mem hb
      exact .inr (.inl (by simp))
    · exact .inl ⟨ha, hb⟩
  · rcases mem_cons.mp ha with rfl | ha
    · exact .inr (.inr (htop ▸ hR))
    · exact .inl ha

/-- The head is unlinked. -/
theorem Inv.removeHead (h : Inv pid r (c :: l2) s) (R : Nat) (hn : s'.nodes = s.nodes)
    (hp : s'.processList = s.nx c) (hl : s'.linked = s.linked) (hpc : s'.pc = .idle)
    (hc : s'.cursor = s.cursor) (hv : s'.visited = s.visited) :
    Inv pid r l2 s' ∧ Writes pid R r r (c :: l2) l2 s s' := by
  have hpid : ∀ a, s'.pidOf pid a = s.pidOf pid a := fun a => pidOf_nodes (by rw [hn])
  have hrk : ∀ a, s'.rk pid r a = s.rk pid r a := fun a => rk_congr a (hpid a)
  have hnx : s'.nx = s.nx := by unfold St.nx; rw [hn]
  refine ⟨⟨?_, fun a ha => ?_, fun a ha b hb e => ?_, by rw [hpc]; trivial⟩,
    ⟨fun a ha => hl ▸ ha, fun a _ => hpid a, fun a _ => hrk a,
      fun a ha b hb => .inl ⟨hl ▸ ha, hnx ▸ hb⟩, fun a ha => .inl (by simp [ha]), hc, hv⟩⟩
  · rw [hl, hp, hnx]
    exact h.ranked.removeHead.rank_congr fun a _ => hrk a
  · rw [hn]; exact h.init a (hl ▸ ha)
  · rw [hpid, hpid]
    rw [hrk, hrk] at e
    exact h.inj a (hl ▸ ha) b (hl ▸ hb) e

/-- The node `c` after `p` is unlinked by the store `p->next = c->next`. -/
theorem Inv.removeNext {p : Addr} {l1 : List Addr} (h : Inv pid r (l1 ++ p :: c :: l2) s) (R : Nat)
    (hn : s'.nodes = (s.setNext p (s.nx c)).nodes) (hp : s'.processList = s.processList)
    (hl : s'.linked = s.linked) (hpc : s'.pc = .idle) (hc : s'.cursor = s.cursor)
    (hv : s'.visited = s.visited) :
    Inv pid r (l1 ++ p :: l2) s' ∧
      Writes pid R r r (l1 ++ p :: c :: l2) (l1 ++ p :: l2) s s' := by
  have hpid : ∀ a, s'.pidOf pid a = s.pidOf pid a := pidOf_setNext hn
  have hrk : ∀ a, s'.rk pid r a = s.rk pid r a := fun a => rk_congr a (hpid a)
  have hnx : s'.nx = update s.nx p (s.nx c) := nx_setNext hn
  refine ⟨⟨?_, fun a ha => ?_, fun a ha b hb e => ?_, by rw [hpc]; trivial⟩,
    ⟨fun a ha => hl ▸ ha, fun a _ => hpid a, fun a _ => hrk a, fun a ha b hb => ?_,
      fun a ha => .inl ?_, hc, hv⟩⟩
  · rw [hl, hp, hnx]
    exact h.ranked.removeNext.rank_congr fun a _ => hrk a
  · have hi := h.init a (hl ▸ ha)
    rw [hn, St.setNext]
    by_cases e : a = p
    · subst e; simpa using hi.1
    · simpa [update_of_ne e] using hi
  · rw [hpid, hpid]
    rw [hrk, hrk] at e
    exact h.inj a (hl ▸ ha) b (hl ▸ hb) e
  · rw [hnx] at hb
    by_cases e : a = p
    · subst e
      rw [update_self] at hb
      exact .inr (.inr ⟨c, by simp, hb⟩)
    · rw [update_of_ne e] at hb
      exact .inl ⟨hl ▸ ha, hb⟩
  · simp only [mem_append, mem_cons] at ha ⊢
    tauto

/-- With a new node `x` of the pid of the listed node `c`, ranks still determine pids. -/
theorem Inv.inj_cons (h : Inv pid r l s) (hc : c ∈ l) (hx : s.pidOf pid x = s.pidOf pid c)
    {b : Addr} (ha : a ∈ x :: s.linked) (hb : b ∈ x :: s.linked) (e : s.rk pid r a = s.rk pid r b) :
    s.pidOf pid a = s.pidOf pid b := by
  have hrep : ∀ a ∈ x :: s.linked, ∃ a' ∈ s.linked, s.pidOf pid a' = s.pidOf pid a := by
    intro a ha
    rcases mem_cons.mp ha with rfl | ha
    · exact ⟨c, h.ranked.sub c hc, hx.symm⟩
    · exact ⟨a, ha, rfl⟩
  obtain ⟨a', ha', hpa⟩ := hrep a ha
  obtain ⟨b', hb', hpb⟩ := hrep b hb
  rw [← hpa, ← hpb]
  refine h.inj a' ha' b' hb' ?_
  unfold St.rk at e ⊢
  rw [hpa, hpb]; exact e

/-- The head `c` is replaced by the new node `x`. -/
theorem Inv.replaceHead (h : Inv pid r (c :: l2) s) (R : Nat) (hx : s.Ready pid x (s.pidOf pid c))
    (hxn : (s.nodes x).next = some (s.nx c)) (hn : s'.nodes = s.nodes)
    (hp : s'.processList = some x) (hl : s'.linked = x :: s.linked) (hpc : s'.pc = .idle)
    (hc : s'.cursor = s.cursor) (hv : s'.visited = s.visited) :
    Inv pid r (x :: l2) s' ∧ Writes pid R r r (c :: l2) (x :: l2) s s' := by
  have hpid : ∀ a, s'.pidOf pid a = s.pidOf pid a := fun a => pidOf_nodes (by rw [hn])
  have hrk : ∀ a, s'.rk pid r a = s.rk pid r a := fun a => rk_congr a (hpid a)
  have hnx : s'.nx = s.nx := by unfold St.nx; rw [hn]
  have hrx : s.rk pid r x = s.rk pid r c := by unfold St.rk; rw [hx.2.2]
  refine ⟨⟨?_, fun a ha => ?_, fun a ha b hb e => ?_, by rw [hpc]; trivial⟩,
    ⟨fun a ha => by simp [hl, ha], fun a _ => hpid a, fun a _ => hrk a, fun a ha b hb => ?_,
      fun a ha => ?_, hc, hv⟩⟩
  · rw [hl, hp, hnx]
    exact (h.ranked.replaceHead (nx_of_next hxn) hrx).rank_congr fun a _ => hrk a
  · rw [hn]
    rw [hl] at ha
    rcases mem_cons.mp ha with rfl | ha
    · exact ⟨hx.2.1, by rw [hxn]; rfl⟩
    · exact h.init a ha
  · rw [hpid, hpid]
    rw [hrk, hrk] at e
    exact h.inj_cons (by simp) hx.2.2 (hl ▸ ha) (hl ▸ hb) e
  · rw [hnx] at hb
    rw [hl] at ha
    rcases mem_cons.mp ha with rfl | ha
    · exact .inr (.inr ⟨c, by simp, nx_of_next hxn ▸ hb⟩)
    · exact .inl ⟨ha, hb⟩
  · rcases mem_cons.mp ha with rfl | ha
    · exact .inr (.inl ⟨c, by simp, (hpid a).trans hx.2.2, (hrk a).trans hrx⟩)
    · exact .inl (by simp [ha])

/-- The node `c` after `p` is replaced by the new node `x`, by the store `p->next = x`. -/
theorem Inv.replaceNext {p : Addr} {l1 : List Addr} (h : Inv pid r (l1 ++ p :: c :: l2) s) (R : Nat)
    (hx : s.Ready pid x (s.pidOf pid c)) (hxn : (s.nodes x).next = some (s.nx c))
    (hn : s'.nodes = (s.setNext p (some x)).nodes) (hp : s'.processList = s.processList)
    (hl : s'.linked = x :: s.linked) (hpc : s'.pc = .idle) (hc : s'.cursor = s.cursor)
    (hv : s'.visited = s.visited) :
    Inv pid r (l1 ++ p :: x :: l2) s' ∧
      Writes pid R r r (l1 ++ p :: c :: l2) (l1 ++ p :: x :: l2) s s' := by
  have hpl : p ∈ s.linked := h.ranked.sub p (by simp)
  have hpid : ∀ a, s'.pidOf pid a = s.pidOf pid a := pidOf_setNext hn
  have hrk : ∀ a, s'.rk pid r a = s.rk pid r a := fun a => rk_congr a (hpid a)
  have hnx : s'.nx = update s.nx p (some x) := nx_setNext hn
  have hrx : s.rk pid r x = s.rk pid r c := by unfold St.rk; rw [hx.2.2]
  refine ⟨⟨?_, fun a ha => ?_, fun a ha b hb e => ?_, by rw [hpc]; trivial⟩,
    ⟨fun a ha => by simp [hl, ha], fun a _ => hpid a, fun a _ => hrk a, fun a ha b hb => ?_,
      fun a ha => ?_, hc, hv⟩⟩
  · rw [hl, hp, hnx]
    exact (h.ranked.replaceNext hx.1 (nx_of_next hxn) hrx).rank_congr fun a _ => hrk a
  · rw [hn, St.setNext]
    rw [hl] at ha
    by_cases e : a = p
    · subst e; simpa using (h.init a hpl).1
    · simp only [update_of_ne e]
      rcases mem_cons.mp ha with rfl | ha
      · exact ⟨hx.2.1, by rw [hxn]; rfl⟩
      · exact h.init a ha
  · rw [hpid, hpid]
    rw [hrk, hrk] at e
    exact h.inj_cons (by simp) hx.2.2 (hl ▸ ha) (hl ▸ hb) e
  · rw [hnx] at hb
    rw [hl] at ha
    by_cases e : a = p
    · subst e
      rw [update_self] at hb; cases hb
      exact .inr (.inl (by simp))
    · rw [update_of_ne e] at hb
      rcases mem_cons.mp ha with rfl | ha
      · exact .inr (.inr ⟨c, by simp, nx_of_next hxn ▸ hb⟩)
      · exact .inl ⟨ha, hb⟩
  · simp only [mem_append, mem_cons] at ha ⊢
    rcases ha with ha | rfl | rfl | ha
    · exact .inl (.inl ha)
    · exact .inl (.inr (.inl rfl))
    · exact .inr (.inl ⟨c, by simp, (hpid a).trans hx.2.2, (hrk a).trans hrx⟩)
    · exact .inl (.inr (.inr (.inr ha)))

/-! ## All writer steps -/

/-- One turn of a scan: the node after `prev` becomes `prev`. -/
theorem Inv.scan (h : Inv pid r l s) {prev cur : Addr} {n : Ptr} {prev' : Addr} (hm : prev ∈ l)
    (hx : s.nx prev = some cur) (hn : (s.nodes cur).next = some n)
    (hp : (s.nodes prev).next = some p) (hp' : p = some prev') : prev' ∈ l ∧ s.nx prev' = n := by
  rw [nx_of_next hp, hp'] at hx; cases hx
  obtain ⟨l1, l2, rfl⟩ := h.ranked.chain.split hm ((nx_of_next hp).trans hp')
  exact ⟨by simp, nx_of_next hn⟩

/-- The new node gets the `next` of the node that it will replace. -/
theorem Inv.copyNext (h : Inv pid r l s) {new cur : Addr} {n : Ptr} (s' : St)
    (hr : s.Ready pid new (s.pidOf pid cur)) (hc : cur ∈ l) (hn : (s.nodes cur).next = some n)
    (hn' : s'.nodes = (s.setNext new n).nodes) (hl : s'.linked = s.linked) :
    (∀ a ∈ s.linked, s'.nodes a = s.nodes a) ∧ s'.Ready pid new (s'.pidOf pid cur) ∧
      (s'.nodes new).next = some (s'.nx cur) := by
  have hne : ∀ a ∈ s.linked, a ≠ new := fun a ha e => hr.1 (e ▸ ha)
  have hcl := hne cur (h.ranked.sub cur hc)
  refine ⟨fun a ha => ?_, ⟨hl ▸ hr.1, ?_, ?_⟩, ?_⟩
  · rw [hn']; exact update_of_ne (hne a ha) _ _
  · rw [hn', St.setNext]; simpa using hr.2.1
  · rw [pidOf_setNext hn', pidOf_setNext hn']; exact hr.2.2
  · rw [nx_setNext hn', update_of_ne hcl, nx_of_next hn, hn', St.setNext]; simp

/-- **A writer's step** keeps the invariant, and does to linked nodes what `Writes` says. -/
theorem writer_step (h : Inv pid r l s) (R : Nat) (hw : writer pid s = some s') :
    ∃ r' l', Inv pid r' l' s' ∧ Writes pid R r r' l l' s s' := by
  have hok := h.pc
  unfold writer at hw
  cases hpc : s.pc with
  | idle => simp [hpc] at hw
  | addLink x =>
    rw [hpc] at hok hw
    cases hw
    obtain ⟨⟨k, hr⟩, hk⟩ := hok
    have hne : ∀ a ∈ s.linked, a ≠ x := fun a ha e => hr.1 (e ▸ ha)
    have hpid : ∀ a, St.pidOf pid { s.setNext x s.processList with pc := Pc.addPublish x } a =
        s.pidOf pid a := fun a => pidOf_setNext rfl a
    refine h.still R rfl rfl (fun a ha => update_of_ne (hne a ha) _ _)
      ⟨⟨k, hr.1, ?_, (hpid x).trans hr.2.2⟩, ?_, fun b hb => ?_⟩ rfl rfl
    · simpa [St.setNext] using hr.2.1
    · simp [St.setNext]
    · rw [hpid b, hpid x]; exact hk b hb
  | addPublish x =>
    rw [hpc] at hok hw
    cases hw
    obtain ⟨⟨k, hr⟩, hn, hk⟩ := hok
    exact h.push R hr hk hn rfl rfl rfl rfl rfl rfl
  | delHead x =>
    rw [hpc] at hw
    simp only [listDelRcu, bind, bind_eq_some_iff] at hw
    obtain ⟨tmp, ht, n, hn, hw⟩ := hw
    obtain ⟨l2, rfl⟩ := h.ranked.chain.head_mem ht
    split at hw <;> cases hw
    · exact ⟨r, l2, h.removeHead R rfl (nx_of_next hn).symm rfl rfl rfl rfl⟩
    · exact h.still R rfl rfl (fun _ _ => rfl) ⟨by simp, nx_of_next hn⟩ rfl rfl
  | delScan x prev tmp =>
    rw [hpc] at hok hw
    obtain ⟨hm, hx⟩ := hok
    cases tmp with
    | none => cases hw; exact h.still R rfl rfl (fun _ _ => rfl) trivial rfl rfl
    | some tmp =>
      obtain ⟨n, hn, hw⟩ := bind_eq_some_iff.mp hw
      split at hw
      · cases hw
        obtain ⟨l1, l2, rfl⟩ := h.ranked.chain.split hm hx
        exact ⟨r, _, h.removeNext R (by rw [nx_of_next hn]) rfl rfl rfl rfl rfl⟩
      · simp only [bind, bind_eq_some_iff] at hw
        obtain ⟨p, hp, prev', hp', hw⟩ := hw
        cases hw
        exact h.still R rfl rfl (fun _ _ => rfl) (h.scan hm hx hn hp hp') rfl rfl
  | updHead x q =>
    rw [hpc] at hok hw
    simp only [listUpdateRcu, bind, bind_eq_some_iff] at hw
    obtain ⟨cur, hc, k, hk, n, hn, hw⟩ := hw
    obtain ⟨l2, rfl⟩ := h.ranked.chain.head_mem hc
    split at hw <;> cases hw
    · rename_i hkq
      have hr : s.Ready pid x (s.pidOf pid cur) := by rw [hk, hkq]; exact hok
      obtain ⟨h1, h2, h3⟩ := h.copyNext { s.setNext x n with
        pc := .updHeadPublish x cur, ptrToFree := some cur } hr (by simp) hn rfl rfl
      exact h.still R rfl rfl h1 ⟨h2, h3, hc⟩ rfl rfl
    · exact h.still R rfl rfl (fun _ _ => rfl) ⟨hok, by simp, nx_of_next hn⟩ rfl rfl
  | updHeadPublish x c =>
    rw [hpc] at hok hw
    cases hw
    obtain ⟨hr, hn, hc⟩ := hok
    obtain ⟨l2, rfl⟩ := h.ranked.chain.head_mem hc
    exact ⟨r, _, h.replaceHead R hr hn rfl rfl rfl rfl rfl rfl⟩
  | updScan x q prev cur =>
    rw [hpc] at hok hw
    obtain ⟨hr, hm, hx⟩ := hok
    cases cur with
    | none => cases hw; exact h.still R rfl rfl (fun _ _ => rfl) trivial rfl rfl
    | some cur =>
      simp only [listUpdateRcu, bind, bind_eq_some_iff] at hw
      obtain ⟨k, hk, n, hn, hw⟩ := hw
      split at hw
      · rename_i hkq
        cases hw
        obtain ⟨l1, l2, rfl⟩ := h.ranked.chain.split hm hx
        have hr' : s.Ready pid x (s.pidOf pid cur) := by rw [hk, hkq]; exact hr
        obtain ⟨h1, h2, h3⟩ := h.copyNext { s.setNext x n with
          pc := .updPublish x prev cur } hr' (by simp) hn rfl rfl
        have hx' := congrArg (·.next.join) (h1 prev (h.ranked.sub prev hm))
        exact h.still R rfl rfl h1 ⟨h2, h3, hm, hx'.trans hx⟩ rfl rfl
      · simp only [bind_eq_some_iff] at hw
        obtain ⟨p, hp, prev', hp', hw⟩ := hw
        cases hw
        exact h.still R rfl rfl (fun _ _ => rfl) ⟨hr, h.scan hm hx hn hp hp'⟩ rfl rfl
  | updPublish x prev c =>
    rw [hpc] at hok hw
    cases hw
    obtain ⟨hr, hn, hm, hx⟩ := hok
    obtain ⟨l1, l2, rfl⟩ := h.ranked.chain.split hm hx
    exact ⟨r, _, h.replaceNext R hr hn rfl rfl rfl rfl rfl rfl⟩
  | dfpHead q =>
    rw [hpc] at hw
    simp only [listDelFromProcRcu, bind, bind_eq_some_iff] at hw
    obtain ⟨cur, hc, k, hk, n, hn, hw⟩ := hw
    obtain ⟨l2, rfl⟩ := h.ranked.chain.head_mem hc
    split at hw <;> cases hw
    · exact ⟨r, l2, h.removeHead R rfl (nx_of_next hn).symm rfl rfl rfl rfl⟩
    · exact h.still R rfl rfl (fun _ _ => rfl) ⟨by simp, nx_of_next hn⟩ rfl rfl
  | dfpScan q prev cur =>
    rw [hpc] at hok hw
    obtain ⟨hm, hx⟩ := hok
    cases cur with
    | none => cases hw; exact h.still R rfl rfl (fun _ _ => rfl) trivial rfl rfl
    | some cur =>
      simp only [listDelFromProcRcu, bind, bind_eq_some_iff] at hw
      obtain ⟨k, hk, n, hn, hw⟩ := hw
      split at hw
      · cases hw
        obtain ⟨l1, l2, rfl⟩ := h.ranked.chain.split hm hx
        exact ⟨r, _, h.removeNext R (by rw [nx_of_next hn]) rfl rfl rfl rfl rfl⟩
      · simp only [bind_eq_some_iff] at hw
        obtain ⟨p, hp, prev', hp', hw⟩ := hw
        cases hw
        exact h.still R rfl rfl (fun _ _ => rfl) (h.scan hm hx hn hp hp') rfl rfl

/-- A call takes the lock and leaves the list alone. -/
theorem call_step (h : Inv pid r l s) (R : Nat) (lb : Lbl) (hw : call pid s lb = some s') :
    ∃ r' l', Inv pid r' l' s' ∧ Writes pid R r r' l l' s s' := by
  have hready : ∀ {x : Addr} {n : TNode} (pc : Pc), s.Fresh x n = true →
      (∀ a ∈ s.linked, a ≠ x) ∧ St.Ready pid { s with
        nodes := update s.nodes x n, pc } x (n.process.map pid) := by
    intro x n pc hf
    simp only [St.Fresh, Bool.and_eq_true, decide_eq_true_eq] at hf
    exact ⟨fun a ha e => hf.1 (e ▸ ha), hf.1, by simpa using hf.2, by simp [St.pidOf]⟩
  cases lb with
  | add x n =>
    simp only [call] at hw
    split at hw
    · rename_i hg
      cases hw
      obtain ⟨hne, hr⟩ := hready (.addLink x) hg.2.1
      refine h.still R rfl rfl (fun a ha => update_of_ne (hne a ha) _ _)
        ⟨⟨_, hr⟩, fun b hb => ?_⟩ rfl rfl
      rw [hr.2.2, pidOf_nodes (update_of_ne (hne b hb) _ _)]
      exact hg.2.2 b hb
    · cases hw
  | del x =>
    simp only [call] at hw
    split at hw <;> cases hw
    exact h.still R rfl rfl (fun _ _ => rfl) trivial rfl rfl
  | update x n q =>
    simp only [call] at hw
    split at hw
    · rename_i hg
      cases hw
      obtain ⟨hne, hr⟩ := hready (.updHead x q) hg.2.1
      rw [hg.2.2] at hr
      exact h.still R rfl rfl (fun a ha => update_of_ne (hne a ha) _ _) hr rfl rfl
    · cases hw
  | delFromProc q =>
    simp only [call] at hw
    split at hw <;> cases hw
    exact h.still R rfl rfl (fun _ _ => rfl) trivial rfl rfl
  | writer | start | next => cases hw

end Xv6.Rcu
