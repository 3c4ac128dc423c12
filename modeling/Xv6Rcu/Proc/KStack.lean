import Xv6Rcu.Proc.Seq

/-!
# Kernel stacks

Each live process should have a kernel stack of its own, and `bitmap` should mark exactly the stacks
of the live processes (`Slots`), whatever calls of `fork`, `exit` and `wait` the processes make, one
at a time.

- **The defect** (`fork_leaks`): `allocproc` marks the stack before it allocates the trapframe and
  the page table, and gives it back on no failure. Nor does `fork` when `uvmcopy` fails:
  `freeproc(np, 0)` does not clear the mark.
- **What holds** (`slots_iff`): a run keeps `Slots` exactly if no `fork` of it fails.

A version of a process keeps its pid and its stack, so the calls are followed on the list of these
pairs (`Slate`), which `Shows` connects to the kernel's state.
-/

namespace Xv6.Seq

open Lib Function List

/-! ## The calls -/

/-- A call of a process; `resume` is the rest of a `wait` that has slept, with the pointer that it
fetched when it was called. -/
inductive Sys where
  | fork (e : Env)
  | exit (status : Int)
  | wait (addr : Nat) (e : Env)
  | resume (p : Addr) (addr : Nat) (e : Env)

def Sys.exec : Sys → KernelM Unit
  | .fork e => do let _ ← Seq.fork 0 e
  | .exit status => Seq.exit 0 status
  | .wait addr e => do let _ ← Seq.wait 0 addr e
  | .resume p addr e => do
    woken 0
    let _ ← waitRound 0 p addr e

/-- The process of the listed node `node` makes a call. -/
structure SysCall where
  node : Addr
  op : Sys

def sysCalls : Machine Kernel SysCall where
  next s l :=
    if l.node ∈ s.list then
      match l.op.exec { s with cpuProc := update s.cpuProc 0 (s.process l.node) } with
      | .ok _ s' => some s'
      | .error _ _ => none
    else none

/-! ## The property and the defect -/

/-- The `struct proc` of the node `a`. -/
def Kernel.proc (s : Kernel) (a : Addr) : Proc :=
  match s.process a with
  | some p => s.procs p
  | none => {}

/-- Every live process has a kernel stack of its own, and the marked stacks are those. -/
structure Slots (s : Kernel) : Prop where
  distinct : ∀ a ∈ s.list, ∀ b ∈ s.list, a ≠ b → (s.proc a).nKStack ≠ (s.proc b).nKStack
  marked : ∀ n, s.bitmap n = true ↔ ∃ a ∈ s.list, (s.proc a).nKStack = n

/-- `init`, on its kernel stack 0. -/
def initial : Kernel where
  list := [0]
  process := fun a => if a = 0 then some 1 else none
  procs := fun p => if p = 1 then { pid := 1, state := .running } else {}
  nextpid := 2
  uniqueId := 1
  bitmap := fun n => n = 0
  fresh := 2
  live := [0, 1]

/-- `fork` gets no trapframe: stack 1 stays marked. -/
theorem fork_leaks : ∃ s, sysCalls.run initial
    [⟨0, .fork { kalloc := none, procPagetable := none }⟩] =
    some s ∧ s.list = [0] ∧ ¬ Slots s := by
  have h : (sysCalls.run initial [⟨0, .fork { kalloc := none, procPagetable := none }⟩]).map
      (fun s => decide (s.list = [0] ∧ s.bitmap 1 = true ∧ (s.proc 0).nKStack = 0)) =
          some true := by
    decide +kernel
  obtain ⟨s, hs, h⟩ := Option.map_eq_some_iff.mp h
  obtain ⟨hl, hb, hk⟩ := of_decide_eq_true h
  refine ⟨s, hs, hl, fun hc => ?_⟩
  obtain ⟨a, ha, e⟩ := (hc.marked 1).mp hb
  rw [hl, mem_singleton] at ha
  subst ha
  rw [hk] at e
  cases e

/-! ## The slate -/

/-- The pid and the kernel stack of each live process, the marks and `nextpid`. -/
structure Slate where
  ids : List (Int × Int)
  bitmap : Int → Bool
  nextpid : Int

/-- The pids are distinct, positive and below `nextpid`. -/
structure Slate.Ok (g : Slate) : Prop where
  pids : (g.ids.map (·.1)).Nodup
  pos : 0 < g.nextpid
  range : ∀ i ∈ g.ids, 0 < i.1 ∧ i.1 < g.nextpid

def Slate.Good (g : Slate) : Prop :=
  (g.ids.map (·.2)).Nodup ∧ ∀ n, g.bitmap n = true ↔ n ∈ g.ids.map (·.2)

/-- What a version keeps. -/
def key (v : Proc) : Int × Int := (v.pid, v.nKStack)

/-- The state shows the slate `g`; every node has a struct of its own. -/
structure Shows (g : Slate) (s : Kernel) : Prop where
  node : ∀ a ∈ s.list, a < s.fresh
  proc : ∀ a ∈ s.list, ∃ p, s.process a = some p ∧ p < s.fresh
  inj : ∀ a ∈ s.list, ∀ b ∈ s.list, s.process a = s.process b → a = b
  ids : s.list.map (fun a => key (s.proc a)) = g.ids
  bitmap : s.bitmap = g.bitmap
  nextpid : s.nextpid = g.nextpid

section
variable {g : Slate} {s s' : Kernel} {a b p q new np : Addr} {l₁ l₂ : List Addr} {w : Proc}

theorem Shows.nodup (h : Shows g s) (hg : g.Ok) : s.list.Nodup := by
  have hp := hg.pids
  rw [← h.ids, map_map] at hp
  exact hp.of_map

theorem Shows.proc_some (h : Shows g s) : ∀ a ∈ s.list, ∃ p, s.process a = some p := fun a ha =>
  (h.proc a ha).imp fun _ hp => hp.1

/-- Distinct nodes below `fresh` are at most `fresh` many. -/
theorem length_le_fresh (hnd : s.list.Nodup) (hlt : ∀ a ∈ s.list, a < s.fresh) :
    s.list.length ≤ s.fresh := by
  have hsub : s.list ⊆ range s.fresh := fun a ha => mem_range.mpr (hlt a ha)
  simpa using (hnd.subperm hsub).length_le

theorem Shows.mem_ids (h : Shows g s) (ha : a ∈ s.list) : key (s.proc a) ∈ g.ids := by
  rw [← h.ids]
  exact mem_map_of_mem ha

theorem Shows.eq_of_pid (h : Shows g s) (hg : g.Ok) (ha : a ∈ s.list) (hb : b ∈ s.list)
    (e : (s.proc a).pid = (s.proc b).pid) : a = b := by
  have hp := hg.pids
  rw [← h.ids, map_map] at hp
  exact inj_on_of_nodup_map hp ha hb e

theorem proc_of (hp : s.process a = some p) : s.proc a = s.procs p := by
  simp [Kernel.proc, hp]

/-- **The slate decides the property.** -/
theorem Shows.slots_good (h : Shows g s) (hg : g.Ok) : Slots s ↔ g.Good := by
  have hmap : g.ids.map (·.2) = s.list.map fun a => (s.proc a).nKStack := by
    rw [← h.ids, map_map]
    rfl
  have hmem : ∀ n, n ∈ g.ids.map (·.2) ↔ ∃ a ∈ s.list, (s.proc a).nKStack = n := by
    intro n
    rw [hmap, mem_map]
  have hnd : (g.ids.map (·.2)).Nodup ↔
      ∀ a ∈ s.list, ∀ b ∈ s.list, a ≠ b → (s.proc a).nKStack ≠ (s.proc b).nKStack := by
    rw [hmap]
    constructor
    · exact fun hp a ha b hb hne e => hne (inj_on_of_nodup_map hp ha hb e)
    · exact fun hp => (h.nodup hg).map_on fun a ha b hb e =>
        by_contra fun hne => hp a ha b hb hne e
  constructor
  · intro hs
    exact ⟨hnd.mpr hs.distinct, fun n => by rw [← h.bitmap, hs.marked, hmem]⟩
  · rintro ⟨hd, hm⟩
    exact ⟨hnd.mp hd, fun n => by rw [h.bitmap, hm, hmem]⟩

/-! ## Exact rules -/

/-- The state after `list_update_rcu` has put `new` in the place of `b`. -/
def Kernel.replaced (s : Kernel) (l₁ : List Addr) (b new : Addr) (l₂ : List Addr) : Kernel :=
  { s with
    list := l₁ ++ new :: l₂
    stale := update s.stale b l₂.head?
    unlinked := (b, s.process b) :: s.unlinked }

theorem processOf_eq (hp : s.process a = some p) : processOf a s = .ok p s := by
  refine (bind_of_ok rfl).trans ?_
  rw [hp]
  rfl

theorem findPid_eq (k : Int) (l : List Addr) (h : ∀ a ∈ l, ∃ p, s.process a = some p) :
    findPid k l s = .ok (l.find? fun a => (s.proc a).pid = k) s := by
  induction l with
  | nil => rfl
  | cons b l ih =>
    obtain ⟨q, hq⟩ := h b mem_cons_self
    refine (bind_of_ok (processOf_eq hq)).trans ((bind_of_ok rfl).trans ?_)
    by_cases hc : (s.procs q).pid = k
    · refine (congrFun (if_pos hc) s).trans ?_
      rw [find?_cons_of_pos (by simpa [proc_of hq] using hc)]
      rfl
    · refine (congrFun (if_neg hc) s).trans ?_
      rw [find?_cons_of_neg (by simpa [proc_of hq] using hc)]
      exact ih fun a ha => h a (mem_cons_of_mem _ ha)

/-- No listed process has the pid. -/
theorem listUpdateRcu_none (hproc : ∀ a ∈ s.list, ∃ p, s.process a = some p) (hnil : s.list ≠ [])
    (hne : ∀ a ∈ s.list, (s.proc a).pid ≠ (s.procs q).pid) (new : Addr) :
    listUpdateRcu new q s = .ok none s := by
  refine (bind_of_ok rfl).trans ((congrFun (if_neg hnil) s).trans ?_)
  refine (bind_of_ok (findPid_eq _ s.list hproc)).trans ?_
  rw [find?_eq_none.mpr (by simpa using hne)]
  rfl

/-- The first node with the pid of the process is replaced. -/
theorem listUpdateRcu_eq (hproc : ∀ a ∈ s.list, ∃ p, s.process a = some p)
    (hl : s.list = l₁ ++ b :: l₂) (hpid : (s.proc b).pid = (s.procs q).pid)
    (hne : ∀ a ∈ l₁, (s.proc a).pid ≠ (s.procs q).pid) (new : Addr) :
    listUpdateRcu new q s = .ok (some b) (s.replaced l₁ b new l₂) := by
  have hb : b ∈ s.list := by rw [hl]; simp
  have hb1 : b ∉ l₁ := fun hm => hne b hm hpid
  have hfind : s.list.find? (fun a => (s.proc a).pid = (s.procs q).pid) = some b := by
    rw [hl, find?_append, find?_eq_none.mpr (by simpa using hne),
      find?_cons_of_pos (by simp [hpid])]
    rfl
  have hrep : s.list.replace b new = l₁ ++ new :: l₂ := by
    rw [hl, replace_append_right hb1, replace_cons_self]
  have hnext : s.next b = l₂.head? := by
    rw [Kernel.next, if_pos hb, hl, Sleep.after_middle hb1]
  have hnil : s.list ≠ [] := ne_nil_of_mem hb
  refine (bind_of_ok rfl).trans ((congrFun (if_neg hnil) s).trans ?_)
  refine (bind_of_ok (findPid_eq _ s.list hproc)).trans ?_
  rw [hfind]
  refine (bind_of_ok rfl).trans (congrArg (EStateM.Result.ok (some b)) ?_)
  simp [Kernel.replaced, hrep, hnext]

/-- The nodes on the list and their structs are in use, and the pids are distinct. -/
structure Listed (s : Kernel) : Prop where
  node : ∀ a ∈ s.list, a < s.fresh
  proc : ∀ a ∈ s.list, ∃ p, s.process a = some p ∧ p < s.fresh
  pids : (s.list.map fun a => (s.proc a).pid).Nodup

namespace Listed

section
variable (h : Listed s)
include h

theorem nodup : s.list.Nodup := h.pids.of_map

theorem proc_some : ∀ a ∈ s.list, ∃ p, s.process a = some p := fun a ha =>
  (h.proc a ha).imp fun _ hp => hp.1

theorem pid_ne (hb : b ∈ s.list) (hp : s.process b = some p) (ha : a ∈ s.list) (hab : a ≠ b) :
    (s.proc a).pid ≠ (s.procs p).pid := by
  intro e
  rw [← proc_of hp] at e
  exact hab (inj_on_of_nodup_map h.pids ha hb e)

/-- The node of the process is found. -/
theorem listUpdateRcu_eq (hl : s.list = l₁ ++ b :: l₂) (hp : s.process b = some p) (new : Addr) :
    listUpdateRcu new p s = .ok (some b) (s.replaced l₁ b new l₂) := by
  have hnd := h.nodup
  rw [hl, nodup_middle, nodup_cons] at hnd
  refine Seq.listUpdateRcu_eq h.proc_some hl (by rw [proc_of hp]) (fun a ha => ?_) new
  exact h.pid_ne (by simp [hl]) hp (by simp [hl, ha]) fun e =>
    hnd.1 (mem_append_left _ (e ▸ ha))

/-- The blocks in use are as before. -/
theorem proc_congr (hp : ∀ a < s.fresh, s'.process a = s.process a)
    (hv : ∀ q < s.fresh, s'.procs q = s.procs q) (ha : a ∈ s.list) : s'.proc a = s.proc a := by
  obtain ⟨q, hq, hlt⟩ := h.proc a ha
  rw [proc_of hq, proc_of ((hp a (h.node a ha)).trans hq), hv q hlt]

theorem congr (hl : s'.list = s.list) (hp : ∀ a < s.fresh, s'.process a = s.process a)
    (hv : ∀ q < s.fresh, s'.procs q = s.procs q) (hf : s.fresh ≤ s'.fresh) : Listed s' := by
  refine ⟨?_, ?_, ?_⟩
  · rw [hl]
    exact fun a ha => lt_of_lt_of_le (h.node a ha) hf
  · rw [hl]
    intro a ha
    obtain ⟨q, hq, hlt⟩ := h.proc a ha
    exact ⟨q, (hp a (h.node a ha)).trans hq, lt_of_lt_of_le hlt hf⟩
  · rw [hl, map_congr_left fun a ha => by rw [h.proc_congr hp hv ha]]
    exact h.pids

end

end Listed

theorem Shows.listed (h : Shows g s) (hg : g.Ok) : Listed s := by
  refine ⟨h.node, h.proc, ?_⟩
  have hp := hg.pids
  rwa [← h.ids, map_map] at hp

theorem listUpdateRcu_at (h : Shows g s) (hg : g.Ok) (hl : s.list = l₁ ++ b :: l₂)
    (hp : s.process b = some p) : Triple (· = s) (listUpdateRcu new p) fun r s' =>
      s' = s.replaced l₁ b new l₂ ∧ r = some b :=
  .of_eq ((h.listed hg).listUpdateRcu_eq hl hp new) ⟨rfl, rfl⟩

/-- The state after the allocation of a node and of its struct, a copy `w`. -/
def Kernel.drafted (s : Kernel) (w : Proc) : Kernel :=
  { s with
    fresh := s.fresh + 2
    live := (s.fresh + 1) :: s.fresh :: s.live
    process := update s.process s.fresh (some (s.fresh + 1))
    procs := update s.procs (s.fresh + 1) w }

theorem newNode_eq (w : Proc) : newNode w s = .ok (s.fresh, s.fresh + 1) (s.drafted w) := rfl

/-- The blocks in use stay as they are. -/
theorem process_drafted (w : Proc) (ha : a < s.fresh) : (s.drafted w).process a = s.process a :=
  update_of_ne (ne_of_lt ha) _ _

theorem procs_drafted (w : Proc) (hp : p < s.fresh) : (s.drafted w).procs p = s.procs p :=
  update_of_ne (ne_of_lt (Nat.lt_succ_of_lt hp)) _ _

theorem Listed.drafted (h : Listed s) (w : Proc) : Listed (s.drafted w) :=
  h.congr rfl (fun _ ha => process_drafted w ha) (fun _ hq => procs_drafted w hq)
    (Nat.le_add_right _ 2)

theorem newNode_at (w : Proc) : Triple (· = s) (newNode w) fun r s' =>
    s' = s.drafted w ∧ r = (s.fresh, s.fresh + 1) := .of_eq (newNode_eq w) ⟨rfl, rfl⟩

/-- The state after `freeproc(b->process, 0); knfree(b)`. -/
def Kernel.reclaimed (s : Kernel) (b p : Addr) : Kernel :=
  { s with
    procs := update s.procs p {}
    live := s.live.erase b
    freed := b :: s.freed }

theorem reclaim_eq (hp : s.process b = some p) : reclaim b s = .ok () (s.reclaimed b p) :=
  (bind_of_ok (processOf_eq hp)).trans rfl

theorem reclaim_at (hp : s.process b = some p) :
    Triple (· = s) (reclaim b) fun _ s' => s' = s.reclaimed b p := .of_eq (reclaim_eq hp) rfl

/-! ## A version is replaced -/

/-- The view of a state that the slate depends on. -/
theorem Shows.congr (h : Shows g s) (hl : s'.list = s.list) (hp : s'.process = s.process)
    (hv : ∀ a ∈ s.list, s'.proc a = s.proc a) (hb : s'.bitmap = s.bitmap)
    (hn : s'.nextpid = s.nextpid) (hf : s.fresh ≤ s'.fresh) : Shows g s' := by
  refine ⟨?_, ?_, ?_, ?_, hb.trans h.bitmap, hn.trans h.nextpid⟩
  · rw [hl]
    exact fun a ha => lt_of_lt_of_le (h.node a ha) hf
  · rw [hl, hp]
    intro a ha
    obtain ⟨p, e, hlt⟩ := h.proc a ha
    exact ⟨p, e, lt_of_lt_of_le hlt hf⟩
  · rw [hl, hp]
    exact h.inj
  · rw [hl, ← h.ids]
    exact map_congr_left fun a ha => by rw [hv a ha]

/-- The struct `q` is of no listed node. -/
def Private (q : Addr) (s : Kernel) : Prop := ∀ a ∈ s.list, s.process a ≠ some q

theorem Shows.store (h : Shows g s) (hq : Private q s) (v : Proc) :
    Shows g { s with procs := update s.procs q v } := by
  refine h.congr rfl rfl (fun a ha => ?_) rfl rfl le_rfl
  obtain ⟨p, e, -⟩ := h.proc a ha
  have hne : p ≠ q := by
    rintro rfl
    exact hq a ha e
  simp [Kernel.proc, e, update_of_ne hne]

/-- The addresses from `fresh` on are of no listed node. -/
theorem Shows.private_fresh (h : Shows g s) (hq : s.fresh ≤ q) : Private q s := by
  intro a ha e
  obtain ⟨p, hp, hlt⟩ := h.proc a ha
  cases hp.symm.trans e
  exact absurd hlt (not_lt.mpr hq)

/-- A new node and its struct. -/
structure Draft (new np : Addr) (k : Int × Int) (s : Kernel) : Prop where
  unlisted : new ∉ s.list
  lt : new < s.fresh
  process : s.process new = some np
  np_lt : np < s.fresh
  priv : Private np s
  same : key (s.procs np) = k

theorem Shows.drafted (h : Shows g s) (w : Proc) :
    Shows g (s.drafted w) ∧ Draft s.fresh (s.fresh + 1) (key w) (s.drafted w) := by
  have hproc : ∀ a ∈ s.list, (s.drafted w).process a = s.process a := fun a ha =>
    process_drafted w (h.node a ha)
  have hpriv : Private (s.fresh + 1) (s.drafted w) := by
    intro a ha e
    rw [hproc a ha] at e
    exact h.private_fresh (Nat.le_succ _) a ha e
  refine ⟨⟨?_, ?_, ?_, ?_, h.bitmap, h.nextpid⟩, ?_, ?_, ?_, ?_, hpriv, ?_⟩
  · exact fun a ha => Nat.lt_add_right 2 (h.node a ha)
  · intro a ha
    obtain ⟨p, e, hlt⟩ := h.proc a ha
    exact ⟨p, (hproc a ha).trans e, Nat.lt_add_right 2 hlt⟩
  · intro a ha b hb e
    rw [hproc a ha, hproc b hb] at e
    exact h.inj a ha b hb e
  · rw [← h.ids]
    refine map_congr_left fun a ha => ?_
    obtain ⟨p, e, hlt⟩ := h.proc a ha
    rw [proc_of e, proc_of ((hproc a ha).trans e), procs_drafted w hlt]
  · exact fun hm => lt_irrefl _ (h.node _ hm)
  · exact Nat.lt_add_of_pos_right (by decide)
  · exact update_self _ _ _
  · exact Nat.lt_succ_self _
  · simp [Kernel.drafted]

section
variable (h : Shows g s) (hg : g.Ok) (hl : s.list = l₁ ++ b :: l₂)
include h hg hl

/-- The draft of a version with the same key is published: the slate stays, and the old node and its
struct are of no listed node. -/
theorem Shows.replaced (hp : s.process b = some p) (hd : Draft new np (key (s.procs p)) s) :
    Shows g (s.replaced l₁ b new l₂) ∧ Private p (s.replaced l₁ b new l₂) ∧
        b ∉ l₁ ++ new :: l₂ := by
  have hmem : ∀ a, a ∈ l₁ ++ new :: l₂ → a = new ∨ a ∈ s.list := by
    intro a ha
    rw [hl]
    simp only [mem_append, mem_cons] at ha ⊢
    tauto
  have hbl : b ∈ s.list := by rw [hl]; simp
  have hbn : b ≠ new := by rintro rfl; exact hd.unlisted hbl
  have hout : b ∉ l₁ ++ new :: l₂ := by
    have hnd := h.nodup hg
    rw [hl, nodup_middle, nodup_cons] at hnd
    simpa [hbn] using hnd.1
  have hother : ∀ a ∈ l₁ ++ new :: l₂, s.process a ≠ some p := by
    intro a ha e
    rcases hmem a ha with rfl | ha'
    · cases hd.process.symm.trans e
      exact hd.priv b hbl hp
    · exact hout (h.inj a ha' b hbl (e.trans hp.symm) ▸ ha)
  refine ⟨⟨?_, ?_, ?_, ?_, h.bitmap, h.nextpid⟩, hother, hout⟩
  · intro a ha
    rcases hmem a ha with rfl | ha
    · exact hd.lt
    · exact h.node a ha
  · intro a ha
    rcases hmem a ha with rfl | ha
    · exact ⟨np, hd.process, hd.np_lt⟩
    · exact h.proc a ha
  · intro a ha c hc e
    rcases hmem a ha with rfl | ha' <;> rcases hmem c hc with rfl | hc'
    · rfl
    · exact absurd (e.symm.trans hd.process) (hd.priv c hc')
    · exact absurd (e.trans hd.process) (hd.priv a ha')
    · exact h.inj a ha' c hc' e
  · have hids := h.ids
    have hkey : key (s.proc new) = key (s.proc b) := by
      rw [proc_of hd.process, proc_of hp, hd.same]
    show (l₁ ++ new :: l₂).map (fun a => key (s.proc a)) = g.ids
    rw [hl, map_append, map_cons] at hids
    rw [map_append, map_cons, hkey, hids]

/-- The old version is freed. -/
theorem Shows.renewed (hp : s.process b = some p) (hd : Draft new np (key (s.procs p)) s) :
    Shows g ((s.replaced l₁ b new l₂).reclaimed b p) := by
  obtain ⟨h1, hpriv, -⟩ := h.replaced hg hl hp hd
  exact (h1.store hpriv {}).congr rfl rfl (fun _ _ => rfl) rfl rfl le_rfl

theorem replace_at {β : Type} {f : KernelM β} {R : β → Kernel → Prop} {e : Stop}
    (hp : s.process b = some p) (hf : Triple (· = (s.replaced l₁ b new l₂).reclaimed b p) f R) :
    Triple (· = s) (do
      let some old ← listUpdateRcu new p
        | throw e
      reclaim old
      f) R := by
  refine (listUpdateRcu_at h hg hl hp).bind fun r => .assuming fun hr => ?_
  subst hr
  exact (reclaim_at (s := s.replaced l₁ b new l₂) hp).bind fun _ => hf

/-- CPU 0 points to the struct of a listed node. -/
def Running (s : Kernel) : Prop := ∃ b p, b ∈ s.list ∧ s.process b = some p ∧ s.cpuProc 0 = some p

omit h hg hl in
/-- The node of the process in the drafted state. -/
theorem Shows.process_drafted (h : Shows g s) (hl : s.list = l₁ ++ b :: l₂)
    (hp : s.process b = some p) : (s.drafted w).process b = some p :=
  (Seq.process_drafted w (h.node b (by simp [hl]))).trans hp

/-- The new version of a process, from its node `b` with the struct `p`. -/
theorem Shows.renew (hp : s.process b = some p) (hw : key w = key (s.procs p)) :
    Shows g (((s.drafted w).replaced l₁ b s.fresh l₂).reclaimed b p) := by
  have hb : b ∈ s.list := by rw [hl]; simp
  obtain ⟨q, hq, hlt⟩ := h.proc b hb
  obtain rfl : q = p := Option.some.inj (hq.symm.trans hp)
  obtain ⟨h1, hd⟩ := h.drafted w
  have hpb : (s.drafted w).process b = some q := h.process_drafted hl hp
  have hkey : key ((s.drafted w).procs q) = key w := by rw [hw, procs_drafted w hlt]
  exact h1.renewed hg hl hpb (hkey ▸ hd)

end

/-! ## The calls -/

theorem Shows.setCpu (h : Shows g s) (x : CpuId → Ptr) : Shows g { s with cpuProc := x } :=
  h.congr rfl rfl (fun _ _ => rfl) rfl rfl le_rfl

/-- The state after the caller has replaced its version by `w`. -/
def Kernel.installed (s : Kernel) (l₁ : List Addr) (b : Addr) (l₂ : List Addr) (p : Addr)
    (w : Proc) : Kernel :=
  { ((s.drafted w).replaced l₁ b s.fresh l₂).reclaimed b p with
    cpuProc := update s.cpuProc 0 (some (s.fresh + 1)) }

/-- `sleep` and its second half replace the version of the caller. -/
theorem install_eq {m : Proc → Proc} {e : Stop} (h : Shows g s) (hg : g.Ok)
    (hl : s.list = l₁ ++ b :: l₂) (hp : s.process b = some p) (hcpu : s.cpuProc 0 = some p) :
    (do
      let p ← deref (← myproc 0)
      let (new, np) ← newNode (m (← load p))
      let some old ← listUpdateRcu new p
        | throw e
      reclaim old
      setCpuProc 0 (some np)) s = .ok () (s.installed l₁ b l₂ p (m (s.procs p))) := by
  refine (bind_of_ok rfl).trans ?_
  rw [hcpu]
  have hpb := h.process_drafted (w := m (s.procs p)) hl hp
  refine (bind_of_ok (((h.drafted _).1.listed hg).listUpdateRcu_eq hl hpb s.fresh)).trans ?_
  refine (bind_of_ok (reclaim_eq (s := (s.drafted _).replaced l₁ b s.fresh l₂) hpb)).trans rfl

theorem Shows.installed (h : Shows g s) (hg : g.Ok) (hl : s.list = l₁ ++ b :: l₂)
    (hp : s.process b = some p) (hw : key w = key (s.procs p)) :
    Shows g (s.installed l₁ b l₂ p w) ∧ Running (s.installed l₁ b l₂ p w) := by
  refine ⟨(h.renew hg hl hp hw).setCpu _, s.fresh, s.fresh + 1, ?_, ?_, ?_⟩
  · simp [Kernel.installed, Kernel.reclaimed, Kernel.replaced]
  · simp [Kernel.installed, Kernel.reclaimed, Kernel.replaced, Kernel.drafted]
  · simp [Kernel.installed]

theorem install_shows {m : Proc → Proc} {e : Stop} (hm : ∀ v, key (m v) = key v) (h : Shows g s)
    (hg : g.Ok) (hr : Running s) : Returns (do
      let p ← deref (← myproc 0)
      let (new, np) ← newNode (m (← load p))
      let some old ← listUpdateRcu new p
        | throw e
      reclaim old
      setCpuProc 0 (some np)) s fun _ s' => Shows g s' ∧ Running s' := by
  obtain ⟨b, p, hb, hp, hcpu⟩ := hr
  obtain ⟨l₁, l₂, hl⟩ := append_of_mem hb
  exact .of_eq (install_eq h hg hl hp hcpu) (h.installed hg hl hp (hm _))

section
variable (h : Shows g s) (hg : g.Ok) (hr : Running s)
include h hg hr

theorem sleep_returns (chan : Chan) :
    Returns (sleep 0 chan) s fun _ s' => Shows g s' ∧ Running s' :=
  install_shows (fun _ => rfl) h hg hr

theorem sleep_shows (chan : Chan) :
    Triple (· = s) (sleep 0 chan) fun _ s' => Shows g s' ∧ Running s' :=
  (sleep_returns h hg hr chan).triple

theorem woken_shows : Triple (· = s) (woken 0) fun _ s' => Shows g s' ∧ Running s' :=
  (install_shows (m := Sleep.awake) (fun _ => rfl) h hg hr).triple

omit h hg hr in
theorem wakeupFrom_shows (hg : g.Ok) (chan : Chan) (fuel : Nat) : ∀ (s : Kernel)
    (l₁ l₂ : List Addr),
    Shows g s → Running s → s.list = l₁ ++ l₂ →
      Triple (· = s) (wakeupFrom 0 chan fuel l₂.head?) fun _ s' => Shows g s' ∧ Running s' := by
  induction fuel with
  | zero =>
    intro s l₁ l₂ h hr hl
    cases l₂ with
    | nil => exact .pure fun _ e => e ▸ ⟨h, hr⟩
    | cons a l₂ => exact .throw
  | succ fuel ih =>
    intro s l₁ l₂ h hr hl
    cases l₂ with
    | nil => exact .pure fun _ e => e ▸ ⟨h, hr⟩
    | cons a l₂ =>
      refine at_processOf fun p hp => at_load (at_myproc (.ite (fun hc => ?_) fun hc => ?_))
      · obtain ⟨c, q, hc', hq, hcpu⟩ := hr
        have hkey : key (Sleep.runnable (s.procs p)) = key (s.procs p) := rfl
        refine (newNode_at _).bind fun r => .assuming fun hr => ?_
        subst hr
        refine replace_at (h.drafted _).1 hg hl (h.process_drafted hl hp) (at_get ?_)
        -- the cursor goes on behind the old node
        have h' := h.renew hg hl hp hkey
        have hout : a ∉ l₁ ++ s.fresh :: l₂ := by
          have hnd := h.nodup hg
          have hne : a ≠ s.fresh := ne_of_lt (h.node a (by simp [hl]))
          rw [hl, nodup_middle, nodup_cons] at hnd
          simpa [hne] using hnd.1
        have hnext : (((s.drafted (Sleep.runnable (s.procs p))).replaced l₁ a s.fresh l₂).reclaimed
            a p).next a = l₂.head? := by
          refine (if_neg hout).trans ?_
          simp [Kernel.reclaimed, Kernel.replaced]
        rw [hnext]
        refine ih _ (l₁ ++ [s.fresh]) l₂ h' ⟨c, q, ?_, ?_, hcpu⟩ (by
          simp [Kernel.reclaimed, Kernel.replaced])
        · -- the current process is another one
          have hca : c ≠ a := by
            rintro rfl
            exact hc.1 (hp.symm.trans (hq.trans hcpu.symm))
          rw [hl] at hc'
          show c ∈ l₁ ++ s.fresh :: l₂
          simp only [mem_append, mem_cons] at hc' ⊢
          tauto
        · exact (process_drafted (Sleep.runnable (s.procs p)) (h.node c hc')).trans hq
      · refine at_get ?_
        rw [next_of_append (h.nodup hg) hl]
        exact ih s (l₁ ++ [a]) l₂ h hr (by simp [hl])

theorem wakeup_shows (chan : Chan) :
    Triple (· = s) (wakeup 0 chan) fun _ s' => Shows g s' ∧ Running s' :=
  at_get (wakeupFrom_shows hg chan _ s [] s.list h hr rfl)

end

/-- A loop of calls to other parts of the kernel. -/
theorem calls_eq (x : Addr → Call) (fs : List Addr) :
    (forIn fs PUnit.unit (fun f _ => do
      call (x f)
      pure (ForInStep.yield PUnit.unit)) : KernelM PUnit) s =
      .ok ⟨⟩ { s with calls := s.calls ++ fs.map x } := by
  induction fs generalizing s with
  | nil =>
    rw [map_nil, append_nil]
    rfl
  | cons f fs ih =>
    rw [forIn_cons]
    exact ih.trans (by simp)

theorem at_calls {β : Type} {Q : β → Kernel → Prop} {x : Addr → Call} {fs : List Addr}
    {f : PUnit → KernelM β} (h : ∀ cs, Triple (· = { s with calls := cs }) (f ⟨⟩) Q) :
    Triple (· = s) (forIn fs PUnit.unit (fun f _ => do
      call (x f)
      pure (ForInStep.yield PUnit.unit)) >>= f) Q :=
  .bind (.of_eq (calls_eq x fs) rfl)
    fun _ => h _

/-- `closeFile` clears the struct of the old version. -/
theorem closeFile_clears (h : Shows g s) (hg : g.Ok) (hl : s.list = l₁ ++ b :: l₂)
    (hp : s.process b = some p) : Triple (· = s) (closeFile p) fun _ s' => s'.procs p = {} := by
  refine at_load ((newNode_at _).bind fun r => .assuming fun hr => ?_)
  subst hr
  refine at_calls ?_
  intro cs
  refine at_modifyProc ?_
  obtain ⟨h1, hd⟩ := h.drafted (s.procs p)
  -- the draft without its files
  generalize hs2 : ({ s.drafted (s.procs p) with
    calls := cs
    procs := update (s.drafted (s.procs p)).procs (s.fresh + 1)
      { (s.drafted (s.procs p)).procs (s.fresh + 1) with ofile := Vector.replicate NOFILE none } } :
    Kernel) = s2
  have h2 : Shows g s2 := by
    subst hs2
    exact (h1.store hd.priv _).congr rfl rfl (fun _ _ => rfl) rfl rfl le_rfl
  have hl2 : s2.list = l₁ ++ b :: l₂ := by subst hs2; exact hl
  have hpb2 : s2.process b = some p := by
    subst hs2
    exact h.process_drafted (w := s.procs p) hl hp
  refine replace_at h2 hg hl2 hpb2 (.pure ?_)
  rintro _ rfl
  simp [Kernel.reclaimed]

/-- `exit` does not come to its `sched()`: `p` is cleared, and `iput` gets `NULL`. -/
theorem exit_stops (h : Shows g s) (hg : g.Ok) (hr : Running s) (status : Int) :
    Triple (· = s) (exit 0 status) fun _ _ => False := by
  obtain ⟨b, p, hb, hp, hcpu⟩ := hr
  obtain ⟨l₁, l₂, hl⟩ := append_of_mem hb
  refine at_myproc ?_
  rw [hcpu]
  refine at_deref (at_get (.ite (fun _ => .throw_bind) fun _ => ?_))
  refine (closeFile_clears h hg hl hp).bind fun np => of_at fun s1 hs1 => at_modify (at_load ?_)
  simp only [hs1]
  exact .throw_bind

/-! ## `wait` -/

/-- The slate without a process, and its mark. -/
def Slate.reap (g : Slate) (i : Int × Int) : Slate :=
  { g with ids := g.ids.erase i, bitmap := update g.bitmap i.2 false }

/-- A process is reaped, or none. -/
def Reaps (g : Slate) (s : Kernel) : Prop := Shows g s ∨ ∃ i ∈ g.ids, Shows (g.reap i) s

/-- The state after the node `a` with the struct `q` has been reaped. -/
theorem Shows.reap (h : Shows g s) (hg : g.Ok) (ha : a ∈ s.list) (hq : s.process a = some q)
    (hl : s'.list = s.list.erase a) (hp : s'.process = s.process)
    (hv : s'.procs = update s.procs q {})
    (hb : s'.bitmap = update s.bitmap (s.procs q).nKStack false)
    (hn : s'.nextpid = s.nextpid) (hf : s'.fresh = s.fresh) :
    Shows (g.reap (key (s.procs q))) s' := by
  have hnd := h.nodup hg
  have hsub : ∀ b ∈ s.list.erase a, b ∈ s.list := fun b => mem_of_mem_erase
  have hkeep : ∀ b ∈ s.list.erase a, s'.proc b = s.proc b := by
    intro b hbl
    obtain ⟨r, hr, -⟩ := h.proc b (hsub b hbl)
    have hne : r ≠ q := by
      rintro rfl
      have hba := h.inj b (hsub b hbl) a ha (hr.trans hq.symm)
      exact hnd.not_mem_erase (hba ▸ hbl)
    simp [Kernel.proc, hp, hr, hv, update_of_ne hne]
  refine ⟨?_, ?_, ?_, ?_, ?_, hn.trans h.nextpid⟩
  · rw [hl, hf]
    exact fun b hb => h.node b (hsub b hb)
  · rw [hl, hp, hf]
    exact fun b hb => h.proc b (hsub b hb)
  · rw [hl, hp]
    exact fun b hb c hc => h.inj b (hsub b hb) c (hsub c hc)
  · have hinj : ∀ b ∈ s.list, key (s.proc b) = key (s.proc a) → b = a := fun b hb e =>
      h.eq_of_pid hg hb ha (Prod.mk.inj e).1
    rw [hl, map_congr_left fun b hb => by rw [hkeep b hb]]
    show _ = g.ids.erase _
    obtain ⟨l₁, l₂, e⟩ := append_of_mem ha
    have ha1 : a ∉ l₁ := by
      rw [e] at hnd
      exact fun hm => (nodup_append.mp hnd).2.2 a hm a mem_cons_self rfl
    have hk1 : key (s.proc a) ∉ l₁.map fun b => key (s.proc b) := by
      intro hm
      obtain ⟨b, hb, hbk⟩ := mem_map.mp hm
      exact ha1 (hinj b (by rw [e]; exact mem_append_left _ hb) hbk ▸ hb)
    rw [← h.ids, ← proc_of hq, e, map_append, map_cons, erase_append_right _ ha1,
      erase_cons_head, erase_append_right _ hk1, erase_cons_head, map_append]
  · rw [hb, h.bitmap]
    rfl

/-- What `freeproc(p, 1)` gives back of a process, its kernel stack apart. -/
def released (v : Proc) : List Call :=
  (if v.trapframe.isSome then [.kfree v.trapframe] else []) ++
    if v.pagetable.isSome then [.freePagetable v.pagetable v.sz] else []

theorem freeproc_eq (q : Addr) : freeproc q true s = .ok () { s with
    calls := s.calls ++ released (s.procs q)
    bitmap := update s.bitmap (s.procs q).nKStack false
    procs := update s.procs q {} } := by
  refine (bind_of_ok rfl).trans ?_
  have hend : ∀ cs, (do
      modify fun s' => { s' with bitmap := update s'.bitmap (s.procs q).nKStack false }
      store q {} : KernelM Unit) { s with calls := cs } = .ok () { s with
        calls := cs
        bitmap := update s.bitmap (s.procs q).nKStack false
        procs := update s.procs q {} } := fun _ => rfl
  cases ht : (s.procs q).trapframe <;> cases hp : (s.procs q).pagetable
  all_goals simp [released, ht, hp]
  · exact (hend s.calls).trans (by simp)
  · exact (bind_of_ok rfl).trans (hend _)
  · exact (bind_of_ok rfl).trans (hend _)
  · exact (bind_of_ok rfl).trans ((bind_of_ok rfl).trans ((hend _).trans (by simp)))

/-- `freeproc(q, 1)`. -/
theorem freeproc_at (q : Addr) : Triple (· = s) (freeproc q true) fun _ s' => ∃ cs, s' = { s with
    calls := cs
    bitmap := update s.bitmap (s.procs q).nKStack false
    procs := update s.procs q {} } := .of_eq (freeproc_eq q) ⟨_, rfl⟩

theorem waitRound_shows (h : Shows g s) (hg : g.Ok) (hr : Running s) (p : Addr) (addr : Nat)
    (e : Env) :
    Triple (· = s) (waitRound 0 p addr e) fun _ => Reaps g := by
  refine at_get ((waitFrom_finds (h.nodup hg) p _ false [] s.list rfl).bind fun r => ?_)
  obtain ⟨kids, z⟩ := r
  cases z with
  | some a =>
    refine .assuming fun ha => at_processOf fun q hq => at_load
        (.ite (fun _ => .throw_bind) fun _ => ?_)
    have ha : a ∈ s.list := ha.1
    refine .bind (Q := fun _ s' => s'.list = s.list.erase a ∧ s'.process = s.process ∧
      s'.procs = s.procs ∧ s'.bitmap = s.bitmap ∧ s'.nextpid = s.nextpid ∧ s'.fresh = s.fresh) ?_
      fun _ => of_at fun s1 hs1 => ?_
    · refine at_get (.ite (fun _ => .throw_bind) fun _ => .ite (fun _ => .modify ?_)
        fun hn => (hn ha).elim)
      rintro _ rfl
      exact ⟨rfl, rfl, rfl, rfl, rfl, rfl⟩
    · obtain ⟨hl, hp, hv, hb, hn, hf⟩ := hs1
      refine (freeproc_at q).bind fun _ => .exists_pre fun cs => at_modify (.pure ?_)
      rintro _ rfl
      refine .inr ⟨key (s.procs q), ?_, h.reap hg ha hq hl hp ?_ ?_ hn hf⟩
      · rw [← proc_of hq]
        exact h.mem_ids ha
      · simp [hv]
      · simp [hv, hb]
  | none =>
    refine .assuming fun _ => at_load (.ite (fun _ => .pure fun _ e => e ▸ .inl h) fun _ => ?_)
    exact (sleep_shows h hg hr _).bind fun _ => .pure fun _ hs => .inl hs.1

/-! ## `fork` -/

/-- The state while `allocproc` fills in the struct at `s.fresh`. -/
structure Filled (s : Kernel) (bitmap : Int → Bool) (k : Int × Int) (s' : Kernel) : Prop where
  bitmap : s'.bitmap = bitmap
  list : s'.list = s.list
  process : s'.process = s.process
  nextpid : s'.nextpid = s.nextpid + 1
  fresh : s'.fresh = s.fresh + 1
  others : ∀ q, q ≠ s.fresh → s'.procs q = s.procs q
  key : key (s'.procs s.fresh) = k

variable {k : Int × Int} {bitmap : Int → Bool}

theorem modifyProc_filled {k' : Int × Int} {f : Proc → Proc} (hf : ∀ v, key v = k → key (f v) = k')
    :
    Triple (Filled s bitmap k) (modifyProc s.fresh f) fun _ => Filled s bitmap k' := by
  refine .bind (load_reads s.fresh) fun v => .modify fun s' hs' => ?_
  obtain ⟨h, rfl⟩ := hs'
  refine ⟨h.bitmap, h.list, h.process, h.nextpid, h.fresh, fun q hq => ?_, ?_⟩
  · simp [update_of_ne hq, h.others q hq]
  · simp [hf _ h.key]

theorem modifyProc_keeps {f : Proc → Proc} (hf : ∀ v, key (f v) = key v) :
    Triple (Filled s bitmap k) (modifyProc s.fresh f) fun _ => Filled s bitmap k :=
  modifyProc_filled fun v hv => (hf v).trans hv

theorem knfree_filled (a : Addr) :
    Triple (Filled s bitmap k) (knfree a) fun _ => Filled s bitmap k :=
  .modify fun _ h => ⟨h.bitmap, h.list, h.process, h.nextpid, h.fresh, h.others, h.key⟩

theorem call_filled (x : Call) : Triple (Filled s bitmap k) (call x) fun _ => Filled s bitmap k :=
  .modify fun _ h => ⟨h.bitmap, h.list, h.process, h.nextpid, h.fresh, h.others, h.key⟩

theorem allocKStack_filled : Triple (Filled s s.bitmap k) allocKStack fun n s' =>
    Filled s (update s.bitmap n true) k s' ∧ s.bitmap n = false := by
  refine .get fun s1 h => ?_
  split
  · rename_i n hfind
    refine at_modify (.pure ?_)
    rintro _ rfl
    refine ⟨⟨by rw [h.bitmap], h.list, h.process, h.nextpid, h.fresh, h.others, h.key⟩, ?_⟩
    rw [← h.bitmap]
    simpa using find?_some hfind
  · exact .throw

/-- `allocproc` marks a free stack, whatever it returns. -/
theorem allocproc_at (e : Env) : Triple (· = s) (allocproc e) fun r s' => ∃ n : Nat,
    (Filled s (update s.bitmap n true) (s.nextpid, n) s' ∧ s.bitmap n = false) ∧
    match r with
    | none => e.kalloc = none ∨ e.procPagetable = none
    | some p => (e.kalloc.isSome = true ∧ e.procPagetable.isSome = true) ∧ p = s.fresh := by
  refine at_modifyGet (at_modifyGet (at_modifyProc (at_get (at_modify (at_modifyProc ?_)))))
  refine Triple.mono (P := Filled s s.bitmap (s.nextpid, (s.procs s.fresh).nKStack)) ?_ ?_
    fun _ _ => id
  · refine allocKStack_filled.bind fun n => .assuming fun hn => ?_
    refine .bind (Q := fun _ => Filled s (update s.bitmap n true) (s.nextpid, n))
      (modifyProc_filled fun v hv => Prod.ext (Prod.mk.inj hv).1 rfl) fun _ => ?_
    cases hk : e.kalloc with
    | none => exact (knfree_filled _).bind fun _ => .pure fun s' h => ⟨n, ⟨h, hn⟩, .inl rfl⟩
    | some trapframe =>
      refine (modifyProc_keeps fun _ => by rfl).bind fun _ => ?_
      cases hg : e.procPagetable with
      | none => exact (knfree_filled _).bind fun _ => .pure fun s' h => ⟨n, ⟨h, hn⟩, .inr rfl⟩
      | some pagetable =>
        exact (modifyProc_keeps fun _ => by rfl).bind fun _ => .pure fun s' h =>
          ⟨n, ⟨h, hn⟩, ⟨rfl, rfl⟩, rfl⟩
  · rintro _ rfl
    refine ⟨rfl, rfl, rfl, rfl, rfl, fun q hq => ?_, ?_⟩
    · simp [update_of_ne hq]
    · simp [key]

/-- The slate with a new mark and the next pid. -/
def Slate.mark (g : Slate) (n : Int) : Slate :=
  { g with bitmap := update g.bitmap n true, nextpid := g.nextpid + 1 }

/-- The slate with a new process. -/
def Slate.add (g : Slate) (n : Int) : Slate := { g.mark n with ids := (g.nextpid, n) :: g.ids }

/-- The allocations of a `fork` succeed. -/
def Env.Succeeds (e : Env) : Prop :=
  e.kalloc.isSome = true ∧ e.procPagetable.isSome = true ∧ e.uvmcopy = true

theorem Filled.shows {n : Nat} (h : Shows g s)
    (hf : Filled s (update s.bitmap n true) (s.nextpid, (n : Int)) s') :
    Shows (g.mark n) s' := by
  have hkeep : ∀ a ∈ s.list, s'.proc a = s.proc a := by
    intro a ha
    obtain ⟨p, hp, hlt⟩ := h.proc a ha
    have hp' : s'.process a = some p := by rw [hf.process]; exact hp
    rw [proc_of hp, proc_of hp', hf.others p (ne_of_lt hlt)]
  refine ⟨?_, ?_, ?_, ?_, ?_, ?_⟩
  · rw [hf.list, hf.fresh]
    exact fun a ha => Nat.lt_succ_of_lt (h.node a ha)
  · rw [hf.list, hf.fresh, hf.process]
    intro a ha
    obtain ⟨p, hp, hlt⟩ := h.proc a ha
    exact ⟨p, hp, Nat.lt_succ_of_lt hlt⟩
  · rw [hf.list, hf.process]
    exact h.inj
  · rw [hf.list, map_congr_left fun a ha => by rw [hkeep a ha]]
    exact h.ids
  · rw [hf.bitmap, h.bitmap]
    rfl
  · rw [hf.nextpid, h.nextpid]
    rfl

/-- The node of the new process is listed. -/
theorem Filled.listed {n : Nat} (h : Shows g s)
    (hf : Filled s (update s.bitmap n true) (s.nextpid, (n : Int)) s') :
    Shows (g.add n) { s' with
      list := s'.fresh :: s'.list
      fresh := s'.fresh + 1
      live := s'.fresh :: s'.live
      process := update s'.process s'.fresh (some s.fresh) } := by
  have h1 := hf.shows h
  have hold : ∀ a ∈ s'.list, update s'.process s'.fresh (some s.fresh) a = s'.process a :=
    fun a ha => update_of_ne (ne_of_lt (h1.node a ha)) _ _
  have hpriv : ∀ a ∈ s'.list, s'.process a ≠ some s.fresh := by
    intro a ha e
    rw [hf.list] at ha
    rw [hf.process] at e
    exact h.private_fresh le_rfl a ha e
  refine ⟨?_, ?_, ?_, ?_, h1.bitmap, h1.nextpid⟩
  · intro a ha
    rcases mem_cons.mp ha with rfl | ha
    · exact Nat.lt_succ_self _
    · exact Nat.lt_succ_of_lt (h1.node a ha)
  · intro a ha
    rcases mem_cons.mp ha with rfl | ha
    · refine ⟨s.fresh, update_self _ _ _, ?_⟩
      rw [hf.fresh]
      exact Nat.lt_succ_of_lt (Nat.lt_succ_self _)
    · obtain ⟨p, hp, hlt⟩ := h1.proc a ha
      exact ⟨p, (hold a ha).trans hp, Nat.lt_succ_of_lt hlt⟩
  · intro a ha b hb e
    rcases mem_cons.mp ha with rfl | ha <;> rcases mem_cons.mp hb with rfl | hb
    · rfl
    · simp only [update_self, hold b hb] at e
      exact absurd e.symm (hpriv b hb)
    · simp only [update_self, hold a ha] at e
      exact absurd e (hpriv a ha)
    · simp only [hold a ha, hold b hb] at e
      exact h1.inj a ha b hb e
  · show Seq.key _ :: map _ s'.list = (g.nextpid, (n : Int)) :: g.ids
    refine congrArg₂ _ ?_ ?_
    · simp [Kernel.proc, hf.key, h.nextpid]
    · rw [← show s'.list.map (fun a => Seq.key (s'.proc a)) = g.ids from h1.ids]
      refine map_congr_left fun a ha => ?_
      simp [Kernel.proc, hold a ha]

/-- The two ends of `fork`. -/
theorem fork_shows (h : Shows g s) (e : Env) : Triple (· = s) (fork 0 e) fun _ s' => ∃ n : Nat,
    g.bitmap n = false ∧ (e.Succeeds ∧ Shows (g.add n) s' ∨
      ¬ e.Succeeds ∧ Shows (g.mark n) s') := by
  refine at_myproc ((deref_reads _).bind fun p => .assuming fun _ => at_load ?_)
  refine (allocproc_at e).bind fun r => .exists_pre fun n => of_at fun s1 hs1 => ?_
  obtain ⟨⟨hf, hn⟩, hr⟩ := hs1
  have hn' : g.bitmap n = false := by rw [← h.bitmap]; exact hn
  have h1 := hf.shows h
  cases r with
  | none =>
    refine .pure ?_
    rintro _ rfl
    refine ⟨n, hn', .inr ⟨fun hs => ?_, h1⟩⟩
    rcases hr with hr | hr
    · simp [hr, Env.Succeeds] at hs
    · simp [hr, Env.Succeeds] at hs
  | some np =>
    obtain ⟨⟨hk, hg⟩, rfl⟩ := hr
    have hpriv : Private s.fresh s1 := by
      intro a ha e
      rw [hf.list] at ha
      rw [hf.process] at e
      exact h.private_fresh le_rfl a ha e
    cases hu : e.uvmcopy with
    | false =>
      refine .bind (at_load (.modify ?_)) fun _ =>
        .pure fun s' hs' => ⟨n, hn', .inr ⟨fun hs => ?_, hs'⟩⟩
      · rintro _ rfl
        exact h1.store hpriv {}
      · rw [Env.Succeeds, hu] at hs
        simp at hs
    | true =>
      -- the rest fills in fields of the struct that are not in the key
      refine Triple.mono ?_
        (by rintro _ rfl; exact hf) fun _ _ => id
      refine (modifyProc_keeps fun _ => by rfl).bind fun _ => .bind (.forIn fun f _ => ?_) fun _ =>
        (call_filled _).bind fun _ => (modifyProc_keeps fun _ => by rfl).bind fun _ => ?_
      · exact (call_filled _).bind fun _ => .pure fun _ => id
      refine .bind (load_reads _).left fun _ =>
        .bind (load_reads _).left fun _ =>
        (modifyProc_keeps fun _ => by rfl).bind fun _ => ?_
      refine of_at fun s2 hf2 => at_modifyGet (at_modify (at_modify (.pure ?_)))
      rintro _ rfl
      exact ⟨n, hn', .inl ⟨⟨hk, hg, hu⟩, hf2.listed h⟩⟩

/-! ## Runs -/

theorem Slate.Ok.mark (hg : g.Ok) (n : Int) : (g.mark n).Ok := by
  have := hg.pos
  refine ⟨hg.pids, ?_, fun i hi => ?_⟩
  · simp only [Slate.mark]
    omega
  · have := hg.range i hi
    simp only [Slate.mark]
    omega

theorem Slate.Ok.add (hg : g.Ok) (n : Int) : (g.add n).Ok := by
  have hpos := hg.pos
  refine ⟨?_, (hg.mark n).pos, fun i hi => ?_⟩
  · refine nodup_cons.mpr ⟨fun hm => ?_, hg.pids⟩
    obtain ⟨i, hi, e⟩ := mem_map.mp hm
    have := (hg.range i hi).2
    simp only at e
    omega
  · rcases mem_cons.mp hi with rfl | hi
    · simp only [Slate.add, Slate.mark]
      omega
    · exact (hg.mark n).range i hi

theorem Slate.Ok.reap (hg : g.Ok) (i : Int × Int) : (g.reap i).Ok :=
  ⟨hg.pids.sublist (erase_sublist.map _), hg.pos,
    fun j hj => hg.range j (mem_of_mem_erase hj)⟩

/-- A new process takes a free stack. -/
theorem Slate.Good.add (h : g.Good) {n : Int} (hn : g.bitmap n = false) : (g.add n).Good := by
  have hnot : n ∉ g.ids.map (·.2) := fun hm => by
    rw [(h.2 n).mpr hm] at hn
    cases hn
  refine ⟨nodup_cons.mpr ⟨hnot, h.1⟩, fun m => ?_⟩
  show update g.bitmap n true m = true ↔ m ∈ n :: g.ids.map (·.2)
  by_cases hm : m = n
  · simp [hm]
  · rw [update_of_ne hm, h.2 m]
    simp [hm]

/-- A reaped process gives its stack back. -/
theorem Slate.Good.reap (h : g.Good) {i : Int × Int} (hi : i ∈ g.ids) : (g.reap i).Good := by
  obtain ⟨l₁, l₂, e, hl⟩ : ∃ l₁ l₂, g.ids = l₁ ++ i :: l₂ ∧ g.ids.erase i = l₁ ++ l₂ := by
    obtain ⟨l₁, l₂, hnot, e, hl⟩ := exists_erase_eq hi
    exact ⟨l₁, l₂, e, hl⟩
  have hnd := h.1
  rw [e, map_append, map_cons, nodup_middle, nodup_cons] at hnd
  have hids : (g.reap i).ids.map (·.2) = l₁.map (·.2) ++ l₂.map (·.2) := by
    rw [Slate.reap, hl, map_append]
  refine ⟨by rw [hids]; exact hnd.2, fun m => ?_⟩
  rw [hids]
  show update g.bitmap i.2 false m = true ↔ _
  by_cases hm : m = i.2
  · subst hm
    simpa using hnd.1
  · rw [update_of_ne hm, h.2 m, e]
    simp [hm]

/-- A mark without a process. -/
theorem Slate.Good.not_mark (h : g.Good) {n : Int} (hn : g.bitmap n = false) :
    ¬ (g.mark n).Good := by
  intro hm
  have hin : n ∈ g.ids.map (·.2) := (hm.2 n).mp (by simp [mark])
  rw [(h.2 n).mpr hin] at hn
  cases hn

/-- A `fork` does not fail. -/
def SysCall.Clean (l : SysCall) : Prop :=
  match l.op with
  | .fork e => e.Succeeds
  | _ => True

/-- **The step lemma**: a call keeps the marks right exactly if it is clean. -/
theorem exec_slots (h : Shows g s) (hg : g.Ok) (hr : Running s) (hgood : g.Good) (l : SysCall) :
    Triple (· = s) l.op.exec fun _ s' => ∃ g' : Slate, g'.Ok ∧ Shows g' s' ∧
        (g'.Good ↔ l.Clean) := by
  have hreaps : ∀ s', Reaps g s' → ∃ g' : Slate, g'.Ok ∧ Shows g' s' ∧ g'.Good := by
    rintro s' (hs | ⟨i, hi, hs⟩)
    · exact ⟨g, hg, hs, hgood⟩
    · exact ⟨g.reap i, hg.reap i, hs, hgood.reap hi⟩
  obtain ⟨node, op⟩ := l
  cases op with
  | fork e =>
    refine (fork_shows h e).bind fun _ => .pure ?_
    rintro s' ⟨n, hn, ⟨hs, h'⟩ | ⟨hs, h'⟩⟩
    · exact ⟨g.add n, hg.add n, h', iff_of_true (hgood.add hn) hs⟩
    · exact ⟨g.mark n, hg.mark n, h', iff_of_false (hgood.not_mark hn) hs⟩
  | exit status =>
    exact (exit_stops h hg hr status).post fun _ _ => False.elim
  | wait addr e =>
    obtain ⟨b, p, -, -, hcpu⟩ := id hr
    refine .bind (at_myproc ?_) fun _ => .pure fun _ => id
    rw [hcpu]
    refine at_deref ((waitRound_shows h hg hr p addr e).post fun _ s' hs => ?_)
    obtain ⟨g', h1, h2, h3⟩ := hreaps s' hs
    exact ⟨g', h1, h2, iff_of_true h3 trivial⟩
  | resume p addr e =>
    refine (woken_shows h hg hr).bind fun _ => of_at fun s1 hs1 => ?_
    refine (waitRound_shows hs1.1 hg hs1.2 p addr e).bind fun _ => .pure fun s' hs => ?_
    obtain ⟨g', h1, h2, h3⟩ := hreaps s' hs
    exact ⟨g', h1, h2, iff_of_true h3 trivial⟩

theorem next_slots {l : SysCall} (h : Shows g s) (hg : g.Ok) (hgood : g.Good)
    (hn : sysCalls.next s l = some s') :
    ∃ g' : Slate, g'.Ok ∧ Shows g' s' ∧ (g'.Good ↔ l.Clean) := by
  simp only [sysCalls] at hn
  split at hn
  · rename_i hl
    split at hn
    · rename_i hx
      cases hn
      obtain ⟨p, hp, -⟩ := h.proc l.node hl
      have hs := h.setCpu (update s.cpuProc 0 (s.process l.node))
      exact exec_slots hs hg ⟨l.node, p, hl, hp, by simp [hp]⟩ hgood l _ _ _ rfl hx
    · cases hn
  · cases hn

theorem mem_sysStates (s : Kernel) (ls : List SysCall) : s ∈ sysCalls.states s ls := by
  cases ls <;> exact mem_cons_self

/-- A start: nodes and structs in use, distinct pids below `nextpid`, and the marks are right. -/
structure Start (s : Kernel) : Prop where
  node : ∀ a ∈ s.list, a < s.fresh
  proc : ∀ a ∈ s.list, ∃ p, s.process a = some p ∧ p < s.fresh
  inj : ∀ a ∈ s.list, ∀ b ∈ s.list, s.process a = s.process b → a = b
  pids : (s.list.map fun a => (s.proc a).pid).Nodup
  pos : 0 < s.nextpid
  range : ∀ a ∈ s.list, 0 < (s.proc a).pid ∧ (s.proc a).pid < s.nextpid
  slots : Slots s

theorem Start.shows (h : Start s) : ∃ g : Slate, g.Ok ∧ Shows g s := by
  refine ⟨⟨s.list.map fun a => key (s.proc a), s.bitmap, s.nextpid⟩, ⟨?_, h.pos, fun i hi => ?_⟩,
    h.node, h.proc, h.inj, rfl, rfl, rfl⟩
  · rw [map_map]
    exact h.pids
  · obtain ⟨a, ha, rfl⟩ := mem_map.mp hi
    exact h.range a ha

/-- **When the kernel stacks are right.** In a run of calls of `fork`, `exit` and `wait`, in every
state between two calls the live processes have distinct stacks and exactly these are marked,
exactly if no `fork` fails. -/
theorem slots_iff {ls : List SysCall} (h : Start s) (hr : sysCalls.run s ls = some s') :
    (∀ x ∈ sysCalls.states s ls, Slots x) ↔ sysCalls.Meets (fun _ l => l.Clean) s ls := by
  obtain ⟨g, hg, hs⟩ := h.shows
  have hgood : g.Good := (hs.slots_good hg).mp h.slots
  clear h
  induction ls generalizing s g with
  | nil => simpa [Machine.states, Machine.Meets] using (hs.slots_good hg).mpr hgood
  | cons l ls ih =>
    obtain ⟨s₁, hn, hr⟩ := Machine.run_cons.mp hr
    have hst : sysCalls.states s (l :: ls) = s :: sysCalls.states s₁ ls := by
      simp [Machine.states, hn]
    rw [hst, forall_mem_cons, Machine.meets_cons hn]
    obtain ⟨g₁, hg₁, hs₁, hc⟩ := next_slots hs hg hgood hn
    have hslots : Slots s := (hs.slots_good hg).mpr hgood
    constructor
    · rintro ⟨-, hall⟩
      -- the state after the call tells whether it was clean
      have hgood₁ : g₁.Good := (hs₁.slots_good hg₁).mp (hall s₁ (mem_sysStates s₁ ls))
      exact ⟨hc.mp hgood₁, (ih hr g₁ hg₁ hs₁ hgood₁).mp hall⟩
    · rintro ⟨hl, hm⟩
      exact ⟨hslots, (ih hr g₁ hg₁ hs₁ (hc.mpr hl)).mpr hm⟩

end

/-- `init` forks and waits for its child. -/
def waitRun : List SysCall :=
  [⟨0, .fork { kalloc := some 10, procPagetable := some 11 }⟩,
    ⟨0, .wait 0 { kalloc := none, procPagetable := none }⟩]

theorem initial_start : Start initial where
  node := by decide
  proc := by
    intro a ha
    obtain rfl := mem_singleton.mp ha
    exact ⟨1, rfl, by decide⟩
  inj := by decide
  pids := by decide
  pos := by decide
  range := by decide
  slots := by
    refine ⟨by decide, fun n => ?_⟩
    simp [initial, Kernel.proc, eq_comm]

theorem slots_iff_waitRun : ∃ s, sysCalls.run initial waitRun = some s ∧ s.list = [3, 4] ∧
    ∀ x ∈ sysCalls.states initial waitRun, Slots x := by
  have h : (sysCalls.run initial waitRun).map (·.list) = some [3, 4] := by decide +kernel
  obtain ⟨s, hs, hl⟩ := Option.map_eq_some_iff.mp h
  refine ⟨s, hs, hl, (slots_iff initial_start hs).mpr ⟨⟨rfl, rfl, rfl⟩, fun s₁ h₁ => ⟨trivial, ?_⟩⟩⟩
  exact fun _ _ => trivial

end Xv6.Seq
