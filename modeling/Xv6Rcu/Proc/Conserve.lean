import Xv6Rcu.Proc.Seq

/-!
# The blocks of the processes

Between two calls, the heap should have exactly one `t_node` and one `struct proc` for each node of
`process_list`, and whatever was taken off the list should have been passed to `knfree` once
(`Conserved`).

- **The defect** (`yield_leaks`): `freeproc` clears the `struct proc` but does not pass it to
  `knfree`, and no caller does. Every call that replaces or removes a node loses one block. Besides,
  `growproc` and `yield` lose the new pair where they fail, `fork` loses the child where `uvmcopy`
  fails, and `kill` makes a node without a `struct proc`.
- **What holds** (`conserved_iff`): a run keeps `Conserved` exactly if each of its calls finds
  nothing to replace or remove and no `fork` fails in `uvmcopy` (`Op.Clean`).
-/

namespace Xv6.Seq

open Lib Function List

/-! ## The calls -/

/-- The calls, with the CPU that makes them. -/
inductive Op where
  | fork (c : CpuId) (e : Env)
  | growproc (c : CpuId) (n : Int) (e : Env)
  | exit (c : CpuId) (status : Int)
  | wait (c : CpuId) (addr : Nat) (e : Env)
  /-- A later round of `wait`, with the pointer that it fetched when it was called. -/
  | waitRound (c : CpuId) (p : Addr) (addr : Nat) (e : Env)
  | yield (c : CpuId)
  | sleep (c : CpuId) (chan : Chan)
  | woken (c : CpuId)
  | wakeup (c : CpuId) (chan : Chan)
  | kill (pid : Int)
  | reparent (c : CpuId) (p : Addr)
  | schedule (c : CpuId) (a : Addr)
  | descheduled (c : CpuId)

def Op.exec : Op → KernelM Unit
  | .fork c e => do let _ ← Seq.fork c e
  | .growproc c n e => do let _ ← Seq.growproc c n e
  | .exit c status => Seq.exit c status
  | .wait c addr e => do let _ ← Seq.wait c addr e
  | .waitRound c p addr e => do let _ ← Seq.waitRound c p addr e
  | .yield c => Seq.yield c
  | .sleep c chan => Seq.sleep c chan
  | .woken c => Seq.woken c
  | .wakeup c chan => Seq.wakeup c chan
  | .kill pid => do let _ ← Seq.kill pid
  | .reparent c p => Seq.reparent c p
  | .schedule c a => Seq.schedule c a
  | .descheduled c => Seq.descheduled c

/-- One call after another. -/
def calls : Machine Kernel Op where
  next s op :=
    match op.exec s with
    | .ok _ s' => some s'
    | .error _ _ => none

/-! ## The property and the defect -/

/-- One node and one `struct proc` for each node of the list, and what was unlinked was freed once.
-/
structure Conserved (s : Kernel) : Prop where
  live : ∃ ps, s.list.map s.process = ps.map some ∧ s.live.Perm (s.list ++ ps)
  nodup : s.live.Nodup
  returned : ∀ a p, (a, p) ∈ s.unlinked → s.freed.count a = 1 ∧ ∃ q, p = some q ∧
      s.freed.count q = 1

/-- One process, which runs on CPU 0. -/
def single : Kernel where
  list := [0]
  process := fun a => if a = 0 then some 1 else none
  procs := fun p => if p = 1 then { pid := 1, state := .running } else {}
  cpuProc := fun c => if c = 0 then some 1 else none
  nextpid := 2
  uniqueId := 1
  bitmap := fun n => n = 0
  fresh := 2
  live := [0, 1]

theorem yield_leaks : ∃ s, calls.next single (.yield 0) = some s ∧ s.list = [2] ∧
    s.live = [3, 2, 1] ∧ s.freed = [0] ∧ ¬ Conserved s := by
  have h : (calls.next single (.yield 0)).map (fun s => decide (s.list = [2] ∧
      s.live = [3, 2, 1] ∧ s.freed = [0] ∧ s.unlinked = [(0, some 1)])) = some true := by
    decide +kernel
  obtain ⟨s, hs, h⟩ := Option.map_eq_some_iff.mp h
  obtain ⟨hl, hlive, hf, hu⟩ := of_decide_eq_true h
  refine ⟨s, hs, hl, hlive, hf, fun hc => ?_⟩
  obtain ⟨-, q, e, hq⟩ := hc.returned 0 (some 1) (by simp [hu])
  cases e
  rw [hf] at hq
  cases hq

/-! ## What no call can repair -/

section
variable {s s' : Kernel} {p q a new old : Addr} {c : CpuId} {chan : Chan} {l : List Addr} {k : Nat}

/-- The block `p` was the `struct proc` of a node that is off the list, and nothing can free it. -/
structure Stuck (p : Addr) (s : Kernel) : Prop where
  lt : p < s.fresh
  list : p ∉ s.list
  freed : p ∉ s.freed
  toFree : ∀ c, s.toFree c ≠ some p
  unlinked : ∃ a, (a, some p) ∈ s.unlinked

theorem Stuck.not_conserved (h : Stuck p s) : ¬ Conserved s := by
  intro hc
  obtain ⟨a, ha⟩ := h.unlinked
  obtain ⟨-, q, e, hq⟩ := hc.returned a (some p) ha
  cases e
  rw [count_eq_zero.mpr h.freed] at hq
  cases hq

theorem knmalloc_stuck : Triple (Stuck p) knmalloc fun a s => Stuck p s ∧ a ≠ p :=
  .modifyGet fun _ h => ⟨⟨Nat.lt_succ_of_lt h.lt, h.list, h.freed, h.toFree, h.unlinked⟩,
    symm (ne_of_lt h.lt)⟩

theorem knfree_stuck (ha : a ≠ p) : Triple (Stuck p) (knfree a) fun _ => Stuck p :=
  .modify fun _ h => ⟨h.lt, h.list, by simpa [symm ha] using h.freed, h.toFree, h.unlinked⟩

/-- A change of the structs, the `process` fields, the CPUs or the log. -/
theorem modify_stuck {f : Kernel → Kernel}
    (hf : ∀ s, (f s).fresh = s.fresh ∧ (f s).list = s.list ∧ (f s).freed = s.freed ∧
      (f s).toFree = s.toFree ∧ (f s).unlinked = s.unlinked) :
    Triple (Stuck p) (modify f : KernelM Unit) fun _ => Stuck p := by
  refine .modify fun s h => ?_
  obtain ⟨h1, h2, h3, h4, h5⟩ := hf s
  exact ⟨h1 ▸ h.lt, h2 ▸ h.list, h3 ▸ h.freed, h4 ▸ h.toFree, h5 ▸ h.unlinked⟩

/-! ### The stuck block stays -/

theorem store_stuck (q : Addr) (v : Proc) : Triple (Stuck p) (store q v) fun _ => Stuck p :=
  modify_stuck fun _ => ⟨rfl, rfl, rfl, rfl, rfl⟩

theorem modifyProc_stuck (q : Addr) (f : Proc → Proc) :
    Triple (Stuck p) (modifyProc q f) fun _ => Stuck p :=
  .bind (load_reads q).left fun _ => store_stuck q _

theorem call_stuck (x : Call) : Triple (Stuck p) (call x) fun _ => Stuck p :=
  modify_stuck fun _ => ⟨rfl, rfl, rfl, rfl, rfl⟩

theorem setCpuProc_stuck (c : CpuId) (q : Ptr) : Triple (Stuck p) (setCpuProc c q)
    fun _ => Stuck p :=
  modify_stuck fun _ => ⟨rfl, rfl, rfl, rfl, rfl⟩

theorem newNode_stuck (v : Proc) : Triple (Stuck p) (newNode v) fun r s => Stuck p s ∧ r.1 ≠ p := by
  refine knmalloc_stuck.bind fun new => .assuming fun hn => knmalloc_stuck.bind fun q =>
    .assuming fun _ => .bind (modify_stuck fun _ => ⟨rfl, rfl, rfl, rfl, rfl⟩) fun _ =>
    (store_stuck q v).bind fun _ => .pure fun s hs => ⟨hs, hn⟩

theorem mem_replace {x : Addr} (h : x ∈ l.replace old new) : x = new ∨ x ∈ l := by
  induction l with
  | nil => cases h
  | cons b l ih =>
    rw [replace_cons] at h
    split at h
    · exact (mem_cons.mp h).imp_right (mem_cons_of_mem _)
    · rcases mem_cons.mp h with rfl | h
      · exact .inr mem_cons_self
      · exact (ih h).imp_right (mem_cons_of_mem _)

theorem unlink_stuck (hl : p ∉ l) : Triple (Stuck p) (unlink old l) fun _ => Stuck p := by
  refine .modify fun s h => ⟨h.lt, hl, h.freed, h.toFree, ?_⟩
  obtain ⟨a, ha⟩ := h.unlinked
  exact ⟨a, mem_cons_of_mem _ ha⟩

theorem listUpdateRcu_stuck (hn : new ≠ p) (q : Addr) :
    Triple (Stuck p) (listUpdateRcu new q) fun r s => Stuck p s ∧ ∀ a ∈ r, a ≠ p := by
  refine .get fun s hs => .ite (fun _ => .throw_bind) fun _ => ?_
  refine ((findPid_reads (P := Stuck p) _ s.list).mono ?_ fun _ _ => id).bind fun r => ?_
  · rintro _ rfl
    exact hs
  · refine .assuming fun hr => ?_
    cases r with
    | none => exact .pure fun s hs => ⟨hs, by simp⟩
    | some old =>
      refine (unlink_stuck fun hp => ?_).bind fun _ => .pure fun s' hs' => ⟨hs', ?_⟩
      · exact (mem_replace hp).elim (fun e => hn e.symm) hs.list
      · rintro a ⟨⟩ rfl
        exact hs.list (hr _ rfl)

theorem freeproc_stuck (q : Addr) (flag : Bool) :
    Triple (Stuck p) (freeproc q flag) fun _ => Stuck p := by
  have hmod : ∀ n : Int, Triple (Stuck p) (do
      modify fun s => { s with bitmap := update s.bitmap n false }
      store q {}) fun _ => Stuck p := fun n =>
    .bind (modify_stuck fun _ => ⟨rfl, rfl, rfl, rfl, rfl⟩) fun _ => store_stuck q _
  refine .bind (load_reads q).left fun v => .ite (fun _ => ?_) fun _ =>
    store_stuck q _
  refine .ite (fun _ => (call_stuck _).bind fun _ => ?_) fun _ => ?_
  all_goals exact .ite (fun _ => (call_stuck _).bind fun _ => hmod _) fun _ => hmod _

theorem reclaim_stuck (ho : old ≠ p) : Triple (Stuck p) (reclaim old) fun _ => Stuck p :=
  .bind (processOf_reads old).left fun _ => .bind (freeproc_stuck _ _) fun _ =>
    knfree_stuck ho

/-- The replacement of a node, whose copy is in `new`. -/
theorem replace_stuck {β : Type} (hn : new ≠ p) (q : Addr) {e : Stop} {f : KernelM β}
    {R : β → Kernel → Prop} (hf : Triple (Stuck p) f R) :
    Triple (Stuck p) (do
      let some old ← listUpdateRcu new q
        | throw e
      reclaim old
      f) R := by
  refine (listUpdateRcu_stuck hn q).bind fun r => .assuming fun hr => ?_
  cases r with
  | none => exact .throw
  | some old => exact .bind (reclaim_stuck (hr old rfl)) fun _ => hf

theorem wakeupFrom_stuck (c : CpuId) (chan : Chan) (fuel : Nat) (cur : Ptr) :
    Triple (Stuck p) (wakeupFrom c chan fuel cur) fun _ => Stuck p := by
  induction fuel generalizing cur with
  | zero =>
    cases cur with
    | none => exact .pure fun _ => id
    | some a => exact .throw
  | succ fuel ih =>
    cases cur with
    | none => exact .pure fun _ => id
    | some a =>
      refine .bind (processOf_reads a).left fun q =>
        .bind (load_reads q).left fun v =>
        .bind (myproc_reads c).left fun r => ?_
      have hnext : Triple (Stuck p) (do wakeupFrom c chan fuel ((← get).next a)) fun _ => Stuck p :=
        .get fun s hs => (ih _).mono (by rintro _ rfl; exact hs) fun _ _ => id
      refine .ite (fun _ => ?_) fun _ => hnext
      exact (newNode_stuck _).bind fun r => .assuming fun hn => replace_stuck hn q hnext

theorem wakeup_stuck (c : CpuId) (chan : Chan) :
    Triple (Stuck p) (wakeup c chan) fun _ => Stuck p :=
  .get fun s hs => (wakeupFrom_stuck c chan _ _).mono (by rintro _ rfl; exact hs) fun _ _ => id

theorem reparentFrom_stuck (c : CpuId) (q : Addr) (fuel : Nat) (toFree cur : Ptr)
    (ht : ∀ a ∈ toFree, a ≠ p) :
    Triple (Stuck p) (reparentFrom c q fuel toFree cur) fun _ => Stuck p := by
  induction fuel generalizing toFree cur with
  | zero =>
    cases cur with
    | none => exact .pure fun _ => id
    | some a => exact .throw
  | succ fuel ih =>
    cases cur with
    | none => exact .pure fun _ => id
    | some a =>
      refine .bind (processOf_reads a).left fun r =>
        .bind (load_reads r).left fun v =>
        .bind (load_reads q).left fun w => ?_
      have hnext : ∀ o : Ptr, (∀ b ∈ o, b ≠ p) → Triple (Stuck p)
          (do reparentFrom c q fuel o ((← get).next a)) fun _ => Stuck p := fun o ho =>
        .get fun s hs => (ih o _ ho).mono (by rintro _ rfl; exact hs) fun _ _ => id
      refine .ite (fun _ => .get fun s hs => ?_) fun _ => hnext toFree ht
      refine .bind ((newNode_stuck _).mono (by rintro _ rfl; exact hs) fun _ _ => id) fun r =>
        .assuming fun hn => (listUpdateRcu_stuck hn q).bind fun o => .assuming fun ho => ?_
      have hor : ∀ b ∈ o.or toFree, b ≠ p := by
        cases o with
        | none => exact ht
        | some old => exact ho
      cases hx : o.or toFree with
      | none => exact .throw
      | some old =>
        rw [hx] at hor
        exact .bind (reclaim_stuck (hor old rfl)) fun _ => .bind (load_reads q).left fun _ =>
          .bind (wakeup_stuck c _) fun _ => hnext _ hor

theorem reparent_stuck (c : CpuId) (q : Addr) : Triple (Stuck p) (reparent c q) fun _ => Stuck p :=
  .get fun s hs => (reparentFrom_stuck c q _ none _ nofun).mono (by rintro _ rfl; exact hs)
    fun _ _ => id

/-! ## The first loss -/

/-- `k` blocks are in use that no listed node needs. -/
def Surplus (k : Nat) (s : Kernel) : Prop := s.live.length = 2 * s.list.length + k

/-- Every listed node has a `struct proc` of its own. -/
structure Fit (k : Nat) (s : Kernel) : Prop where
  surplus : Surplus k s
  node : ∀ a ∈ s.list, a < s.fresh
  proc : ∀ a ∈ s.list, ∃ p, s.process a = some p ∧ p < s.fresh ∧ p ∉ s.list ∧ p ∉ s.freed ∧
    ∀ c, s.toFree c ≠ some p

/-- The block `new` is in use and is not yet on the list. -/
structure Ready (new k : Nat) (s : Kernel) : Prop extends Fit k s where
  unlisted : new ∉ s.list
  other : ∀ a ∈ s.list, s.process a ≠ some new

/-- A block is lost. -/
def Broken (s : Kernel) : Prop := (∃ p, Stuck p s) ∨ ∃ k, Surplus (k + 1) s

theorem Broken.not_conserved (h : Broken s) : ¬ Conserved s := by
  rcases h with ⟨p, h⟩ | ⟨k, h⟩
  · exact h.not_conserved
  · intro hc
    obtain ⟨ps, he, hp⟩ := hc.live
    have h1 := congrArg length he
    have h2 := hp.length_eq
    simp only [Surplus, length_map, length_append] at h h1 h2
    omega

theorem knmalloc_ready : Triple (Fit k) knmalloc fun new => Ready new (k + 1) := by
  refine .modifyGet fun s h => ⟨⟨?_, fun a ha => Nat.lt_succ_of_lt (h.node a ha), fun a ha => ?_⟩,
    fun hm => lt_irrefl _ (h.node _ hm), fun a ha e => ?_⟩
  · have := h.surplus
    simp only [Surplus, length_cons] at this ⊢
    omega
  · obtain ⟨p, hp, hlt, hr⟩ := h.proc a ha
    exact ⟨p, hp, Nat.lt_succ_of_lt hlt, hr⟩
  · obtain ⟨p, hp, hlt, -⟩ := h.proc a ha
    cases hp.symm.trans e
    exact lt_irrefl _ hlt

theorem knmalloc_again : Triple (Ready new k) knmalloc fun _ => Ready new (k + 1) := by
  have h : Triple (Ready new k) knmalloc fun _ => Fit (k + 1) :=
    knmalloc_ready.mono (fun _ h => h.toFit) fun _ _ h => h.toFit
  have h' : Triple (Ready new k) knmalloc fun _ s =>
      new ∉ s.list ∧ ∀ a ∈ s.list, s.process a ≠ some new :=
    .modifyGet fun _ h => ⟨h.unlisted, h.other⟩
  exact (h.and h').post fun _ _ h => ⟨h.1, h.2.1, h.2.2⟩

/-- A change of the structs, the CPUs, the log or the `process` field of the new node. -/
theorem modify_ready {f : Kernel → Kernel}
    (hf : ∀ s, (f s).live = s.live ∧ (f s).list = s.list ∧ (f s).fresh = s.fresh ∧
      (f s).freed = s.freed ∧ (f s).toFree = s.toFree ∧ ∀ a ≠ new, (f s).process a = s.process a) :
    Triple (Ready new k) (modify f : KernelM Unit) fun _ => Ready new k := by
  refine .modify fun s h => ?_
  obtain ⟨h1, h2, h3, h4, h5, h6⟩ := hf s
  have hp : ∀ a ∈ s.list, (f s).process a = s.process a := fun a ha =>
    h6 a fun e => h.unlisted (e ▸ ha)
  refine ⟨⟨?_, ?_, ?_⟩, h2 ▸ h.unlisted, ?_⟩
  · rw [Surplus, h1, h2]
    exact h.surplus
  · rw [h2, h3]
    exact h.node
  · rw [h2, h3, h4, h5]
    intro a ha
    rw [hp a ha]
    exact h.proc a ha
  · rw [h2]
    intro a ha
    rw [hp a ha]
    exact h.other a ha

theorem store_ready (q : Addr) (v : Proc) : Triple (Ready new k) (store q v) fun _ => Ready new k :=
  modify_ready fun _ => ⟨rfl, rfl, rfl, rfl, rfl, fun _ _ => rfl⟩

theorem modifyProc_ready (q : Addr) (f : Proc → Proc) :
    Triple (Ready new k) (modifyProc q f) fun _ => Ready new k :=
  .bind (load_reads q).left fun _ => store_ready q _

theorem newNode_ready (v : Proc) : Triple (Fit 0) (newNode v) fun r => Ready r.1 2 := by
  refine knmalloc_ready.bind fun new => knmalloc_again.bind fun q => .bind (modify_ready fun s =>
    ⟨rfl, rfl, rfl, rfl, rfl, fun a ha => ?_⟩) fun _ => (store_ready q v).bind fun _ =>
    .pure fun s hs => hs
  exact update_of_ne ha ..

/-- The node that `list_update_rcu` displaces had a `struct proc` that is now stuck. -/
theorem listUpdateRcu_ready (q : Addr) :
    Triple (Ready new k) (listUpdateRcu new q) fun
      | none => Surplus k
      | some old => fun s => ∃ p, Stuck p s ∧ old ≠ p := by
  refine .get fun s hs => .ite (fun _ => .throw_bind) fun _ => ?_
  refine (findPid_reads _ s.list).bind fun r => .assuming fun hr => ?_
  cases r with
  | none =>
    refine .pure ?_
    rintro _ rfl
    exact hs.surplus
  | some old =>
    have ho : old ∈ s.list := hr old rfl
    obtain ⟨p, hp, hlt, hl, hf, ht⟩ := hs.proc old ho
    refine .bind (.modify ?_) fun _ => .pure fun _ => id
    rintro _ rfl
    refine ⟨p, ⟨hlt, fun hm => ?_, hf, ht, old, by simp [hp]⟩, fun e => hl (e ▸ ho)⟩
    exact (mem_replace hm).elim (fun e => hs.other old ho (e ▸ hp)) hl

/-- The replacement of a node loses the old `struct proc`. -/
theorem replace_broken {β : Type} (q : Addr) {e : Stop} {f : KernelM β} {R : β → Kernel → Prop}
    (hf : ∀ p, Triple (Stuck p) f R) :
    Triple (Ready new k) (do
      let some old ← listUpdateRcu new q
        | throw e
      reclaim old
      f) R := by
  refine (listUpdateRcu_ready q).bind fun r => ?_
  cases r with
  | none => exact .throw
  | some old =>
    exact .exists_pre fun p => .assuming fun ho => .bind (reclaim_stuck ho) fun _ => hf p

theorem broken_of_stuck {m : KernelM Unit} (h : Triple (Stuck p) m fun _ => Stuck p) :
    Triple (Stuck p) m fun _ => Broken := h.post fun _ _ h => .inl ⟨p, h⟩

/-! ## The calls that always replace a node -/

theorem growproc_broken (c : CpuId) (n : Int) (e : Env) :
    Triple (Fit 0) (growproc c n e) fun _ => Broken := by
  refine .bind (myproc_reads c).left fun q =>
    .bind (deref_reads q).left fun p =>
    .bind (load_reads p).left fun v => (newNode_ready v).bind fun r => ?_
  refine .ite (fun _ => .pure fun s hs => .inr ⟨1, hs.surplus⟩) fun _ =>
    (modifyProc_ready _ _).bind fun _ => replace_broken p fun x => ?_
  exact .bind (setCpuProc_stuck c _) fun _ => .pure fun s hs => .inl ⟨x, hs⟩

theorem sleep_broken (c : CpuId) (chan : Chan) : Triple (Fit 0) (sleep c chan) fun _ => Broken := by
  refine .bind (myproc_reads c).left fun q =>
    .bind (deref_reads q).left fun p =>
    .bind (load_reads p).left fun v => (newNode_ready _).bind fun r => ?_
  exact replace_broken p fun x => broken_of_stuck (setCpuProc_stuck c _)

theorem woken_broken (c : CpuId) : Triple (Fit 0) (woken c) fun _ => Broken := by
  refine .bind (myproc_reads c).left fun q =>
    .bind (deref_reads q).left fun p =>
    .bind (load_reads p).left fun v => (newNode_ready _).bind fun r => ?_
  exact replace_broken p fun x => broken_of_stuck (setCpuProc_stuck c _)

theorem yield_broken (c : CpuId) : Triple (Fit 0) (yield c) fun _ => Broken := by
  refine .bind (myproc_reads c).left fun q =>
    .bind (deref_reads q).left fun p =>
    .bind (load_reads p).left fun v => (newNode_ready _).bind fun r =>
    (listUpdateRcu_ready p).bind fun o => ?_
  cases o with
  | none => exact .pure fun s hs => .inr ⟨1, hs⟩
  | some old =>
    exact .exists_pre fun x => .assuming fun ho => .bind (setCpuProc_stuck c _) fun _ =>
      broken_of_stuck (reclaim_stuck ho)

theorem closeFile_stuck (p : Addr) :
    Triple (Fit 0) (closeFile p) fun _ s => ∃ x, Stuck x s := by
  refine .bind (load_reads p).left fun v => (newNode_ready v).bind fun r => ?_
  refine .bind (.forIn fun f _ => .bind (modify_ready fun _ =>
    ⟨rfl, rfl, rfl, rfl, rfl, fun _ _ => rfl⟩) fun _ => .pure fun _ => id) fun _ =>
    (modifyProc_ready _ _).bind fun _ => replace_broken p fun x => ?_
  exact .pure fun s hs => ⟨x, hs⟩

theorem exit_broken (c : CpuId) (status : Int) : Triple (Fit 0) (exit c status)
    fun _ => Broken := by
  refine .bind (myproc_reads c).left fun q =>
    .bind (deref_reads q).left fun p => ?_
  refine .get fun s hs => .ite (fun _ => .throw_bind) fun _ => ?_
  refine .bind ((closeFile_stuck p).mono (by rintro _ rfl; exact hs) fun _ _ => id) fun np =>
    .exists_pre fun x => ?_
  -- from here on the block that `closeFile` has lost stays lost
  refine (setCpuProc_stuck c _).bind fun _ => .bind (load_reads p).left fun v =>
    .bind (deref_reads _).left fun ip => (call_stuck _).bind fun _ =>
    (modifyProc_stuck p _).bind fun _ => (reparent_stuck c p).bind fun _ => ?_
  refine .bind (myproc_reads c).left fun q =>
    .bind (deref_reads q).left fun p =>
    .bind (load_reads p).left fun v => (wakeup_stuck c _).bind fun _ => ?_
  refine .bind (myproc_reads c).left fun q =>
    .bind (deref_reads q).left fun p =>
    .bind (load_reads p).left fun v => (newNode_stuck _).bind fun r =>
    .assuming fun hr => (listUpdateRcu_stuck hr p).bind fun o => .assuming fun ho => ?_
  cases o with
  | none => exact .throw
  | some old =>
    exact (setCpuProc_stuck c _).bind fun _ => broken_of_stuck (reclaim_stuck (ho old rfl))

/-! ## The calls that look for a node -/

/-- The process of the node `a` is asleep on `chan`, and is not the current one of the CPU `c`. -/
def sleeper (s : Kernel) (c : CpuId) (chan : Chan) (a : Addr) : Bool :=
  match s.process a with
  | some p => some p ≠ s.cpuProc c ∧ (s.procs p).state = .sleeping ∧ (s.procs p).chan = chan
  | none => false

/-- The process of the node `a` has the pid `k`. -/
def bears (s : Kernel) (k : Int) (a : Addr) : Bool :=
  match s.process a with
  | some p => (s.procs p).pid = k
  | none => false

/-- What a traversal finds in the nodes `l` that are ahead: nothing, and then it changes nothing; or
a node in `f`, and then it loses a block. -/
def Outcome (f : Addr → Bool) (s : Kernel) (l : List Addr) (s' : Kernel) : Prop :=
  (∀ a ∈ l, f a = false) ∧ s' = s ∨ (∃ a ∈ l, f a = true) ∧ Broken s'

theorem Outcome.cons {f : Addr → Bool} (h : Outcome f s l s') (ha : f a = false) :
    Outcome f s (a :: l) s' := by
  rcases h with ⟨h, e⟩ | ⟨⟨b, hb, e⟩, h⟩
  · exact .inl ⟨by simpa [ha] using h, e⟩
  · exact .inr ⟨⟨b, mem_cons_of_mem _ hb, e⟩, h⟩

theorem Outcome.found {f : Addr → Bool} (ha : f a = true) (h : Broken s') :
    Outcome f s (a :: l) s' := .inr ⟨⟨a, mem_cons_self, ha⟩, h⟩

section
variable (hnd : s.list.Nodup) (hfit : Fit 0 s)
include hnd hfit

theorem wakeup_outcome (c : CpuId) (chan : Chan) :
    Triple (· = s) (wakeup c chan) fun _ => Outcome (sleeper s c chan) s s.list := by
  refine at_get (at_walk (Q := fun l _ => Outcome (sleeper s c chan) s l) hnd
    (wakeupFrom.eq_1 c chan) (wakeupFrom.eq_2 c chan) (.inl ⟨by simp, rfl⟩)
    (fun fuel a l _ ih => ?_) _)
  refine at_processOf fun p hp => at_load (at_myproc (.ite (fun hc => ?_) fun hc => ?_))
  · refine .bind (at_start (newNode_ready _) hfit) fun r => replace_broken p fun x =>
      .post (broken_of_stuck ?_) fun _ _ h => .found (by simpa [sleeper, hp] using hc) h
    exact .get fun s' hs' => at_start (wakeupFrom_stuck c chan fuel _) hs'
  · exact ih.post fun _ _ h => h.cons (by simpa [sleeper, hp] using hc)

theorem kill_outcome (k : Int) : Triple (· = s) (kill k) fun _ => Outcome (bears s k) s s.list := by
  refine at_get (at_walk (Q := fun l _ => Outcome (bears s k) s l) hnd
    (killFrom.eq_1 k) (killFrom.eq_2 k) (.inl ⟨by simp, rfl⟩)
    (fun fuel a l _ ih => ?_) _)
  refine at_processOf fun p hp => at_load (.ite (fun hc => ?_) fun hc => ?_)
  · refine .bind (at_start knmalloc_ready hfit) fun new =>
      .bind (processOf_reads new).left fun np =>
      .bind (load_reads p).left fun v => (store_ready np _).bind fun _ =>
      replace_broken p fun x => .pure fun s' hs' => ?_
    exact .found (by simpa [bears, hp] using hc) (.inl ⟨x, hs'⟩)
  · exact ih.post fun _ _ h => h.cons (by simpa [bears, hp] using hc)

theorem reparent_outcome (c : CpuId) (p : Addr) :
    Triple (· = s) (reparent c p) fun _ => Outcome (child s p) s s.list := by
  refine at_get (at_walk (Q := fun l _ => Outcome (child s p) s l) hnd
    (reparentFrom.eq_1 c p · none) (reparentFrom.eq_2 c p none) (.inl ⟨by simp, rfl⟩)
    (fun fuel a l _ ih => ?_) _)
  refine at_processOf fun q hq => at_load (at_load (.ite (fun hc => ?_) fun hc => ?_))
  · refine at_get (.bind (at_start (newNode_ready _) hfit) fun r =>
      (listUpdateRcu_ready p).bind fun o => ?_)
    cases o with
    | none => exact .throw
    | some old =>
      refine .exists_pre fun x => .assuming fun ho =>
        .post (broken_of_stuck (.bind (reclaim_stuck ho) fun _ =>
          .bind (load_reads p).left fun _ => (wakeup_stuck c _).bind fun _ => ?_))
        fun _ _ h => .found (by simpa [child, hq] using hc) h
      refine .get fun s' hs' => at_start (reparentFrom_stuck c p fuel (some old) _ ?_) hs'
      rintro _ ⟨⟩
      exact ho
  · exact ih.post fun _ _ h => h.cons (by simpa [child, hq] using hc)

end

/-- `scheduler` at the node `a`. -/
theorem schedule_outcome (hfit : Fit 0 s) (c : CpuId) (a : Addr) :
    Triple (· = s) (schedule c a) fun _ => Outcome 
      (fun a => c = 0 && inState s .runnable a) s [a] := by
  refine .ite (fun hc => .pure fun s' e => .inl ⟨by simp [hc], e⟩) fun hc => ?_
  refine at_processOf fun p hp => at_load (.ite (fun hr => ?_) fun hr => .pure fun s' e => ?_)
  · refine .bind (at_start (newNode_ready _) hfit) fun r => (listUpdateRcu_ready p).bind fun o => ?_
    cases o with
    | none => exact .throw
    | some old =>
      refine .exists_pre fun x => .assuming fun ho => (setCpuProc_stuck c _).bind fun _ =>
        .modify fun s' h => .found (by simpa [inState, hp] using ⟨not_not.mp hc, hr⟩) (.inl ⟨x, ?_⟩)
      refine ⟨h.lt, h.list, h.freed, fun c' e => ?_, h.unlinked⟩
      simp only [update_apply] at e
      split at e
      · cases e
        exact ho rfl
      · exact h.toFree c' e
  · exact .inl ⟨by simp [inState, hp, hr], e⟩

/-! ## `wait` -/

/-- A round of `wait` with `p` returns -1. -/
def waitFails (s : Kernel) (p : Addr) : Bool :=
  !s.list.any (fun a => child s p a && inState s .zombie a) &&
    (!s.list.any (child s p) || (s.procs p).killed ≠ 0)

theorem listDelRcu_stuck (hfit : Fit 0 s) (ha : a ∈ s.list) (hp : s.process a = some p) :
    Triple (· = s) (listDelRcu a) fun _ s' => Stuck p s' ∧ a ≠ p := by
  obtain ⟨q, hq, hlt, hl, hf, ht⟩ := hfit.proc a ha
  obtain rfl : q = p := Option.some.inj (hq.symm.trans hp)
  refine at_get (.ite (fun _ => .throw_bind) fun _ => .ite (fun _ => .modify ?_)
      fun h => (h ha).elim)
  rintro _ rfl
  exact ⟨⟨hlt, fun hm => hl (mem_of_mem_erase hm), hf, ht, a, by simp [hp]⟩, 
    fun e => hl (e ▸ ha)⟩

theorem waitRound_outcome (hnd : s.list.Nodup) (hfit : Fit 0 s) (c : CpuId) (p : Addr) (addr : Nat)
    (e : Env) : Triple (· = s) (waitRound c p addr e) fun _ s' =>
      waitFails s p = true ∧ s' = s ∨ waitFails s p = false ∧ Broken s' := by
  refine at_get ((waitFrom_finds hnd p _ false [] s.list rfl).bind fun r => ?_)
  obtain ⟨kids, z⟩ := r
  cases z with
  | some a =>
    refine .assuming fun hz => at_processOf fun q hq => at_load
        (.ite (fun _ => .throw_bind) fun _ => ?_)
    refine (listDelRcu_stuck hfit hz.1 hq).bind fun _ => .assuming fun ha =>
      (freeproc_stuck q true).bind fun _ => (knfree_stuck ha).bind fun _ => .pure fun s' hs' => ?_
    have hany : s.list.any (fun a => child s p a && inState s .zombie a) = true :=
      any_eq_true.mpr ⟨a, hz.1, by simp [hz.2]⟩
    exact .inr ⟨by simp [waitFails, hany], .inl ⟨q, hs'⟩⟩
  | none =>
    refine .assuming fun hz => at_load ?_
    have hany : s.list.any (fun a => child s p a && inState s .zombie a) = false := by
      simpa using hz.1
    have hkids : kids = s.list.any (child s p) := by simpa using hz.2
    subst hkids
    refine .ite (fun hc => .pure fun s' e => .inl ⟨?_, e⟩) fun hc => ?_
    · simpa [waitFails, hany] using hc
    · refine .bind (at_start (sleep_broken c _) hfit) fun _ => .pure fun s' hs' => .inr ⟨?_, hs'⟩
      simpa [waitFails, hany] using hc

theorem descheduled_stops (ht : s.toFree c = none) {Q : Unit → Kernel → Prop} :
    Triple (· = s) (descheduled c) Q := by
  refine at_get ?_
  rw [ht]
  exact .throw_bind

/-! ## `fork` -/

/-- The part of the state that tells which block is where. -/
structure Blocks where
  list : List Addr
  process : Addr → Ptr
  toFree : CpuId → Ptr
  unlinked : List (Addr × Ptr)
  freed : List Addr
  live : List Addr
  fresh : Addr

def Kernel.blocks (s : Kernel) : Blocks :=
  ⟨s.list, s.process, s.toFree, s.unlinked, s.freed, s.live, s.fresh⟩

/-- `knmalloc`. -/
def Blocks.alloc (b : Blocks) : Blocks := { b with live := b.fresh :: b.live, fresh := b.fresh + 1 }

variable {b : Blocks}

theorem knmalloc_blocks :
    Triple (·.blocks = b) knmalloc fun a s => s.blocks = b.alloc ∧ a = b.fresh := by
  refine .modifyGet ?_
  rintro s rfl
  exact ⟨rfl, rfl⟩

theorem modify_blocks {f : Kernel → Kernel} (hf : ∀ s, (f s).blocks = s.blocks) :
    Triple (·.blocks = b) (modify f : KernelM Unit) fun _ s => s.blocks = b :=
  .modify fun s hs => (hf s).trans hs

theorem modifyProc_blocks (p : Addr) (f : Proc → Proc) :
    Triple (·.blocks = b) (modifyProc p f) fun _ s => s.blocks = b :=
  .bind (load_reads p).left fun _ => modify_blocks fun _ => rfl

theorem allocKStack_blocks : Triple (·.blocks = b) allocKStack fun _ s => s.blocks = b := by
  refine .get fun s hs => ?_
  split
  · refine .bind (.modify ?_) fun _ => .pure fun _ => id
    rintro _ rfl
    exact hs
  · exact .throw

/-- The new `struct proc`, or the block is freed again. -/
theorem allocproc_blocks (e : Env) : Triple (·.blocks = b) (allocproc e) fun
    | some p => fun s => s.blocks = b.alloc ∧
        p = b.fresh ∧ e.kalloc.isSome = true ∧ e.procPagetable.isSome = true
    | none => fun s => s.blocks = { b with freed := b.fresh :: b.freed, fresh := b.fresh + 1 } ∧
        (e.kalloc = none ∨ e.procPagetable = none) := by
  have hfree : Triple (·.blocks = b.alloc) (knfree b.fresh) fun _ s =>
      s.blocks = { b with freed := b.fresh :: b.freed, fresh := b.fresh + 1 } := by
    refine .modify fun s hs => ?_
    simp only [Kernel.blocks, Blocks.alloc, Blocks.mk.injEq] at hs ⊢
    obtain ⟨e1, e2, e3, e4, e5, e6, e7⟩ := hs
    exact ⟨e1, e2, e3, e4, by rw [e5], by rw [e6, erase_cons_head], e7⟩
  refine knmalloc_blocks.bind fun p => .assuming fun hp => ?_
  subst hp
  refine .bind (.modifyGet fun s hs => hs) fun pid =>
    (modifyProc_blocks _ _).bind fun _ => .get fun s hs => ?_
  refine .bind (.modify (by rintro _ rfl; exact hs)) fun _ =>
    (modifyProc_blocks _ _).bind fun _ => allocKStack_blocks.bind fun n =>
    (modifyProc_blocks _ _).bind fun _ => ?_
  cases hk : e.kalloc with
  | none => exact hfree.bind fun _ => .pure fun s hs => ⟨hs, .inl rfl⟩
  | some trapframe =>
    refine (modifyProc_blocks _ _).bind fun _ => ?_
    cases hg : e.procPagetable with
    | none => exact hfree.bind fun _ => .pure fun s hs => ⟨hs, .inr rfl⟩
    | some pagetable =>
      exact (modifyProc_blocks _ _).bind fun _ => .pure fun s hs => ⟨hs, rfl, rfl, rfl⟩

/-- The three ends of `fork`. -/
theorem fork_blocks (c : CpuId) (e : Env) : Triple (·.blocks = b) (fork c e) fun _ s =>
    (s.blocks = { b with freed := b.fresh :: b.freed, fresh := b.fresh + 1 } ∧
      (e.kalloc = none ∨ e.procPagetable = none)) ∨
    (e.kalloc.isSome = true ∧ e.procPagetable.isSome = true) ∧
      (s.blocks = b.alloc ∧ e.uvmcopy = false ∨
       s.blocks = { b.alloc.alloc with
          list := (b.fresh + 1) :: b.list
          process := update b.process (b.fresh + 1) (some b.fresh) } ∧
        e.uvmcopy = true) := by
  refine .bind (myproc_reads c).left fun q =>
    .bind (deref_reads q).left fun p =>
    .bind (load_reads p).left fun v => (allocproc_blocks e).bind fun r => ?_
  cases r with
  | none => exact .pure fun s hs => .inl hs
  | some np =>
    refine .assuming fun he => ?_
    obtain ⟨rfl, he⟩ := he
    cases hu : e.uvmcopy with
    | false =>
      refine .bind ?_ fun _ => .pure fun s hs => .inr ⟨he, .inl ⟨hs, rfl⟩⟩
      exact .bind (load_reads _).left fun _ => modify_blocks fun _ => rfl
    | true =>
      refine (modifyProc_blocks _ _).bind fun _ => .bind (.forIn fun f _ =>
        .bind (modify_blocks fun _ => rfl) fun _ => .pure fun _ => id) fun _ =>
        .bind (modify_blocks fun _ => rfl) fun _ => (modifyProc_blocks _ _).bind fun _ => ?_
      refine .bind (load_reads _).left fun w =>
        .bind (load_reads _).left fun w' => (modifyProc_blocks _ _).bind fun _ =>
        knmalloc_blocks.bind fun node => .assuming fun hn => ?_
      subst hn
      refine .bind (.modify (Q := fun _ s => s.blocks = { b.alloc.alloc with
        process := update b.process (b.fresh + 1) (some b.fresh) }) fun s hs => ?_)
            fun _ =>
        .bind (.modify fun s hs => ?_) fun _ => .pure fun s hs => .inr ⟨he, .inr ⟨hs, rfl⟩⟩
      · simp only [Kernel.blocks, Blocks.alloc, Blocks.mk.injEq] at hs ⊢
        exact ⟨hs.1, by rw [hs.2.1], hs.2.2⟩
      · simp only [Kernel.blocks, Blocks.alloc, Blocks.mk.injEq] at hs ⊢
        exact ⟨by rw [hs.1], hs.2⟩

/-! ## Runs -/

/-- The heap between two calls, as long as nothing is lost. -/
structure Tidy (s : Kernel) : Prop extends Conserved s where
  used : ∀ x ∈ s.live, x < s.fresh ∧ x ∉ s.freed
  old : ∀ x ∈ s.freed, x < s.fresh
  idle : ∀ c, s.toFree c = none

section
variable (h : Tidy s)
include h

theorem Tidy.nodup_list : s.list.Nodup := by
  obtain ⟨ps, -, hp⟩ := h.live
  exact (nodup_append.mp (hp.nodup_iff.mp h.nodup)).1

theorem Tidy.fit : Fit 0 s := by
  obtain ⟨ps, he, hp⟩ := h.live
  have hnd := nodup_append.mp (hp.nodup_iff.mp h.nodup)
  refine ⟨?_, fun a ha => ?_, fun a ha => ?_⟩
  · have h1 := congrArg length he
    have h2 := hp.length_eq
    simp only [Surplus, length_map, length_append] at h1 h2 ⊢
    omega
  · exact (h.used a (hp.mem_iff.mpr (mem_append_left _ ha))).1
  · have hm : s.process a ∈ ps.map some := he ▸ mem_map_of_mem ha
    obtain ⟨p, hps, e⟩ := mem_map.mp hm
    obtain ⟨hlt, hf⟩ := h.used p (hp.mem_iff.mpr (mem_append_right _ hps))
    refine ⟨p, e.symm, hlt, fun hl => hnd.2.2 p hl p hps rfl, hf, fun c ht => ?_⟩
    rw [h.idle c] at ht
    cases ht

/-- `fork` that fails in `allocproc` gives its block back. -/
theorem Tidy.abort (hb : s'.blocks =
    { s.blocks with freed := s.fresh :: s.freed, fresh := s.fresh + 1 }) : Tidy s' := by
  simp only [Kernel.blocks, Blocks.mk.injEq] at hb
  obtain ⟨e1, e2, e3, e4, e5, e6, e7⟩ := hb
  have hcount : ∀ x, s.freed.count x = 1 → s'.freed.count x = 1 := fun x hx => by
    have hm : x ∈ s.freed := count_pos_iff.mp (by omega)
    rw [e5, count_cons_of_ne (symm (ne_of_lt (h.old x hm))), hx]
  refine ⟨⟨?_, e6 ▸ h.nodup, fun a p hap => ?_⟩, fun x hx => ?_, fun x hx => ?_, e3 ▸ h.idle⟩
  · rw [e1, e2, e6]
    exact h.live
  · obtain ⟨ha, q, rfl, hq⟩ := h.returned a p (e4 ▸ hap)
    exact ⟨hcount a ha, q, rfl, hcount q hq⟩
  · obtain ⟨hlt, hf⟩ := h.used x (e6 ▸ hx)
    rw [e5, e7]
    exact ⟨Nat.lt_succ_of_lt hlt, by simp [ne_of_lt hlt, hf]⟩
  · rw [e5] at hx
    rw [e7]
    rcases mem_cons.mp hx with rfl | hx
    · exact Nat.lt_succ_self _
    · exact Nat.lt_succ_of_lt (h.old x hx)

/-- `fork` that succeeds adds one pair. -/
theorem Tidy.add (hb : s'.blocks = { s.blocks.alloc.alloc with
    list := (s.fresh + 1) :: s.list
    process := update s.process (s.fresh + 1) (some s.fresh) }) : Tidy s' := by
  simp only [Kernel.blocks, Blocks.mk.injEq] at hb
  obtain ⟨e1, e2, e3, e4, e5, e6, e7⟩ := hb
  obtain ⟨ps, he, hp⟩ := h.live
  have hlt : ∀ x ∈ s.live, x < s.fresh := fun x hx => (h.used x hx).1
  refine ⟨⟨⟨s.fresh :: ps, ?_, ?_⟩, ?_, by rw [e4, e5]; exact h.returned⟩, fun x hx => ?_,
      fun x hx => ?_,
    e3 ▸ h.idle⟩
  · have hold : ∀ a ∈ s.list, update s.process (s.fresh + 1) (some s.fresh) a =
      s.process a :=
      fun a ha => update_of_ne (ne_of_lt (Nat.lt_succ_of_lt (h.fit.node a ha))) ..
    rw [e1, e2, map_cons, update_self, map_congr_left hold, he, map_cons]
  · rw [e1, e6]
    exact ((hp.cons s.fresh).trans perm_middle.symm).cons _
  · rw [e6]
    refine nodup_cons.mpr ⟨?_, nodup_cons.mpr ⟨fun hm => ?_, h.nodup⟩⟩
    · intro hm
      rcases mem_cons.mp hm with e | hm
      · exact Nat.succ_ne_self _ e
      · exact lt_irrefl _ (lt_trans (Nat.lt_succ_self _) (hlt _ hm))
    · exact lt_irrefl _ (hlt _ hm)
  · rw [e6] at hx
    rw [e5, e7]
    have hf : ∀ y, s.fresh ≤ y → y ∉ s.freed := fun y hy hm => not_lt.mpr hy (h.old y hm)
    rcases mem_cons.mp hx with rfl | hx
    · exact ⟨Nat.lt_succ_self _, hf _ (Nat.le_succ _)⟩
    · rcases mem_cons.mp hx with rfl | hx
      · exact ⟨Nat.lt_succ_of_lt (Nat.lt_succ_self _), hf _ (le_refl _)⟩
      · exact ⟨Nat.lt_succ_of_lt (Nat.lt_succ_of_lt (hlt x hx)), (h.used x hx).2⟩
  · rw [e5] at hx
    rw [e7]
    exact Nat.lt_succ_of_lt (Nat.lt_succ_of_lt (h.old x hx))

/-- The call replaces and removes no node, and a `fork` does not fail in `uvmcopy`. -/
def Op.Clean (s : Kernel) : Op → Bool
  | .fork _ e => e.kalloc = none || e.procPagetable = none || e.uvmcopy
  | .growproc .. | .exit .. | .yield _ | .sleep .. | .woken _ => false
  | .wait c _ _ =>
    match s.cpuProc c with
    | some p => waitFails s p
    | none => true
  | .waitRound _ p _ _ => waitFails s p
  | .wakeup c chan => !s.list.any (sleeper s c chan)
  | .kill k => !s.list.any (bears s k)
  | .reparent _ p => !s.list.any (child s p)
  | .schedule c a => !(c = 0 && inState s .runnable a)
  | .descheduled _ => true

/-- What a call does to the heap. -/
def Settles (s : Kernel) (op : Op) (s' : Kernel) : Prop :=
  op.Clean s = true ∧ Tidy s' ∨ op.Clean s = false ∧ ¬ Conserved s'

theorem Settles.of_outcome {f : Addr → Bool} {l : List Addr} {op : Op} (ho : Outcome f s l s')
    (hc : op.Clean s = !l.any f) : Settles s op s' := by
  rcases ho with ⟨hf, rfl⟩ | ⟨⟨a, ha, hf⟩, hb⟩
  · refine .inl ⟨?_, h⟩
    rw [hc]
    simpa using hf
  · refine .inr ⟨?_, hb.not_conserved⟩
    rw [hc, Bool.not_eq_false', any_eq_true]
    exact ⟨a, ha, hf⟩

theorem fork_settles (c : CpuId) (e : Env) :
    Triple (· = s) (Op.fork c e).exec fun _ => Settles s (.fork c e) := by
  refine .bind (at_start (fork_blocks c e) rfl) fun _ => .pure fun s' hs' => ?_
  rcases hs' with ⟨hb, he⟩ | ⟨⟨hk, hg⟩, ⟨hb, hu⟩ | ⟨hb, hu⟩⟩
  · refine .inl ⟨?_, h.abort hb⟩
    rcases he with he | he <;> simp [Op.Clean, he]
  · refine .inr ⟨?_, Broken.not_conserved (.inr ⟨0, ?_⟩)⟩
    · simp [Op.Clean, hu, Option.isSome_iff_ne_none.mp hk, Option.isSome_iff_ne_none.mp hg]
    · have hs := h.fit.surplus
      have h1 : s'.live = s.fresh :: s.live := (congrArg Blocks.live hb :)
      have h2 : s'.list = s.list := (congrArg Blocks.list hb :)
      simp only [Surplus, h1, h2, length_cons] at hs ⊢
      omega
  · exact .inl ⟨by simp [Op.Clean, hu], h.add hb⟩

/-- Each call, from a heap where nothing is lost. -/
theorem exec_settles (op : Op) : Triple (· = s) op.exec fun _ => Settles s op := by
  have hfit := h.fit
  have hnd := h.nodup_list
  have hbad : ∀ {m : KernelM Unit}, Triple (Fit 0) m (fun _ => Broken) → op.Clean s = false →
      Triple (· = s) m fun _ => Settles s op := fun hm hc =>
    (at_start hm hfit).post fun _ _ hb => .inr ⟨hc, hb.not_conserved⟩
  have hwait : ∀ c p addr e, op.Clean s = waitFails s p →
      Triple (· = s) (waitRound c p addr e) fun _ => Settles s op := by
    intro c p addr e hc
    refine (waitRound_outcome hnd hfit c p addr e).post fun _ s' hs' => ?_
    rcases hs' with ⟨hf, rfl⟩ | ⟨hf, hb⟩
    · exact .inl ⟨hc.trans hf, h⟩
    · exact .inr ⟨hc.trans hf, hb.not_conserved⟩
  cases op with
  | fork c e => exact fork_settles h c e
  | growproc c n e => exact hbad ((growproc_broken c n e).bind fun _ => .pure fun _ => id) rfl
  | exit c status => exact hbad (exit_broken c status) rfl
  | yield c => exact hbad (yield_broken c) rfl
  | sleep c chan => exact hbad (sleep_broken c chan) rfl
  | woken c => exact hbad (woken_broken c) rfl
  | wait c addr e =>
    refine .bind (at_myproc ?_) fun _ => .pure fun _ => id
    refine (deref_reads _).bind fun p => .assuming fun hp => hwait c p addr e ?_
    simp [Op.Clean, hp]
  | waitRound c p addr e => exact (hwait c p addr e rfl).bind fun _ => .pure fun _ => id
  | wakeup c chan => exact (wakeup_outcome hnd hfit c chan).post fun _ _ ho => .of_outcome h ho rfl
  | kill k =>
    exact (kill_outcome hnd hfit k).bind fun _ => .pure fun _ ho => .of_outcome h ho rfl
  | reparent c p => exact (reparent_outcome hnd hfit c p).post fun _ _ ho => .of_outcome h ho rfl
  | schedule c a =>
    exact (schedule_outcome hfit c a).post fun _ _ ho => .of_outcome h ho (by simp [Op.Clean])
  | descheduled c => exact descheduled_stops (h.idle c)

theorem next_settles {op : Op} (hn : calls.next s op = some s') : Settles s op s' := by
  simp only [calls] at hn
  split at hn
  · rename_i hx
    cases hn
    exact exec_settles h op s _ _ rfl hx
  · cases hn

end

theorem mem_states (s : Kernel) (ops : List Op) : s ∈ calls.states s ops := by
  cases ops <;> exact mem_cons_self

/-- **When the blocks are conserved.** In a run of the calls that starts with nothing lost, the heap
has one node and one `struct proc` for each listed node in every state between two calls, and what
was unlinked was freed once, exactly if every call meets `Op.Clean`. -/
theorem conserved_iff {ops : List Op} (h : Tidy s) (hr : calls.run s ops = some s') :
    (∀ x ∈ calls.states s ops, Conserved x) ↔ calls.Meets (fun s op => op.Clean s = true)
        s ops := by
  induction ops generalizing s with
  | nil => simpa [Machine.states, Machine.Meets] using h.toConserved
  | cons op ops ih =>
    obtain ⟨s₁, hn, hr⟩ := Machine.run_cons.mp hr
    have hst : calls.states s (op :: ops) = s :: calls.states s₁ ops := by simp [Machine.states, hn]
    rw [hst, forall_mem_cons, Machine.meets_cons hn]
    rcases next_settles h hn with ⟨hc, ht⟩ | ⟨hc, hb⟩
    · rw [ih ht hr]
      exact ⟨fun hm => ⟨hc, hm.2⟩, fun hm => ⟨h.toConserved, hm.2⟩⟩
    · refine ⟨fun hm => (hb (hm.2 s₁ (mem_states s₁ ops))).elim, fun hm => ?_⟩
      rw [hc] at hm
      cases hm.1

end

/-- Two forks, of which the second one gets no trapframe, and calls that find nothing. -/
def forkRun : List Op :=
  [.fork 0 { kalloc := some 10, procPagetable := some 11 },
    .fork 0 { kalloc := none, procPagetable := some 11 }, .wakeup 0 7, .kill 5, .schedule 1 3]

theorem single_tidy : Tidy single where
  live := ⟨[1], by decide, by decide⟩
  nodup := by decide
  returned := by simp [single]
  used := by decide
  old := by simp [single]
  idle _ := rfl

theorem conserved_iff_forkRun : ∃ s, calls.run single forkRun = some s ∧ s.list = [3, 0] ∧
    ∀ x ∈ calls.states single forkRun, Conserved x := by
  have h : (calls.run single forkRun).map (·.list) = some [3, 0] := by decide +kernel
  obtain ⟨s, hs, hl⟩ := Option.map_eq_some_iff.mp h
  exact ⟨s, hs, hl, (conserved_iff single_tidy hs).mpr (by decide +kernel)⟩

end Xv6.Seq
