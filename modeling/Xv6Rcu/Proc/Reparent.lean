import Xv6Rcu.Proc.Conserve
import Xv6Rcu.Proc.KStack

/-!
# `reparent`

`reparent(p)` should give the children of the exiting process `p` to `init` and change nothing else
(`ReparentExact`).

- **The defect** (`reparent_oneChild`): for each child the loop makes a copy of the child, but it
  passes `p` to `list_update_rcu`. The copy takes the place of the exiting process, whose struct is
  cleared, and the child stays as it was. The cleared process has the uid of `init`, so that the
  copy counts as its child; the replacement of that one fails, and the old node is freed once more.
- **What holds** (`reparent_exact`): `reparent(p)` is right exactly if `p` has no child.

Whatever the rest of the traversal does after the first child, it only publishes copies of processes
that it still finds from the list, so the exiting process does not come back (`Gone`).
-/

namespace Xv6.Seq

open Lib Function List

/-! ## The property -/

/-- The process with the struct `p` exits, and `init` has the node `i`: the pids and the uids on the
list are distinct, and no process is its own child. -/
structure Exiting (p i : Addr) (s : Kernel) : Prop extends Listed s where
  uids : (s.list.map fun a => (s.proc a).uid).Nodup
  listed : ∃ b ∈ s.list, s.process b = some p
  init : i ∈ s.list
  running : (s.procs p).state = .running
  notOwn : (s.procs p).pUid ≠ (s.procs p).uid

/-- The listed process at the node `a` is a child of the process with the struct `p`. -/
def ChildOf (p : Addr) (s : Kernel) (a : Addr) : Prop := (s.proc a).pUid = (s.procs p).uid

instance (p : Addr) (s : Kernel) (a : Addr) : Decidable (ChildOf p s a) :=
  inferInstanceAs (Decidable (_ = _))

/-- A child becomes a child of `init`. -/
def adopted (i : Addr) (s : Kernel) (v : Proc) : Proc :=
  { v with parent := s.initproc, pUid := (s.proc i).uid }

/-- `reparent(p)` returns; on the list are the same processes in the same order, and just the
children of `p` have changed: they are children of `init`. -/
def ReparentExact (c : CpuId) (p i : Addr) (s : Kernel) : Prop :=
  Returns (reparent c p) s fun _ s' => s'.list.map s'.proc =
    s.list.map fun a => if ChildOf p s a then adopted i s (s.proc a) else s.proc a

/-- `init` (pid 1), its child (pid 2) and a child of this one (pid 3), the newest first; the
process 2 exits. -/
def oneChild : Kernel where
  list := [4, 2, 0]
  process := fun a => if a % 2 = 0 then some (a + 1) else none
  procs := fun p =>
    if p = 1 then { pid := 1, uid := 0, pUid := -1, state := .runnable }
    else if p = 3 then { pid := 2, uid := 1, pUid := 0, state := .running }
    else if p = 5 then { pid := 3, uid := 2, pUid := 1, state := .runnable }
    else {}
  cpuProc := fun c => if c = 0 then some 3 else none
  initproc := some 1
  nextpid := 4
  uniqueId := 3
  fresh := 6
  live := [0, 1, 2, 3, 4, 5]

theorem oneChild_exiting : Exiting 3 0 oneChild := by
  refine ⟨⟨by decide, fun a ha => ⟨a + 1, ?_⟩, by decide⟩, by decide, ⟨2, by decide, by decide⟩,
    by decide, by decide, by decide⟩
  revert a
  decide

/-- Whether a call stopped, the pids on the list then, and the nodes passed to `knfree`. -/
def outcome : EStateM.Result Stop Kernel Unit → Option Stop × List Int × List Addr
  | .ok _ s => (none, s.list.map fun a => (s.proc a).pid, s.freed)
  | .error e s => (some e, s.list.map fun a => (s.proc a).pid, s.freed)

/-- The copy of the process 3 takes the place of the process 2. Then it is taken for a child of the
cleared process, `list_update_rcu` finds nothing, and the node 2 is freed a second time. -/
theorem reparent_oneChild : Exiting 3 0 oneChild ∧
    outcome (reparent 0 3 oneChild) = (none, [3, 3, 1], [2, 2]) ∧
    ¬ ReparentExact 0 3 0 oneChild := by
  have h : outcome (reparent 0 3 oneChild) = (none, [3, 3, 1], [2, 2]) := by decide +kernel
  refine ⟨oneChild_exiting, h, ?_⟩
  rintro ⟨_, s', e, hs'⟩
  rw [e] at h
  have hpids := congrArg (map Proc.pid) hs'
  rw [map_map] at hpids
  have h2 : s'.list.map (Proc.pid ∘ s'.proc) = [3, 3, 1] := congrArg (·.2.1) h
  exact absurd (h2.symm.trans hpids) (by decide)

section
variable {s s' : Kernel} {a b p q i new : Addr} {c : CpuId} {l1 l2 : List Addr} {w : Proc}
  {K : Int} {V : Set Addr}

/-! ## A process without children -/

/-- The traversal finds no child. -/
theorem reparentFrom_noChild (hnd : s.list.Nodup)
    (hproc : ∀ a ∈ s.list, ∃ q, s.process a = some q) (hno : ∀ a ∈ s.list, ¬ ChildOf p s a)
    (fuel : Nat) (l1 l2 : List Addr) (hl : s.list = l1 ++ l2) (hfuel : l2.length ≤ fuel) :
    reparentFrom c p fuel none l2.head? s = .ok () s := by
  induction fuel generalizing l1 l2 with
  | zero =>
    obtain rfl : l2 = [] := eq_nil_of_length_eq_zero (Nat.le_zero.mp hfuel)
    rfl
  | succ fuel ih =>
    cases l2 with
    | nil => rfl
    | cons a l2 =>
      have ha : a ∈ s.list := by simp [hl]
      obtain ⟨q, hq⟩ := hproc a ha
      have hne : (s.procs q).pUid ≠ (s.procs p).uid := by
        have := hno a ha
        rwa [ChildOf, proc_of hq] at this
      refine (bind_of_ok (processOf_eq hq)).trans ((bind_of_ok rfl).trans ?_)
      refine (bind_of_ok rfl).trans ((congrFun (if_neg hne) s).trans ((bind_of_ok rfl).trans ?_))
      rw [next_of_append hnd hl]
      exact ih (l1 ++ [a]) l2 (by simp [hl]) (by simpa using hfuel)

theorem Exiting.reparent_noChild (h : Exiting p i s) (hno : ∀ a ∈ s.list, ¬ ChildOf p s a) :
    ReparentExact c p i s := by
  refine .of_eq ((bind_of_ok rfl).trans
    (reparentFrom_noChild h.nodup h.proc_some hno s.fresh [] s.list rfl
      (length_le_fresh h.nodup h.node))) ?_
  exact map_congr_left fun a ha => (if_neg (hno a ha)).symm

/-! ## The exiting process is gone -/

/-- The process with the pid `K`, running. -/
def IsRunning (K : Int) (v : Proc) : Prop := v.pid = K ∧ v.state = .running

/-- A traversal that stands in `V` does not leave `V`, and there is no running process with the pid
`K` in it. -/
structure Gone (K : Int) (V : Set Addr) (s : Kernel) : Prop where
  list : ∀ a ∈ s.list, a ∈ V
  lt : ∀ a ∈ V, a < s.fresh
  next : ∀ a ∈ V, ∀ b, s.next a = some b → b ∈ V
  absent : ∀ a ∈ V, ∀ q, s.process a = some q → ¬ IsRunning K (s.procs q)

/-- With more nodes than before. -/
def Goes (K : Int) (V : Set Addr) (s : Kernel) : Prop := ∃ W, Gone K W s ∧ V ⊆ W

theorem not_running_clear : ¬ IsRunning K ({} : Proc) := fun h => by cases h.2

/-- The new node `new` has a struct that is not the running process `K`. -/
structure Copy (K : Int) (new : Addr) (s : Kernel) : Prop where
  lt : new < s.fresh
  absent : ∀ q, s.process new = some q → ¬ IsRunning K (s.procs q)

theorem newNode_gone (hw : ¬ IsRunning K w) :
    Triple (Gone K V) (newNode w) fun r s => Gone K V s ∧ Copy K r.1 s := by
  refine of_at fun s h => (newNode_at w).post ?_
  rintro r s' ⟨rfl, rfl⟩
  have hstruct : ∀ q, ¬ IsRunning K (s.procs q) → ¬ IsRunning K ((s.drafted w).procs q) := by
    intro q hq
    by_cases hqn : q = s.fresh + 1
    · subst hqn
      simpa [Kernel.drafted] using hw
    · simpa [Kernel.drafted, update_of_ne hqn] using hq
  have hold : ∀ a ∈ V, (s.drafted w).process a = s.process a := fun a ha =>
    update_of_ne (ne_of_lt (h.lt a ha)) _ _
  refine ⟨⟨h.list, fun a ha => Nat.lt_add_right 2 (h.lt a ha), h.next, ?_⟩, ?_, ?_⟩
  · intro a ha q hq
    exact hstruct q (h.absent a ha q (hold a ha ▸ hq))
  · exact Nat.lt_add_of_pos_right (by decide)
  · intro q hq
    cases (update_self (f := s.process) _ _).symm.trans hq
    simpa [Kernel.drafted] using hw

theorem replace_of_mem {l : List Addr} (hb : b ∈ l) (new : Addr) :
    ∃ l1 l2, l = l1 ++ b :: l2 ∧ l.replace b new = l1 ++ new :: l2 := by
  obtain ⟨l1, l2, rfl, hb1⟩ := eq_append_cons_of_mem hb
  exact ⟨l1, l2, rfl, by rw [replace_append_right hb1, replace_cons_self]⟩

/-- The copy takes the place of the listed node `b`; the traversal may come to both. -/
theorem unlink_gone (hl : s.list = l1 ++ b :: l2) (h : Gone K V s) (hc : Copy K new s) :
    Triple (· = s) (unlink b (l1 ++ new :: l2)) fun _ => Gone K (insert new V) := by
  refine .modify fun s' hs' => ?_
  subst s'
  have hb : b ∈ V := h.list b (by simp [hl])
  have hmem : ∀ a ∈ l1 ++ new :: l2, a = new ∨ a ∈ s.list := by
    intro a ha
    simp only [hl, mem_append, mem_cons] at ha ⊢
    tauto
  have hlist : ∀ a ∈ l1 ++ new :: l2, a ∈ insert new V := fun a ha =>
    (hmem a ha).imp id (h.list a)
  refine ⟨hlist, ?_, ?_, ?_⟩
  · rintro a (rfl | ha)
    · exact hc.lt
    · exact h.lt a ha
  · intro a ha d hd
    simp only [Kernel.next] at hd
    split at hd
    · exact hlist d (Sleep.mem_of_after hd)
    · rename_i hout
      -- an unlinked node keeps its `next`
      by_cases hab : a = b
      · subst hab
        rw [update_self] at hd
        exact .inr (h.next a hb d hd)
      · rw [update_of_ne hab] at hd
        have hal : a ∉ s.list := by
          intro hal
          simp only [hl, mem_append, mem_cons] at hal hout
          tauto
        have haV : a ∈ V := by
          rcases ha with rfl | ha
          · simp at hout
          · exact ha
        exact .inr (h.next a haV d ((if_neg hal).trans hd))
  · rintro a (rfl | ha)
    · exact hc.absent
    · exact h.absent a ha

theorem listUpdateRcu_gone (q : Addr) :
    Triple (fun s => Gone K V s ∧ Copy K new s) (listUpdateRcu new q) fun _ => Goes K V := by
  refine .get fun s hs => .ite (fun _ => .throw_bind) fun _ => ?_
  refine (findPid_reads _ s.list).bind fun r => .assuming fun hr => ?_
  cases r with
  | none =>
    refine .pure ?_
    rintro _ rfl
    exact ⟨V, hs.1, subset_rfl⟩
  | some b =>
    obtain ⟨l1, l2, hl, hrep⟩ := replace_of_mem (hr b rfl) new
    have hu := unlink_gone hl hs.1 hs.2
    rw [← hrep] at hu
    exact hu.bind fun _ => .pure fun _ h => ⟨_, h, Set.subset_insert _ _⟩

theorem reclaim_gone (old : Addr) : Triple (Gone K V) (reclaim old) fun _ => Gone K V := by
  refine .bind (processOf_reads old).left fun q => ?_
  unfold freeproc
  rw [bind_assoc]
  refine .bind (load_reads q).left fun v =>
    .bind (Q := fun _ => Gone K V) (.modify fun s h => ⟨h.list, h.lt, h.next, ?_⟩) fun _ =>
    .modify fun s h => ⟨h.list, h.lt, h.next, h.absent⟩
  intro a ha r hr
  by_cases hrq : r = q
  · subst hrq
    simpa using not_running_clear
  · simpa [update_of_ne hrq] using h.absent a ha r hr

/-- The copy `w` is published, or not, and a node is freed. -/
theorem replace_gone {β : Type} {e : Stop} {f : Addr → KernelM β} {R : β → Kernel → Prop} (q : Addr)
    (g : Option Addr → Option Addr) (hw : ¬ IsRunning K w)
    (hf : ∀ W, V ⊆ W → ∀ old, Triple (Gone K W) (f old) R) :
    Triple (Gone K V) (do
      let (new, _) ← newNode w
      let some old := g (← listUpdateRcu new q)
        | throw e
      reclaim old
      f old) R := by
  refine (newNode_gone hw).bind fun r => (listUpdateRcu_gone q).bind fun o =>
    .exists_pre fun W => .assuming fun hW => ?_
  cases g o with
  | none => exact .throw
  | some old => exact .bind (reclaim_gone old) fun _ => hf W hW old

theorem Goes.trans {W : Set Addr} (h : Goes K W s) (hV : V ⊆ W) : Goes K V s := by
  obtain ⟨X, hs, hX⟩ := h
  exact ⟨X, hs, hV.trans hX⟩

/-- A traversal goes on behind a node that it may stand on. -/
theorem next_gone {f : Ptr → KernelM Unit} (ha : a ∈ V)
    (hf : ∀ cur, (∀ b ∈ cur, b ∈ V) → Triple (Gone K V) (f cur) fun _ => Goes K V) :
    Triple (Gone K V) (do f ((← get).next a)) fun _ => Goes K V :=
  .get fun _ hs => at_start (hf _ fun b hb => hs.next a ha b hb) hs

theorem wakeupFrom_gone (c : CpuId) (chan : Chan) (fuel : Nat) (V : Set Addr) (cur : Ptr)
    (hcur : ∀ a ∈ cur, a ∈ V) :
    Triple (Gone K V) (wakeupFrom c chan fuel cur) fun _ => Goes K V := by
  induction fuel generalizing V cur with
  | zero =>
    cases cur with
    | none => exact .pure fun _ hs => ⟨V, hs, subset_rfl⟩
    | some a => exact .throw
  | succ fuel ih =>
    cases cur with
    | none => exact .pure fun _ hs => ⟨V, hs, subset_rfl⟩
    | some a =>
      have ha : a ∈ V := hcur a rfl
      refine .bind (processOf_reads a).left fun q =>
        .bind (load_reads q).left fun v =>
        .bind (myproc_reads c).left fun r =>
        .ite (fun _ => ?_) fun _ => next_gone ha (ih V)
      refine replace_gone q id (fun h => by cases h.2) fun W hW _ => ?_
      exact (next_gone (hW ha) (ih W)).post fun _ _ h => h.trans hW

theorem wakeup_gone (c : CpuId) (chan : Chan) :
    Triple (Gone K V) (wakeup c chan) fun _ => Goes K V :=
  .get fun _ hs => at_start
    (wakeupFrom_gone c chan _ V _ fun a ha => hs.list a (mem_of_mem_head? ha)) hs

theorem reparentFrom_gone (c : CpuId) (p : Addr) (fuel : Nat) (V : Set Addr) (toFree cur : Ptr)
    (hcur : ∀ a ∈ cur, a ∈ V) :
    Triple (Gone K V) (reparentFrom c p fuel toFree cur) fun _ => Goes K V := by
  induction fuel generalizing V toFree cur with
  | zero =>
    cases cur with
    | none => exact .pure fun _ hs => ⟨V, hs, subset_rfl⟩
    | some a => exact .throw
  | succ fuel ih =>
    cases cur with
    | none => exact .pure fun _ hs => ⟨V, hs, subset_rfl⟩
    | some a =>
      have ha : a ∈ V := hcur a rfl
      refine of_at fun s hs => at_processOf fun q hq => at_load (at_load ?_)
      refine .ite (fun _ => at_get ?_) fun _ => at_start (next_gone ha (ih V toFree)) hs
      -- the copy is of a process that the traversal has found
      refine at_start (replace_gone p (·.or toFree) (fun h => hs.absent a ha q hq h)
        fun W hW old => ?_) hs
      refine .bind (load_reads p).left fun v => .bind (wakeup_gone c v.uid) fun _ =>
        .exists_pre fun X => .assuming fun hX => ?_
      exact (next_gone (hX (hW ha)) (ih X (some old))).post fun _ _ h => h.trans (hW.trans hX)

/-! ## The first child -/

/-- The copy of another process is in the place of the exiting one, whose struct is clear. -/
theorem Exiting.gone (h : Exiting p i s) (hl : s.list = l1 ++ b :: l2) (hp : s.process b = some p)
    (hw : w.pid ≠ (s.procs p).pid) : Gone (s.procs p).pid (insert s.fresh {a | a ∈ s.list})
      (((s.drafted w).replaced l1 b s.fresh l2).reclaimed b p) := by
  have hb : b ∈ s.list := by simp [hl]
  have hpb : (s.drafted w).process b = some p := (process_drafted w (h.node b hb)).trans hp
  have hlist : ∀ a ∈ l1 ++ s.fresh :: l2, a ∈ insert s.fresh {a | a ∈ s.list} := by
    intro a ha
    simp only [hl, mem_append, mem_cons] at ha ⊢
    tauto
  refine ⟨hlist, ?_, ?_, ?_⟩
  · rintro a (rfl | ha)
    · exact Nat.lt_add_of_pos_right (by decide)
    · exact Nat.lt_add_right 2 (h.node a ha)
  · intro a ha d hd
    by_cases hin : a ∈ l1 ++ s.fresh :: l2
    · exact hlist d (Sleep.mem_of_after ((if_pos hin).symm.trans hd))
    · -- only the old node of the exiting process is off the list
      obtain rfl : a = b := by
        rcases ha with rfl | ha
        · simp at hin
        · simp only [Set.mem_ofPred_eq, hl, mem_append, mem_cons] at ha hin
          tauto
      have hd' : l2.head? = some d := by
        refine Eq.trans ?_ ((if_neg hin).symm.trans hd)
        simp [Kernel.reclaimed, Kernel.replaced]
      simp [hl, mem_of_mem_head? hd']
  · intro a ha q hq hrun
    have hqp : q ≠ p := by
      rintro rfl
      refine not_running_clear (K := (s.procs q).pid) ?_
      simpa [Kernel.reclaimed] using hrun
    have hpid : ((s.drafted w).procs q).pid = (s.procs p).pid := by
      simpa [Kernel.reclaimed, Kernel.replaced, update_of_ne hqp] using hrun.1
    rcases ha with rfl | ha
    · obtain rfl : s.fresh + 1 = q :=
        Option.some.inj ((update_self (f := s.process) _ _).symm.trans hq)
      refine hw (Eq.trans ?_ hpid)
      simp [Kernel.drafted]
    · have hq' : (s.drafted w).process a = some q := hq
      have hab : a ≠ b := by
        rintro rfl
        exact hqp (Option.some.inj (hq'.symm.trans hpb))
      refine h.pid_ne hb hp ha hab ?_
      rw [← h.proc_congr (fun _ => process_drafted w) (fun _ => procs_drafted w) ha, proc_of hq']
      exact hpid

/-- The copy of another process is published in the place of the exiting one. -/
theorem Exiting.replace_self {β : Type} {f : Addr → KernelM β} {R : β → Kernel → Prop} {e : Stop}
    {g : Option Addr → Option Addr} (hg : g (some b) = some b) (h : Exiting p i s)
    (hl : s.list = l1 ++ b :: l2) (hp : s.process b = some p) (hw : w.pid ≠ (s.procs p).pid)
    (hf : Triple (Gone (s.procs p).pid (insert s.fresh {a | a ∈ s.list})) (f b) R) :
    Triple (· = s) (do
      let (new, _) ← newNode w
      let some old := g (← listUpdateRcu new p)
        | throw e
      reclaim old
      f old) R := by
  have hpb := (process_drafted w (h.node b (by simp [hl]))).trans hp
  refine (newNode_at w).bind fun r => .assuming fun hr => ?_
  subst hr
  refine .bind (.of_eq (Q := fun r s' => s' = (s.drafted w).replaced l1 b s.fresh l2 ∧ r = some b)
    ((h.toListed.drafted w).listUpdateRcu_eq hl hpb s.fresh) ⟨rfl, rfl⟩)
    fun r => .assuming fun hr => ?_
  subst hr
  rw [hg]
  exact (reclaim_at (s := (s.drafted w).replaced l1 b s.fresh l2) hpb).bind fun _ =>
    at_start hf (h.gone hl hp hw)

/-- The traversal comes to a child. -/
theorem Exiting.reparent_gone (h : Exiting p i s) (c : CpuId) :
    Triple (· = s) (reparent c p) fun _ s' =>
      (∃ a ∈ s.list, ChildOf p s a) → ∃ V, Gone (s.procs p).pid V s' := by
  refine at_get (at_walk (Q := fun l _ s' => (∃ a ∈ l, ChildOf p s a) →
      ∃ V, Gone (s.procs p).pid V s') h.nodup (reparentFrom.eq_1 c p · none)
    (reparentFrom.eq_2 c p none) (by simp) (fun fuel a l ha ih => ?_) _)
  refine at_processOf fun q hq => at_load (at_load (.ite (fun hch => at_get ?_) fun hch => ?_))
  · -- the first child
    obtain ⟨b, hb, hp⟩ := h.listed
    obtain ⟨m1, m2, hm⟩ := append_of_mem hb
    have hab : a ≠ b := by
      rintro rfl
      obtain rfl := Option.some.inj (hq.symm.trans hp)
      exact h.notOwn hch
    have hpid := h.pid_ne hb hp ha hab
    rw [proc_of hq] at hpid
    refine h.replace_self (g := (·.or none)) rfl hm hp hpid ?_
    refine .bind (load_reads p).left fun v => .bind (wakeup_gone c v.uid) fun _ =>
      .exists_pre fun X => .assuming fun hX => ?_
    exact (next_gone (hX (.inr ha)) fun cur hcur =>
      reparentFrom_gone c p fuel X (some b) cur hcur).post fun _ _ h _ => h.imp fun _ => And.left
  · refine ih.post fun _ _ h hc => h ?_
    obtain ⟨d, hd, hdc⟩ := hc
    rcases mem_cons.mp hd with rfl | hd
    · rw [ChildOf, proc_of hq] at hdc
      exact absurd hdc hch
    · exact ⟨d, hd, hdc⟩

theorem Exiting.reparent_child (h : Exiting p i s) (hc : ∃ a ∈ s.list, ChildOf p s a) :
    ¬ ReparentExact c p i s := by
  rintro ⟨_, s', hr, hs'⟩
  obtain ⟨V, hV⟩ := h.reparent_gone c s () s' rfl hr hc
  -- the exiting process should still be listed
  obtain ⟨b, hb, hp⟩ := h.listed
  have hmem : s.procs p ∈ s'.list.map s'.proc := by
    rw [hs']
    refine mem_map.mpr ⟨b, hb, ?_⟩
    rw [if_neg (by rw [ChildOf, proc_of hp]; exact h.notOwn), proc_of hp]
  obtain ⟨a, ha, e⟩ := mem_map.mp hmem
  have hrun : IsRunning (s.procs p).pid (s'.proc a) := by
    rw [e]
    exact ⟨rfl, h.running⟩
  cases hq : s'.process a with
  | none =>
    rw [Kernel.proc, hq] at hrun
    exact not_running_clear hrun
  | some q =>
    rw [proc_of hq] at hrun
    exact hV.absent a (hV.list a ha) q hq hrun

/-- **`reparent` is right exactly if there is nothing to do**: the exiting process has no child. -/
theorem reparent_exact (c : CpuId) (p i : Addr) (s : Kernel) (h : Exiting p i s) :
    ReparentExact c p i s ↔ ∀ a ∈ s.list, ¬ ChildOf p s a := by
  constructor
  · intro he a ha hc
    exact h.reparent_child ⟨a, ha, hc⟩ he
  · exact h.reparent_noChild

/-- Without the process 3. -/
def childless : Kernel := { oneChild with list := [2, 0] }

theorem reparent_exact_childless : Exiting 3 0 childless ∧ ReparentExact 0 3 0 childless := by
  have h : Exiting 3 0 childless := by
    refine ⟨⟨by decide, fun a ha => ⟨a + 1, ?_⟩, by decide⟩, by decide, ⟨2, by decide, by decide⟩,
      by decide, by decide, by decide⟩
    revert a
    decide
  exact ⟨h, (reparent_exact 0 3 0 childless h).mpr (by decide)⟩

end

end Xv6.Seq
