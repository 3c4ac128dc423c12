import Xv6Rcu.Proc.Locks

/-!
# No lost wakeup

A process `k` holds `lk` and calls `sleep(chan, lk)` on one CPU; a waker on another CPU acquires
`lk` after `sleep` has released it and calls `wakeup(chan)`. When `wakeup` returns, the process does
not sleep on `chan` (`no_lost_wakeup`), whatever the interleaving of the two.

- Before `sleep` publishes its SLEEPING version it holds the lock of the listed one. The first
  traversal of `wakeup` has to pass that version (`First`), so it ends after the publication.
- The second traversal starts behind the publication: every version that waits on `chan` is ahead of
  the walk (`Ahead`), or has been replaced by a RUNNABLE one.
- The list changes under the walk: the context of the sleeper goes on in `scheduler`, which replaces
  the versions of other processes, and the woken process replaces its own. An unlinked version keeps
  its `next`, so a walk that stands on one still comes to what it could reach (`Reach.publish`).
-/

namespace Xv6.Sleep

open Lib Function List
open Option (bind_eq_some_iff some)

variable {n : Nat} {s s' s₁ : St n} {t : Fin n} {pc pc' : Pc} {v q c new old : Addr} {p : Ptr}

/-! ## Walking the list -/

/-- A walk along `next` that stands at `p` comes to `v`. -/
inductive Reach (s : St n) (v : Addr) : Ptr → Prop
  | here : Reach s v (some v)
  | step {c : Addr} (h : Reach s v (s.next c)) : Reach s v (some c)

theorem Reach.ahead (h : Reach s v (some c)) (hne : c ≠ v) : Reach s v (s.next c) := by
  cases h with
  | here => exact (hne rfl).elim
  | step h => exact h

theorem Reach.not_none : ¬ Reach s v none := nofun

theorem Reach.congr (h : Reach s v p) (hl : s'.list = s.list) (hs : s'.stale = s.stale) :
    Reach s' v p := by
  have hn : s'.next = s.next := by
    funext c
    rw [St.next, St.next, hl, hs]
  induction h with
  | here => exact .here
  | step _ ih => exact .step (hn ▸ ih)

theorem Wf.nodup_list (h : Wf s) : s.list.Nodup := h.nodup.of_map

/-- A walk from the head comes to every listed version. -/
theorem Wf.reach_head (h : Wf s) (hv : v ∈ s.list) : Reach s v s.list.head? := by
  suffices ha : ∀ l2 l1 : List Addr, s.list = l1 ++ l2 → v ∈ l2 → Reach s v l2.head? from
    ha s.list [] rfl hv
  intro l2
  induction l2 with
  | nil => exact fun _ _ hv => absurd hv not_mem_nil
  | cons c l2 ih =>
    intro l1 hl hv
    have hnd := h.nodup_list
    rw [hl] at hnd
    have hc : c ∉ l1 := fun hm => (nodup_append.mp hnd).2.2 c hm c mem_cons_self rfl
    have hn : s.next c = l2.head? := by
      rw [St.next, if_pos (by simp [hl]), hl, after_middle hc]
    rcases mem_cons.mp hv with rfl | hv
    · exact .here
    · exact .step (hn ▸ ih (l1 ++ [c]) (by simp [hl]) hv)

/-- The element behind `c` stays, or is the one that was replaced. -/
theorem after_replace (l1 l2 : List Addr) (ho : c ≠ old) (hn : c ≠ new) :
    after c (l1 ++ new :: l2) = after c (l1 ++ old :: l2) ∨
      after c (l1 ++ old :: l2) = some old ∧ after c (l1 ++ new :: l2) = some new := by
  induction l1 with
  | nil => exact .inl (by simp [after, symm ho, symm hn])
  | cons a l1 ih =>
    by_cases ha : a = c
    · cases l1 with
      | nil => exact .inr (by simp [after, ha])
      | cons b l1 => exact .inl (by simp [after, ha])
    · simpa [after, ha] using ih

/-- What a context that publishes its copy does to the list. -/
structure Published (s : St n) (new old : Addr) (l₁ l₂ : List Addr) (s₁ : St n) : Prop where
  split : s.list = l₁ ++ old :: l₂
  list : s₁.list = l₁ ++ new :: l₂
  stale : s₁.stale = Function.update s.stale old l₂.head?
  procs : s₁.procs = s.procs
  pid : s.pid new = s.pid old
  fresh : ¬ s.Known new
  gone : old ∉ s₁.list

theorem Wf.published (h : Wf s) (hc : (s.pc t).copying = some (q, new))
    (hu : s.listUpdateRcu new q = some (old, s₁)) :
    s.pid old = s.pid q ∧ s₁.cpuProc = s.cpuProc ∧ s₁.pc = s.pc ∧ s₁.fresh = s.fresh ∧
      ∃ l1 l2, Published s new old l1 l2 s₁ := by
  obtain ⟨l1, l2, hl, hp, rfl⟩ := listUpdateRcu_eq hu
  have hold : old ∈ s.list := by
    rw [hl]
    simp
  have hnew : ¬ s.Known new := fun hk => (h.known new hk).2 t q hc
  have hpid : s.pid new = s.pid old := by
    rw [hp]
    exact (h.copy t q new hc).2.resolve_right fun e => h.pos old hold (hp.trans e)
  refine ⟨hp, rfl, rfl, rfl, l1, l2, hl, rfl, rfl, rfl, hpid, hnew, fun hm => ?_⟩
  have hnd := h.nodup_list
  rw [hl, perm_middle.nodup_iff, nodup_cons] at hnd
  rcases mem_cons.mp (perm_middle.mem_iff.mp hm) with rfl | hm
  · exact hnew (.inl hold)
  · exact hnd.1 hm

theorem goto_pc (h : s₁.pc = s.pc) (t : Fin n) (pc' : Pc) :
    (s₁.goto t pc').pc = update s.pc t pc' := by
  rw [St.goto, h]

theorem Published.mem {l1 l2 : List Addr} (h : Published s new old l1 l2 s₁) (hv : v ∈ s₁.list) :
    v = new ∨ v ∈ s.list ∧ v ≠ old := by
  have hv' := hv
  rw [h.list] at hv'
  rcases mem_cons.mp (perm_middle.mem_iff.mp hv') with rfl | hm
  · exact .inl rfl
  · refine .inr ⟨?_, fun e => h.gone (e ▸ hv)⟩
    rw [h.split]
    exact perm_middle.mem_iff.mpr (mem_cons_of_mem _ hm)

/-- **A publication keeps a walk's way** to every version but the one that it unlinks. -/
theorem Reach.publish {l1 l2 : List Addr} (hw : Wf s) (h : Published s new old l1 l2 s₁)
    (hr : Reach s v p) (hp : p ≠ some new) (hv : v ≠ old) : Reach s₁ v p := by
  have hold : old ∈ s.list := by
    rw [h.split]
    simp
  have hnd := hw.nodup_list
  rw [h.split] at hnd
  have hl1 : old ∉ l1 := fun hm => (nodup_append.mp hnd).2.2 old hm old mem_cons_self rfl
  have hnew : new ∉ l1 := fun hm => h.fresh (.inl (by rw [h.split]; simp [hm]))
  have hno : s.next old = l2.head? := by rw [St.next, if_pos hold, h.split, after_middle hl1]
  have hno' : s₁.next old = l2.head? := by
    rw [St.next, if_neg h.gone, h.stale, update_self]
  have hnn : s₁.next new = l2.head? := by
    rw [St.next, if_pos (by simp [h.list]), h.list, after_middle hnew]
  induction hr with
  | here => exact .here
  | @step c hr ih =>
    have hc : c ≠ new := fun e => hp (e ▸ rfl)
    have ih := ih fun e => h.fresh (.next e)
    by_cases hco : c = old
    · subst hco
      exact .step (hno'.trans hno.symm ▸ ih)
    · by_cases hcl : c ∈ s.list
      · have hcl' : c ∈ s₁.list := by
          rw [h.list]
          rw [h.split] at hcl
          simpa [hc, hco] using hcl
        rcases after_replace l1 l2 hco hc with e | ⟨e, e'⟩
        · have e : s₁.next c = s.next c := by
            rw [St.next, St.next, if_pos hcl, if_pos hcl', h.list, h.split, e]
          exact .step (e ▸ ih)
        · have e : s.next c = some old := by rw [St.next, if_pos hcl, h.split, e]
          have e' : s₁.next c = some new := by rw [St.next, if_pos hcl', h.list, e']
          rw [e] at ih
          exact .step (e' ▸ .step (hnn.trans hno'.symm ▸ ih.ahead hv.symm))
      · have hcl' : c ∉ s₁.list := fun hm => (h.mem hm).elim hc fun e => hcl e.1
        have e : s₁.next c = s.next c := by
          rw [St.next, St.next, if_neg hcl, if_neg hcl', h.stale, update_of_ne hco]
        exact .step (e ▸ ih)

/-! ## What a step leaves to the waker -/

section
variable {k : Int} {chan : Chan}

/-- `v` is the listed version of the process `k`, and it sleeps on `chan`. -/
structure Waits (s : St n) (k : Int) (chan : Chan) (v : Addr) : Prop where
  mem : v ∈ s.list
  pid : s.pid v = k
  state : (s.procs v).state = .sleeping
  chan : (s.procs v).chan = chan

/-- No version begins to wait, and what waits stays within the reach of a walk. -/
structure Keeps (k : Int) (chan : Chan) (s s' : St n) : Prop where
  waits : ∀ v, Waits s' k chan v → Waits s k chan v
  reach : ∀ v c, Waits s' k chan v → s.Known c → Reach s v (some c) → Reach s' v (some c)
  state : ∀ v < s.fresh, (s.procs v).state ≠ .sleeping → (s'.procs v).state ≠ .sleeping
  mem : k ∈ s.list.map s.pid → k ∈ s'.list.map s'.pid

section
variable (h : Wf s)
include h

/-- A step that publishes nothing: it clears unlinked versions, and of the others it changes neither
the pid nor the state nor the channel. -/
theorem Keeps.quiet (hl : s'.list = s.list) (hs : s'.stale = s.stale)
    (hp : ∀ v < s.fresh, s'.procs v = {} ∧ s.Gone v ∨ (s'.procs v).pid = (s.procs v).pid ∧
      (s'.procs v).state = (s.procs v).state ∧ (s'.procs v).chan = (s.procs v).chan) :
    Keeps k chan s s' := by
  have hlist : ∀ v ∈ s.list, (s'.procs v).pid = (s.procs v).pid ∧
      (s'.procs v).state = (s.procs v).state ∧ (s'.procs v).chan = (s.procs v).chan := fun v hv =>
    (hp v (h.known v (.inl hv)).1).resolve_left fun e => h.gone v e.2 hv
  refine ⟨fun v hv => ?_, fun v c _ _ hr => hr.congr hl hs, fun v hv hst => ?_, fun hm => ?_⟩
  · have hm : v ∈ s.list := hl ▸ hv.mem
    obtain ⟨e1, e2, e3⟩ := hlist v hm
    exact ⟨hm, e1.symm.trans hv.pid, e2.symm.trans hv.state, e3.symm.trans hv.chan⟩
  · rcases hp v hv with ⟨e, -⟩ | ⟨-, e, -⟩
    · rw [e]
      decide
    · rwa [e]
  · obtain ⟨v, hv, e⟩ := mem_map.mp hm
    exact mem_map.mpr ⟨v, hl ▸ hv, (hlist v hv).1.trans e⟩

/-- A step that leaves the structs alone. -/
theorem Keeps.same (hl : s'.list = s.list) (hs : s'.stale = s.stale) (hp : s'.procs = s.procs) :
    Keeps k chan s s' :=
  .quiet h hl hs fun v _ => .inr (by rw [hp]; exact ⟨rfl, rfl, rfl⟩)

theorem Keeps.setLock (v : Addr) (l : Spinlock) (t : Fin n) (pc' : Pc) :
    Keeps k chan s ((s.setLock v l).goto t pc') := by
  refine .quiet h rfl rfl fun w _ => .inr ?_
  by_cases hw : w = v
  · subst hw
    simp [St.setLock, St.goto]
  · simp [St.setLock, St.goto, update_of_ne hw]

theorem Keeps.acquire {c : CpuId} (hn : s.acquire c t v pc' = some s') : Keeps k chan s s' := by
  rcases acquire_cases hn with ⟨-, rfl⟩ | rfl
  · exact .setLock h ..
  · exact .same h rfl rfl rfl

theorem Keeps.release (c : CpuId) (t : Fin n) (v : Addr) (pc' : Pc) :
    Keeps k chan s (s.release c t v pc') := by
  rcases release_cases s c t v pc' with ⟨-, e⟩ | ⟨-, e⟩
  · exact e ▸ .setLock h ..
  · exact e ▸ .same h rfl rfl rfl

theorem Keeps.copy (q : Addr) (f : Proc → Proc) (t : Fin n) (pc' : Pc) :
    Keeps k chan s ((s.copy q f).goto t pc') := by
  refine .quiet h rfl rfl fun v hv => .inr ?_
  simp [St.copy, St.goto, update_of_ne (ne_of_lt hv)]

theorem Keeps.freeproc (hpc : s.pc t = pc) (hv : v ∈ pc.olds) (pc' : Pc) :
    Keeps k chan s ((s.freeproc v).goto t pc') := by
  refine .quiet h rfl rfl fun w _ => ?_
  by_cases hw : w = v
  · subst hw
    exact .inl ⟨by simp [St.freeproc, St.goto], .inl ⟨t, hpc ▸ hv⟩⟩
  · exact .inr (by simp [St.freeproc, St.goto, update_of_ne hw])

end

theorem Published.map_pid {l1 l2 : List Addr} (h : Published s new old l1 l2 s₁) :
    s₁.list.map s₁.pid = s.list.map s.pid := by
  have hp : s₁.pid = s.pid := by
    funext v
    rw [St.pid, St.pid, h.procs]
  rw [hp, h.list, h.split]
  simp [h.pid]

/-- A context publishes a copy that does not sleep. -/
theorem Keeps.publish (h : Wf s) (hpc : s.pc t = pc) (hc : pc.copying = some (q, new))
    (hu : s.listUpdateRcu new q = some (old, s₁)) (hn : (s.procs new).state ≠ .sleeping)
    (pc' : Pc) : Keeps k chan s (s₁.goto t pc') := by
  obtain ⟨-, -, -, -, l1, l2, hp⟩ := h.published (hpc ▸ hc) hu
  have hpr : (s₁.goto t pc').procs = s.procs := hp.procs
  have hmem : ∀ v, Waits (s₁.goto t pc') k chan v → v ∈ s.list ∧ v ≠ old := fun v hv => by
    refine (hp.mem hv.mem).resolve_left fun e => ?_
    have hst := hv.state
    rw [hpr, e] at hst
    exact hn hst
  refine ⟨fun v hv => ⟨(hmem v hv).1, ?_, ?_, ?_⟩, fun v c hv hk hr => ?_,
    fun v _ => by rw [hpr]; exact id, fun hm => ?_⟩
  · rw [← hv.pid, St.pid, St.pid, hpr]
  · rw [← hv.state, hpr]
  · rw [← hv.chan, hpr]
  · refine (hr.publish h hp (fun e => ?_) (hmem v hv).2).congr rfl rfl
    cases e
    exact hp.fresh hk
  · show k ∈ s₁.list.map s₁.pid
    rwa [hp.map_pid]

/-! ## The places of the waker and of the sleeper -/

/-- The second traversal: every version that waits is ahead of it. -/
def Ahead (s : St n) (k : Int) (chan : Chan) : WakePc → Prop
  | .lock _ | .unlock _ => True
  | .visit cur => ∀ v, Waits s k chan v → Reach s v cur
  | .copy cur => ∀ v, Waits s k chan v → Reach s v (some cur)
  | .publish cur new =>
    (s.procs new).state ≠ .sleeping ∧ ∀ v, Waits s k chan v → Reach s v (some cur)
  | .free cur _ => ∀ v, Waits s k chan v → cur ≠ v ∧ Reach s v (some cur)
  | .done => ∀ v, ¬ Waits s k chan v

theorem Ahead.goto {pc : WakePc} (h : Ahead s k chan pc) (t : Fin n) (pc' : Pc) :
    Ahead (s.goto t pc') k chan pc := by
  have hwt : ∀ v, Waits (s.goto t pc') k chan v → Waits s k chan v := fun v hv =>
    ⟨hv.mem, hv.pid, hv.state, hv.chan⟩
  cases pc with
  | lock _ | unlock _ => trivial
  | visit _ | copy _ => exact fun v hv => (h v (hwt v hv)).congr rfl rfl
  | publish _ _ => exact ⟨h.1, fun v hv => (h.2 v (hwt v hv)).congr rfl rfl⟩
  | free _ _ => exact fun v hv => ⟨(h v (hwt v hv)).1, (h v (hwt v hv)).2.congr rfl rfl⟩
  | done => exact fun v hv => h v (hwt v hv)

theorem Ahead.mono (hw : Wf s) {cur : Chan} {kw : Option Int} {lk : Option Addr} {pc : WakePc}
    (hpc : s.pc t = .wake cur kw lk pc) (h : Ahead s k chan pc) (hk : Keeps k chan s s') :
    Ahead s' k chan pc := by
  have href : ∀ v ∈ (Pc.wake cur kw lk pc).refs, s.Known v := fun v hv => .ref (hpc ▸ hv)
  cases pc with
  | lock _ | unlock _ => trivial
  | visit p =>
    intro v hv
    have hr := h v (hk.waits v hv)
    cases p with
    | none => exact (Reach.not_none hr).elim
    | some c => exact hk.reach v c hv (href c (by simp [Pc.refs])) hr
  | copy c => exact fun v hv => hk.reach v c hv (href c (by simp [Pc.refs])) (h v (hk.waits v hv))
  | publish c new =>
    refine ⟨hk.state new ?_ h.1, fun v hv => ?_⟩
    · exact (hw.copy t c new (by rw [hpc]; rfl)).1
    · exact hk.reach v c hv (href c (by simp [Pc.refs])) (h.2 v (hk.waits v hv))
  | free c old =>
    intro v hv
    obtain ⟨hne, hr⟩ := h v (hk.waits v hv)
    exact ⟨hne, hk.reach v c hv (href c (by simp [Pc.refs])) hr⟩
  | done => exact fun v hv => h v (hk.waits v hv)

/-- Behind the publication of `sleep`, the sleeper's context publishes no version that sleeps: what
it runs on `cpu` was selected by `scheduler`. -/
def Late (s : St n) (cpu : CpuId) : Pc → Prop
  | .sleep _ _ pc =>
    match pc with
    | .acquire _ | .release _ | .copy _ | .publish _ _ => False
    | .wokeCopy => ∀ p, s.cpuProc cpu = some p → (s.procs p).state ≠ .sleeping
    | .wokePublish _ new => (s.procs new).state ≠ .sleeping
    | _ => True
  | .sched pc =>
    match pc with
    | .publish _ new _ | .install _ new _ _ => (s.procs new).state ≠ .sleeping
    | .swtch .. => ∀ p, s.cpuProc cpu = some p → (s.procs p).state ≠ .sleeping
    | _ => True
  | .wake .. => False
  | .idle .. | .panic _ | .wild => True

theorem Late.mono (hw : Wf s) {cpu : CpuId} (hpc : s.pc t = pc) (h : Late s cpu pc)
    (hk : Keeps k chan s s') (hc : s'.cpuProc cpu = s.cpuProc cpu) : Late s' cpu pc := by
  have href : ∀ v ∈ pc.refs, v < s.fresh := fun v hv => (hw.known v (.ref (hpc ▸ hv))).1
  have hcop : ∀ q v, pc.copying = some (q, v) → v < s.fresh := fun q v e =>
    (hw.copy t q v (hpc ▸ e)).1
  have hcpu : (∀ p, s.cpuProc cpu = some p → (s.procs p).state ≠ .sleeping) →
      ∀ p, s'.cpuProc cpu = some p → (s'.procs p).state ≠ .sleeping := fun h p hp => by
    rw [hc] at hp
    exact hk.state p (hw.known p (.cpuProc hp)).1 (h p hp)
  cases pc with
  | sleep j a pc =>
    cases pc with
    | wokeCopy => exact hcpu h
    | wokePublish p new => exact hk.state new (hcop p new rfl) h
    | _ => exact h
  | sched pc =>
    cases pc with
    | publish cur new init => exact hk.state new (hcop cur new rfl) h
    | install cur new old init => exact hk.state new (href new (by simp [Pc.refs])) h
    | swtch cur new old init => exact hcpu h
    | _ => exact h
  | _ => exact h

/-- The first traversal has still to pass the version `v`. -/
def First (s : St n) (v : Addr) : WakePc → Prop
  | .lock cur => Reach s v cur
  | .unlock cur => cur ≠ v ∧ Reach s v (some cur)
  | _ => False

/-- The waker is between calls, or in `wakeup(chan)` with `lk` held, at a place in `P`. -/
def Waker (chan : Chan) (lk : Addr) (P : WakePc → Prop) : Pc → Prop
  | .idle .. | .panic _ => True
  | .wake chan' _ lk' pc => chan' = chan ∧ lk' = some lk ∧ P pc
  | _ => False

theorem First.congr {pc : WakePc} (h : First s v pc) (hl : s'.list = s.list)
    (hs : s'.stale = s.stale) : First s' v pc := by
  cases pc with
  | lock cur => exact Reach.congr h hl hs
  | unlock cur => exact ⟨h.1, h.2.congr hl hs⟩
  | _ => exact h

theorem First.ahead {pc : WakePc} (h : First s v pc) : Ahead s' k chan pc := by
  cases pc with
  | lock _ | unlock _ => trivial
  | _ => exact h.elim

variable {cfg : Cfg n} {u w : Fin n} {lk : Addr}

theorem Waker.mono {P Q : WakePc → Prop} (h : Waker chan lk P pc)
    (hpq : ∀ kw pc', pc = .wake chan kw (some lk) pc' → P pc' → Q pc') : Waker chan lk Q pc := by
  cases pc with
  | wake chan' kw lk' pc =>
    obtain ⟨rfl, rfl, hp⟩ := h
    exact ⟨rfl, rfl, hpq kw pc rfl hp⟩
  | _ => exact h

/-- How far the sleeper `u` is, and what follows for the waker `w`. -/
inductive Phase (cfg : Cfg n) (u w : Fin n) (k : Int) (chan : Chan) (lk : Addr) (s : St n) : Prop
  /-- Before `release(lk)`: the waker cannot have `lk`. -/
  | holding {pc : SleepPc} (v : Addr) (hpc : s.pc u = .sleep k ⟨chan, lk⟩ pc)
      (hp : pc = .acquire v ∨ pc = .release v ∧ (s.procs v).lock = ⟨true, some (cfg.cpu u)⟩)
      (hv : v ∈ s.list ∧ s.pid v = k) (hlk : s.locks lk = ⟨true, some (cfg.cpu u)⟩)
      (hw : (∃ j, s.pc w = .idle j none) ∨ ∃ e, s.pc w = .panic e)
  /-- Before the publication: the waker cannot pass `v`. -/
  | released {pc : SleepPc} (v : Addr) (hpc : s.pc u = .sleep k ⟨chan, lk⟩ pc)
      (hp : pc = .copy v ∨ ∃ new, pc = .publish v new)
      (hl : (s.procs v).lock = ⟨true, some (cfg.cpu u)⟩) (hv : v ∈ s.list ∧ s.pid v = k)
      (hw : Waker chan lk (First s v) (s.pc w))
  | published (hs : Late s (cfg.cpu u) (s.pc u)) (hw : Waker chan lk (Ahead s k chan) (s.pc w))

/-- The invariant of the handshake. -/
structure WakeInv (cfg : Cfg n) (u w : Fin n) (k : Int) (chan : Chan) (lk : Addr) (s : St n) :
    Prop where
  wf : Wf s
  mem : k ∈ s.list.map s.pid
  mine : ∀ v, Waits s k chan v → s.cpuProc (cfg.cpu w) ≠ some v
  phase : Phase cfg u w k chan lk s

section
variable (h : WakeInv cfg u w k chan lk s)
include h

theorem WakeInv.of (hw : Wf s') (hk : Keeps k chan s s')
    (hc : s'.cpuProc (cfg.cpu w) = s.cpuProc (cfg.cpu w)) (hp : Phase cfg u w k chan lk s') :
    WakeInv cfg u w k chan lk s' :=
  ⟨hw, hk.mem h.mem, fun v hv => hc ▸ h.mine v (hk.waits v hv), hp⟩

/-- A step of the sleeper's context behind the publication. -/
theorem WakeInv.sleeper (hne : u ≠ w) (hw : Wf s') (ha : Waker chan lk (Ahead s k chan) (s.pc w))
    (hk : Keeps k chan s s') (hpc : s'.pc = update s.pc u pc')
    (hc : s'.cpuProc (cfg.cpu w) = s.cpuProc (cfg.cpu w)) (hl : Late s' (cfg.cpu u) pc') :
    WakeInv cfg u w k chan lk s' := by
  refine h.of hw hk hc (.published ?_ ?_)
  · rw [hpc, update_self]
    exact hl
  · rw [hpc, update_of_ne hne.symm]
    exact ha.mono fun kw pc e hp => hp.mono h.wf e hk

/-- A step of the waker behind the publication. -/
theorem WakeInv.waker (hne : u ≠ w) (hw : Wf s') (hs : Late s (cfg.cpu u) (s.pc u))
    (hk : Keeps k chan s s') (hpc : s'.pc = update s.pc w pc') (hc : s'.cpuProc = s.cpuProc)
    (ha : Waker chan lk (Ahead s' k chan) pc') : WakeInv cfg u w k chan lk s' := by
  refine h.of hw hk (by rw [hc]) (.published ?_ ?_)
  · rw [hpc, update_of_ne hne]
    exact hs.mono h.wf rfl hk (by rw [hc])
  · rw [hpc, update_self]
    exact ha

end

/-! ## Steps of the sleeper's context -/

section
variable (h : WakeInv cfg u w k chan lk s)
include h

theorem WakeInv.sleepLate (hcpu : cfg.cpu u ≠ cfg.cpu w) (hs : Late s (cfg.cpu u) (s.pc u))
    (ha : Waker chan lk (Ahead s k chan) (s.pc w)) {j : Int} {a : Arg} {pc : SleepPc}
    (hpc : s.pc u = .sleep j a pc) (hn : sleepStep cfg s u j a pc = some s') (hw : Wf s') :
    WakeInv cfg u w k chan lk s' := by
  have hne : u ≠ w := fun e => hcpu (e ▸ rfl)
  have hset : ∀ p : Ptr, update s.cpuProc (cfg.cpu u) p (cfg.cpu w) =
      s.cpuProc (cfg.cpu w) := fun p => update_of_ne hcpu.symm ..
  rw [hpc] at hs
  cases pc <;> simp only [sleepStep, bind, bind_eq_some_iff, pure, some.injEq,
    Prod.exists, reduceCtorEq] at hn
  case acquire | release | copy | publish => exact hs.elim
  case unlock p new old =>
    subst hn
    have hk : Keeps k chan s _ := .release h.wf (cfg.cpu u) u new (.sleep j a (.free p new old))
    rcases release_cases s (cfg.cpu u) u new (.sleep j a (.free p new old)) with ⟨-, e⟩ | ⟨-, e⟩
    all_goals
      rw [e] at hw hk ⊢
      exact h.sleeper hne hw ha hk rfl rfl trivial
  case free p new old =>
    subst hn
    exact h.sleeper hne hw ha (.freeproc h.wf hpc (by simp [Pc.olds]) _) rfl rfl trivial
  case install new =>
    subst hn
    exact h.sleeper hne hw ha (.same h.wf rfl rfl rfl) rfl (hset _) trivial
  case memset new =>
    subst hn
    exact h.sleeper hne hw ha (.setLock h.wf ..) rfl rfl trivial
  case sched =>
    obtain ⟨p, -, rfl⟩ := hn
    exact h.sleeper hne hw ha (.same h.wf rfl rfl rfl) rfl rfl trivial
  case wokeCopy =>
    obtain ⟨p, hp, rfl⟩ := hn
    refine h.sleeper hne hw ha (.copy h.wf ..) rfl rfl ?_
    have hst : (s.procs p).state ≠ .sleeping := hs p hp
    simpa [Late, St.copy, St.goto, awake] using hst
  case wokePublish p new =>
    obtain ⟨old, s₁, hu, rfl⟩ := hn
    obtain ⟨-, hc, hp, -⟩ := h.wf.published (by rw [hpc]; rfl) hu
    exact h.sleeper hne hw ha (.publish h.wf hpc rfl hu hs _) (goto_pc hp _ _)
      (congrFun hc _) trivial
  case wokeFree new old =>
    subst hn
    exact h.sleeper hne hw ha (.freeproc h.wf hpc (by simp [Pc.olds]) _) rfl rfl trivial
  case wokeInstall new =>
    subst hn
    exact h.sleeper hne hw ha (.same h.wf rfl rfl rfl) rfl (hset _) trivial
  case wokeAcquire =>
    rcases acquireLk_cases hn with ⟨-, rfl⟩ | rfl
    all_goals exact h.sleeper hne hw ha (.same h.wf rfl rfl rfl) rfl rfl trivial

theorem WakeInv.swtchOut (hne : u ≠ w) (ha : Waker chan lk (Ahead s k chan) (s.pc w)) {j : Int}
    {a : Arg} {p : Addr} {r : Context} (hn : swtchOut s u j a p r = some s') (hw : Wf s') :
    WakeInv cfg u w k chan lk s' := by
  obtain ⟨f, -, ⟨⟩⟩ := bind_eq_some_iff.mp hn
  refine h.sleeper hne hw ha (.quiet h.wf rfl rfl fun v _ => .inr ?_) rfl rfl trivial
  by_cases hv : v = p
  · subst hv
    simp [St.goto]
  · simp [St.goto, update_of_ne hv]

theorem WakeInv.schedLate (hcpu : cfg.cpu u ≠ cfg.cpu w) (hs : Late s (cfg.cpu u) (s.pc u))
    (ha : Waker chan lk (Ahead s k chan) (s.pc w)) {pc : SchedPc} (hpc : s.pc u = .sched pc)
    (hn : schedStep cfg s u pc = some s') (hw : Wf s') : WakeInv cfg u w k chan lk s' := by
  have hne : u ≠ w := fun e => hcpu (e ▸ rfl)
  have hset : ∀ p : Ptr, update s.cpuProc (cfg.cpu u) p (cfg.cpu w) =
      s.cpuProc (cfg.cpu w) := fun p => update_of_ne hcpu.symm ..
  rw [hpc] at hs
  cases pc with
  | top =>
    cases hn
    exact h.sleeper hne hw ha (.same h.wf rfl rfl rfl) rfl rfl trivial
  | visit cur =>
    cases cur with
    | none =>
      cases hn
      exact h.sleeper hne hw ha (.same h.wf rfl rfl rfl) rfl rfl trivial
    | some cur =>
      simp only [schedStep] at hn
      split at hn <;> cases hn
      all_goals exact h.sleeper hne hw ha (.same h.wf rfl rfl rfl) rfl rfl trivial
  | copy cur init =>
    cases hn
    exact h.sleeper hne hw ha (.copy h.wf ..) rfl rfl (by simp [Late, St.copy, St.goto, running])
  | publish cur new init =>
    obtain ⟨⟨old, s₁⟩, hu, ⟨⟩⟩ := bind_eq_some_iff.mp hn
    obtain ⟨-, hc, hp, -, l1, l2, hpub⟩ := h.wf.published (by rw [hpc]; rfl) hu
    refine h.sleeper hne hw ha (.publish h.wf hpc rfl hu hs _) (goto_pc hp _ _)
      (congrFun hc _) ?_
    show (s₁.procs new).state ≠ .sleeping
    rw [hpub.procs]
    exact hs
  | install cur new old init =>
    cases hn
    refine h.sleeper hne hw ha (.same h.wf rfl rfl rfl) rfl (hset _) fun p hp => ?_
    obtain rfl : new = p := by simpa [St.setCpuProc, St.goto] using hp
    exact hs
  | swtch cur new old init =>
    have hwild : Wf (s.goto u .wild) → WakeInv cfg u w k chan lk (s.goto u .wild) := fun hw =>
      h.sleeper hne hw ha (.same h.wf rfl rfl rfl) rfl rfl trivial
    simp only [schedStep] at hn
    split at hn
    · rename_i f _
      split at hn <;> cases hn
      · refine h.sleeper hne hw ha (.same h.wf rfl rfl rfl) rfl rfl ?_
        -- the process goes on in `sleep` or in user space
        cases f.resume with
        | woke a => exact hs
        | user => trivial
      · exact hwild hw
    · cases hn
      exact hwild hw
  | free cur old init =>
    cases hn
    exact h.sleeper hne hw ha (.freeproc h.wf hpc (by simp [Pc.olds]) _) rfl rfl trivial
  | clear cur init =>
    cases hn
    exact h.sleeper hne hw ha (.same h.wf rfl rfl rfl) rfl (hset _) (by cases init <;> trivial)

/-- The sleeper's context before the publication, and the publication. -/
theorem WakeInv.sleepEarly (hne : u ≠ w) {pc : SleepPc} (hpc : s.pc u = .sleep k ⟨chan, lk⟩ pc)
    (hn : sleepStep cfg s u k ⟨chan, lk⟩ pc = some s') (hw : Wf s')
    (hl : ¬ Late s (cfg.cpu u) (s.pc u)) : WakeInv cfg u w k chan lk s' := by
  have hpw : ∀ pc', update s.pc u pc' w = s.pc w := fun pc' =>
    update_of_ne hne.symm ..
  cases h.phase with
  | @holding pc1 v hpc1 hp hv hlk hwk =>
    obtain rfl : pc1 = pc := by
      rw [hpc] at hpc1
      cases hpc1
      rfl
    have hrest : ∀ P, Waker chan lk P (s.pc w) := fun P => by
      rcases hwk with ⟨j, e⟩ | ⟨e, e'⟩
      · rw [e]
        trivial
      · rw [e']
        trivial
    rcases hp with rfl | ⟨rfl, hlock⟩
    · rcases acquire_cases hn with ⟨-, rfl⟩ | rfl
      · refine h.of hw (.setLock h.wf ..) rfl (.holding v (update_self ..) (.inr ⟨rfl, ?_⟩)
          ⟨hv.1, (setLock_pid _ v v).trans hv.2⟩ hlk ?_)
        · simp [St.setLock, St.goto]
        · simpa only [St.goto, St.setLock, hpw] using hwk
      · exact h.sleeper hne hw (hrest _) (.same h.wf rfl rfl rfl) rfl rfl trivial
    · cases hn
      rcases releaseLk_cases s (cfg.cpu u) u lk (.sleep k ⟨chan, lk⟩ (.copy v)) with ⟨-, e⟩ | ⟨-, e⟩
      · rw [e] at hw ⊢
        refine h.of hw (.same h.wf rfl rfl rfl) rfl
            (.released v (update_self ..) (.inl rfl)
          hlock hv ?_)
        simp only [St.goto, hpw]
        exact hrest _
      · rw [e] at hw ⊢
        exact h.sleeper hne hw (hrest _) (.same h.wf rfl rfl rfl) rfl rfl trivial
  | @released pc1 v hpc1 hp hlock hv hwk =>
    obtain rfl : pc1 = pc := by
      rw [hpc] at hpc1
      cases hpc1
      rfl
    rcases hp with rfl | ⟨new, rfl⟩
    · cases hn
      have hvf : v ≠ s.fresh := ne_of_lt (h.wf.known v (.inl hv.1)).1
      refine h.of hw (.copy h.wf ..) rfl (.released v (update_self ..) (.inr ⟨_, rfl⟩) ?_
        ⟨hv.1, ?_⟩ ?_)
      · simpa [St.copy, St.goto, update_of_ne hvf] using hlock
      · simpa [St.pid, St.copy, St.goto, update_of_ne hvf] using hv.2
      · simp only [St.goto, St.copy, hpw]
        exact hwk.mono fun kw pc _ hp => hp.congr rfl rfl
    · obtain ⟨⟨old, s₁⟩, hu, ⟨⟩⟩ := bind_eq_some_iff.mp hn
      obtain ⟨hpid, hc, hp, -, l1, l2, hpub⟩ := h.wf.published (by rw [hpc]; rfl) hu
      refine ⟨hw, ?_, fun x hx => ?_, .published ?_ ?_⟩
      · show k ∈ s₁.list.map s₁.pid
        rw [hpub.map_pid]
        exact h.mem
      · -- only the new version can wait, and the waker's CPU does not know it
        show s₁.cpuProc _ ≠ _
        rw [hc]
        rcases hpub.mem hx.mem with rfl | ⟨hm, hne⟩
        · exact fun e => hpub.fresh (.cpuProc e)
        · refine (hne (h.wf.unique hm (by rw [hpub.split]; simp) ?_)).elim
          rw [hpid, hv.2, ← hx.pid]
          exact congrArg (fun f => (f x).pid) hpub.procs.symm
      · rw [goto_pc hp, update_self]
        trivial
      · rw [goto_pc hp, hpw]
        exact hwk.mono fun kw pc _ hp => hp.ahead
  | published hs _ => exact (hl hs).elim

end

/-! ## Steps of the waker -/

section
variable (h : WakeInv cfg u w k chan lk s) (hne : u ≠ w)
include h hne

/-- `wakeup` behind the publication. -/
theorem WakeInv.wakeLate (hch : chan ≠ cfg.ticks) (hs : Late s (cfg.cpu u) (s.pc u))
    {kw : Option Int} {pc : WakePc} (hpc : s.pc w = .wake chan kw (some lk) pc)
    (ha : Ahead s k chan pc) (hn : wakeStep cfg s w chan kw (some lk) pc = some s') (hw : Wf s') :
    WakeInv cfg u w k chan lk s' := by
  have hgo : ∀ pc', s' = s.goto w (.wake chan kw (some lk) pc') → Ahead s k chan pc' →
      WakeInv cfg u w k chan lk s' := by
    rintro pc' rfl ha
    exact h.waker hne hw hs (.same h.wf rfl rfl rfl) rfl rfl ⟨rfl, rfl, ha.goto ..⟩
  cases pc with
  | lock cur =>
    cases cur with
    | none =>
      cases hn
      exact hgo _ rfl fun v hv => h.wf.reach_head hv.mem
    | some cur =>
      simp only [wakeStep, if_neg hch] at hn
      have hk : Keeps k chan s s' := .acquire h.wf hn
      rcases acquire_cases hn with ⟨-, rfl⟩ | rfl
      · exact h.waker hne hw hs hk rfl rfl ⟨rfl, rfl, trivial⟩
      · exact h.waker hne hw hs hk rfl rfl trivial
  | unlock cur =>
    cases hn
    have hk : Keeps k chan s _ :=
      .release h.wf (cfg.cpu w) w cur (.wake chan kw (some lk) (.lock (s.next cur)))
    rcases release_cases s (cfg.cpu w) w cur (.wake chan kw (some lk) (.lock (s.next cur))) with
      ⟨-, e⟩ | ⟨-, e⟩
    · rw [e] at hw hk ⊢
      exact h.waker hne hw hs hk rfl rfl ⟨rfl, rfl, trivial⟩
    · rw [e] at hw hk ⊢
      exact h.waker hne hw hs hk rfl rfl trivial
  | visit cur =>
    cases cur with
    | none =>
      cases hn
      exact hgo _ rfl fun v hv => Reach.not_none (ha v hv)
    | some cur =>
      simp only [wakeStep] at hn
      split at hn <;> cases hn
      · exact hgo _ rfl ha
      · rename_i hc
        refine hgo _ rfl fun v hv => (ha v hv).ahead ?_
        -- a version that waits is not passed
        rintro rfl
        exact hc ⟨symm (h.mine cur hv), hv.state, hv.chan⟩
  | copy cur =>
    cases hn
    have hk : Keeps k chan s _ :=
      .copy h.wf cur runnable w (.wake chan kw (some lk) (.publish cur s.fresh))
    refine h.waker hne hw hs hk rfl rfl ⟨rfl, rfl, ?_, fun v hv => ?_⟩
    · simp [St.copy, St.goto, runnable]
    · exact (ha v (hk.waits v hv)).congr rfl rfl
  | publish cur new =>
    obtain ⟨⟨old, s₁⟩, hu, ⟨⟩⟩ := bind_eq_some_iff.mp hn
    obtain ⟨hpid, hc, hp, -, l1, l2, hpub⟩ := h.wf.published (by rw [hpc]; rfl) hu
    have hk : Keeps k chan s _ :=
      .publish h.wf hpc rfl hu ha.1 (.wake chan kw (some lk) (.free cur old))
    have hcur : s.Known cur := .ref (t := w) (hpc ▸ by simp [Pc.refs])
    refine h.waker hne hw hs hk (goto_pc hp ..) hc ⟨rfl, rfl, fun v hv => ⟨?_, ?_⟩⟩
    · -- the version with the pid of `cur` is the one that was unlinked
      rintro rfl
      rcases hpub.mem hv.mem with rfl | ⟨hm, hne⟩
      · exact hpub.fresh hcur
      · exact hne (h.wf.unique hm (by rw [hpub.split]; simp) hpid.symm)
    · exact hk.reach v cur hv hcur (ha.2 v (hk.waits v hv))
  | free cur old =>
    cases hn
    have hk : Keeps k chan s _ := .freeproc (v := old) h.wf hpc (by simp [Pc.olds])
      (.wake chan kw (some lk) (.visit (s.next cur)))
    refine h.waker hne hw hs hk rfl rfl ⟨rfl, rfl, fun v hv => ?_⟩
    obtain ⟨hcv, hr⟩ := ha v (hk.waits v hv)
    exact (hr.ahead hcv).congr rfl rfl
  | done =>
    cases hn
    exact h.waker hne hw hs (.same h.wf rfl rfl rfl) rfl rfl trivial

/-- A step of the waker before the publication. -/
theorem WakeInv.wakerEarly {pc : SleepPc} (hpc : s.pc u = .sleep k ⟨chan, lk⟩ pc)
    (hp : pc = .copy v ∨ ∃ new, pc = .publish v new) (hv : v ∈ s.list ∧ s.pid v = k) (hw : Wf s')
    (hk : Keeps k chan s s') (hpc' : s'.pc = update s.pc w pc') (hc : s'.cpuProc = s.cpuProc)
    (hls : s'.list = s.list) (hpid : s'.pid v = s.pid v)
    (hl : (s'.procs v).lock = ⟨true, some (cfg.cpu u)⟩) (hf : Waker chan lk (First s' v) pc') :
    WakeInv cfg u w k chan lk s' := by
  refine h.of hw hk (by rw [hc]) (.released v ?_ hp hl ⟨hls ▸ hv.1, hpid.trans hv.2⟩ ?_)
  · rw [hpc', update_of_ne hne]
    exact hpc
  · rw [hpc', update_self]
    exact hf

/-- `wakeup` before the publication: it cannot acquire the lock of `v`. -/
theorem WakeInv.wakeFirst (hch : chan ≠ cfg.ticks) {pc : SleepPc}
    (hpc : s.pc u = .sleep k ⟨chan, lk⟩ pc) (hp : pc = .copy v ∨ ∃ new, pc = .publish v new)
    (hl : (s.procs v).lock = ⟨true, some (cfg.cpu u)⟩) (hv : v ∈ s.list ∧ s.pid v = k)
    {kw : Option Int} {wpc : WakePc} (hf : First s v wpc)
    (hn : wakeStep cfg s w chan kw (some lk) wpc = some s') (hw : Wf s') :
    WakeInv cfg u w k chan lk s' := by
  have hpan : ∀ e, s' = s.goto w (.panic e) → WakeInv cfg u w k chan lk s' := by
    rintro e rfl
    exact h.wakerEarly hne hpc hp hv hw (.same h.wf rfl rfl rfl) rfl rfl rfl rfl hl trivial
  have hlock : ∀ c l, c ≠ v → ((s.setLock c l).procs v).lock = ⟨true, some (cfg.cpu u)⟩ :=
    fun c l hc => (congrArg Proc.lock (update_of_ne hc.symm ..)).trans hl
  cases wpc with
  | lock cur =>
    cases cur with
    | none => exact (Reach.not_none hf).elim
    | some cur =>
      simp only [wakeStep, if_neg hch] at hn
      rcases acquire_cases hn with ⟨hfree, rfl⟩ | e
      · have hcv : cur ≠ v := by
          rintro rfl
          rw [hl] at hfree
          cases hfree
        exact h.wakerEarly hne hpc hp hv hw (.setLock h.wf ..) rfl rfl rfl (setLock_pid _ cur v)
          (hlock cur _ hcv) ⟨rfl, rfl, hcv, hf.congr rfl rfl⟩
      · exact hpan _ e
  | unlock cur =>
    cases hn
    obtain ⟨hcv, hr⟩ := hf
    rcases release_cases s (cfg.cpu w) w cur (.wake chan kw (some lk) (.lock (s.next cur))) with
      ⟨-, e⟩ | ⟨-, e⟩
    · rw [e] at hw ⊢
      exact h.wakerEarly hne hpc hp hv hw (.setLock h.wf ..) rfl rfl rfl (setLock_pid _ cur v)
        (hlock cur _ hcv) ⟨rfl, rfl, (hr.ahead hcv).congr rfl rfl⟩
    · exact hpan _ e
  | _ => exact hf.elim

end

/-! ## Runs -/

/-- The interleaving of the two: the context `u` of the sleeper goes on (in `sleep`, in `scheduler`
and in what that runs) and makes no call; the waker `w` acquires `lk`, calls `wakeup(chan)` when it
holds `lk`, and goes on. -/
def Handshake (u w : Fin n) (chan : Chan) (lk : Addr) (s : St n) (l : Lbl n) : Prop :=
  match l.ev with
  | .go => l.ctx = u ∨ l.ctx = w
  | .regs _ => l.ctx = u
  | .acquire a => l.ctx = w ∧ a = lk
  | .wakeup chan' => l.ctx = w ∧ chan' = chan ∧ (s.pc w).holdsLk = some lk
  | .release | .sleep _ => False

instance (s : St n) (l : Lbl n) : Decidable (Handshake u w chan lk s l) := by
  unfold Handshake
  split <;> infer_instance

theorem Handshake.ctx {l : Lbl n} (h : Handshake u w chan lk s l) : l.ctx = u ∨ l.ctx = w := by
  unfold Handshake at h
  split at h
  · exact h
  · exact .inl h
  · exact .inr h.1
  · exact .inr h.1
  · exact h.elim
  · exact h.elim

section
variable (h : WakeInv cfg u w k chan lk s)
include h

/-- The sleeper's context only goes on. -/
theorem WakeInv.stepSleeper (hcpu : cfg.cpu u ≠ cfg.cpu w) {ev : Ev}
    (hx : Handshake u w chan lk s ⟨u, ev⟩) (hn : (kernel cfg).next s ⟨u, ev⟩ = some s') :
    WakeInv cfg u w k chan lk s' := by
  have hne : u ≠ w := fun e => hcpu (e ▸ rfl)
  have hw : Wf s' := h.wf.step hn
  cases kernel_cases hn with
  | sleep hpc hn =>
    cases h.phase with
    | holding v hpc1 hp hv hlk hwk =>
      cases hpc1.symm.trans hpc
      refine h.sleepEarly hne hpc hn hw ?_
      rw [hpc1]
      rcases hp with rfl | ⟨rfl, -⟩ <;> exact id
    | released v hpc1 hp hl hv hwk =>
      cases hpc1.symm.trans hpc
      refine h.sleepEarly hne hpc hn hw ?_
      rw [hpc1]
      rcases hp with rfl | ⟨new, rfl⟩ <;> exact id
    | published hs ha => exact h.sleepLate hcpu hs ha hpc hn hw
  | swtch hpc hn =>
    cases h.phase with
    | holding v hpc1 hp hv hlk hwk =>
      cases hpc1.symm.trans hpc
      rcases hp with hp | ⟨hp, -⟩ <;> cases hp
    | released v hpc1 hp hl hv hwk =>
      cases hpc1.symm.trans hpc
      rcases hp with hp | ⟨new, hp⟩ <;> cases hp
    | published hs ha => exact h.swtchOut hne ha hn hw
  | wake hpc hn =>
    cases h.phase with
    | holding v hpc1 => cases hpc1.symm.trans hpc
    | released v hpc1 => cases hpc1.symm.trans hpc
    | published hs ha =>
      rw [hpc] at hs
      exact hs.elim
  | sched hpc hn =>
    cases h.phase with
    | holding v hpc1 => cases hpc1.symm.trans hpc
    | released v hpc1 => cases hpc1.symm.trans hpc
    | published hs ha => exact h.schedLate hcpu hs ha hpc hn hw
  | acquire _ hev =>
    obtain rfl : ev = _ := hev
    exact (hne hx.1).elim
  | release _ hev =>
    obtain rfl : ev = _ := hev
    exact hx.elim
  | callSleep _ hev =>
    obtain rfl : ev = _ := hev
    exact hx.elim
  | callWakeup _ hev =>
    obtain rfl : ev = _ := hev
    exact (hne hx.1).elim

theorem WakeInv.place : Waker chan lk (fun _ => True) (s.pc w) := by
  cases h.phase with
  | holding _ _ _ _ _ hwk =>
    rcases hwk with ⟨j, e⟩ | ⟨e, e'⟩
    · rw [e]
      trivial
    · rw [e']
      trivial
  | released _ _ _ _ _ hwk => exact hwk.mono fun _ _ _ _ => trivial
  | published _ hwk => exact hwk.mono fun _ _ _ _ => trivial

/-- The waker acquires `lk`, calls `wakeup(chan)` and goes on. -/
theorem WakeInv.stepWaker (hne : u ≠ w) (hch : chan ≠ cfg.ticks) {ev : Ev}
    (hx : Handshake u w chan lk s ⟨w, ev⟩) (hn : (kernel cfg).next s ⟨w, ev⟩ = some s') :
    WakeInv cfg u w k chan lk s' := by
  have hw : Wf s' := h.wf.step hn
  have hpl := h.place
  cases kernel_cases hn with
  | sleep hpc _ | swtch hpc _ | sched hpc _ =>
    rw [show s.pc w = _ from hpc] at hpl
    exact hpl.elim
  | wake hpc hn =>
    rw [show s.pc w = _ from hpc] at hpl
    obtain ⟨rfl, rfl, -⟩ := hpl
    cases h.phase with
    | holding _ _ _ _ _ hwk =>
      rcases hwk with ⟨j, e⟩ | ⟨e, e'⟩
      · cases e.symm.trans hpc
      · cases e'.symm.trans hpc
    | released v hpc1 hp hl hv hwk =>
      rw [show s.pc w = _ from hpc] at hwk
      exact h.wakeFirst hne hch hpc1 hp hl hv hwk.2.2 hn hw
    | published hs hwk =>
      rw [show s.pc w = _ from hpc] at hwk
      exact h.wakeLate hne hch hs hpc hwk.2.2 hn hw
  | @acquire j a hpc hev hn =>
    obtain rfl : ev = _ := hev
    obtain rfl : a = lk := hx.2
    cases h.phase with
    | holding v hpc1 hp hv hlk hwk =>
      -- the sleeper has `lk`: the waker spins
      rcases acquireLk_cases hn with ⟨hfree, -⟩ | rfl
      · rw [hlk] at hfree
        cases hfree
      · exact h.of hw (.same h.wf rfl rfl rfl) rfl (.holding v
          ((update_of_ne hne ..).trans hpc1) hp hv hlk
          (.inr ⟨_, update_self ..⟩))
    | released v hpc1 hp hl hv hwk =>
      rcases acquireLk_cases hn with ⟨-, rfl⟩ | rfl
      all_goals
        exact h.wakerEarly hne hpc1 hp hv hw (.same h.wf rfl rfl rfl) rfl rfl rfl rfl hl trivial
    | published hs hwk =>
      rcases acquireLk_cases hn with ⟨-, rfl⟩ | rfl
      all_goals exact h.waker hne hw hs (.same h.wf rfl rfl rfl) rfl rfl trivial
  | release _ hev | callSleep _ hev =>
    obtain rfl : ev = _ := hev
    exact hx.elim
  | @callWakeup j lk' chan' hpc hev hn =>
    obtain rfl : ev = _ := hev
    obtain ⟨-, rfl, hlk'⟩ := hx
    obtain rfl : lk' = some lk := by
      rw [show s.pc w = _ from hpc] at hlk'
      exact hlk'
    subst hn
    cases h.phase with
    | holding _ _ _ _ _ hwk =>
      rcases hwk with ⟨j, e⟩ | ⟨e, e'⟩
      · cases e.symm.trans hpc
      · cases e'.symm.trans hpc
    | released v hpc1 hp hl hv hwk =>
      exact h.wakerEarly hne hpc1 hp hv hw (.same h.wf rfl rfl rfl) rfl rfl rfl rfl hl
        ⟨rfl, rfl, (h.wf.reach_head hv.1).congr rfl rfl⟩
    | published hs hwk =>
      exact h.waker hne hw hs (.same h.wf rfl rfl rfl) rfl rfl ⟨rfl, rfl, trivial⟩

end

/-- The process `k` runs on the CPU of `u` as the listed version `v` and holds `lk`; the waker `w`
holds no lock. Every other context may be anywhere. -/
structure StartSleep (cfg : Cfg n) (u w : Fin n) (k : Int) (lk v : Addr) (s : St n) : Prop where
  wf : Wf s
  sleeper : s.pc u = .idle (some k) (some lk)
  held : s.locks lk = ⟨true, some (cfg.cpu u)⟩
  cpuProc : s.cpuProc (cfg.cpu u) = some v
  mem : v ∈ s.list
  pid : s.pid v = k
  running : (s.procs v).state = .running
  waker : ∃ j, s.pc w = .idle j none

theorem StartSleep.wakeInv (h : StartSleep cfg u w k lk v s) (hne : u ≠ w)
    (hn : (kernel cfg).next s ⟨u, .sleep chan⟩ = some s₁) : WakeInv cfg u w k chan lk s₁ := by
  have hw : Wf s₁ := h.wf.step hn
  obtain rfl : s₁ = s.goto u (.sleep k ⟨chan, lk⟩ (.acquire v)) := by
    simpa [kernel, h.sleeper, h.cpuProc, eq_comm] using hn
  refine ⟨hw, mem_map.mpr ⟨v, h.mem, h.pid⟩, fun x hx => ?_, .holding v
    (update_self ..) (.inl rfl) ⟨h.mem, h.pid⟩ h.held (.inl ?_)⟩
  · obtain rfl : x = v := h.wf.unique hx.mem h.mem (hx.pid.trans h.pid.symm)
    cases h.running.symm.trans hx.state
  · obtain ⟨j, e⟩ := h.waker
    exact ⟨j, (update_of_ne hne.symm ..).trans e⟩

/-- **No lost wakeup.** The process `k` calls `sleep(chan, lk)`; in every interleaving with a waker
that acquires `lk` and calls `wakeup(chan)`, the process is listed when `wakeup` is about to return,
and it does not sleep on `chan`. -/
theorem no_lost_wakeup {s₀ : St n} {ls : List (Lbl n)} {kw : Option Int}
    (hcpu : cfg.cpu u ≠ cfg.cpu w) (hch : chan ≠ cfg.ticks) (h₀ : StartSleep cfg u w k lk v s₀)
    (hn : (kernel cfg).next s₀ ⟨u, .sleep chan⟩ = some s₁)
    (hm : (kernel cfg).Meets (Handshake u w chan lk) s₁ ls) (hr : (kernel cfg).run s₁ ls = some s)
    (hd : s.pc w = .wake chan kw (some lk) .done) :
    (∃ x ∈ s.list, s.pid x = k) ∧ ∀ x ∈ s.list, s.pid x = k →
      ¬ ((s.procs x).state = .sleeping ∧ (s.procs x).chan = chan) := by
  have hne : u ≠ w := fun e => hcpu (e ▸ rfl)
  have hinv : WakeInv cfg u w k chan lk s := by
    refine Machine.run_inv (fun {s l s'} hi hx hstep => ?_) (h₀.wakeInv hne hn) hm hr
    obtain ⟨t, ev⟩ := l
    rcases hx.ctx with e | e
    · obtain rfl : t = u := e
      exact hi.stepSleeper hcpu hx hstep
    · obtain rfl : t = w := e
      exact hi.stepWaker hne hch hx hstep
  refine ⟨mem_map.mp hinv.mem, fun x hx hp hs => ?_⟩
  cases hinv.phase with
  | holding _ _ _ _ _ hwk =>
    rcases hwk with ⟨j, e⟩ | ⟨e, e'⟩
    · cases e.symm.trans hd
    · cases e'.symm.trans hd
  | released _ _ _ _ _ hwk =>
    rw [hd] at hwk
    exact hwk.2.2
  | published _ hwk =>
    rw [hd] at hwk
    exact hwk.2.2 x ⟨hx, hp, hs.1, hs.2⟩

end

theorem demo_startSleep : StartSleep twoCpus 0 1 2 5 0 demo where
  wf := demo_start.lockInv.wf
  sleeper := rfl
  held := rfl
  cpuProc := rfl
  mem := by decide
  pid := rfl
  running := rfl
  waker := ⟨none, rfl⟩

/-- The waker waits for the lock of the old version, which `sleep` clears; then it wakes the new
one. -/
def handshakeRun : List (Lbl 2) :=
  steps 0 2 ++ [⟨1, .acquire 5⟩, ⟨1, .wakeup 7⟩] ++ steps 0 4 ++ steps 1 8

theorem no_lost_wakeup_handshakeRun : ∃ s₁ s, (kernel twoCpus).next demo ⟨0, .sleep 7⟩ = some s₁ ∧
    (kernel twoCpus).run s₁ handshakeRun = some s ∧ s.pc 1 = .wake 7 none (some 5) .done ∧
    ∀ x ∈ s.list, s.pid x = 2 → ¬ ((s.procs x).state = .sleeping ∧ (s.procs x).chan = 7) := by
  have h : (((kernel twoCpus).next demo ⟨0, .sleep 7⟩).bind fun s₁ =>
      ((kernel twoCpus).run s₁ handshakeRun).map (·.pc 1)) =
        some (.wake 7 none (some 5) .done) := by
    decide +kernel
  have hm : ∀ s₁, (kernel twoCpus).next demo ⟨0, .sleep 7⟩ = some s₁ →
      (kernel twoCpus).Meets (Handshake 0 1 7 5) s₁ handshakeRun := by
    decide +kernel
  obtain ⟨s₁, hn, h⟩ := bind_eq_some_iff.mp h
  obtain ⟨s, hs, hd⟩ := Option.map_eq_some_iff.mp h
  exact ⟨s₁, s, hn, hs, hd, (no_lost_wakeup (by decide) (by decide) demo_startSleep hn (hm s₁ hn) hs
    hd).2⟩

end Xv6.Sleep
