import Xv6Rcu.Proc.Sleep

/-!
# The versions of the processes

What every run of the machine `kernel` keeps (`Wf`), whatever the schedule:

- no two listed versions have the same pid, and none has the pid 0 of a cleared struct;
- a version that was unlinked is never linked again (`St.Gone`);
- the copy that a context prepares is known to no other context (`St.Known`), until it publishes it.

`kernel_cases` gives the steps of the machine; `Wf.copyStep`, `Wf.publishStep` and `Wf.move` are the
three kinds of steps.
-/

namespace Xv6.Sleep

open Lib Function List
open Option (bind_eq_some_iff some)

variable {n : Nat}

/-! ## What a context knows -/

namespace Pc

/-- The versions that a context refers to, without the copy that it prepares. -/
def refs : Pc → List Addr
  | .sleep _ _ pc =>
    match pc with
    | .acquire p | .release p | .copy p | .publish p _ | .swtch p | .wokePublish p _ => [p]
    | .unlock p new old | .free p new old => [p, new, old]
    | .install new | .memset new | .wokeInstall new => [new]
    | .wokeFree new old => [new, old]
    | .sched | .wokeCopy | .wokeAcquire => []
  | .wake _ _ _ pc =>
    match pc with
    | .lock cur | .visit cur => cur.toList
    | .unlock cur | .copy cur | .publish cur _ => [cur]
    | .free cur old => [cur, old]
    | .done => []
  | .sched pc =>
    match pc with
    | .visit cur => cur.toList
    | .copy cur _ | .publish cur _ _ | .clear cur _ => [cur]
    | .install cur new old _ | .swtch cur new old _ => [cur, new, old]
    | .free cur old _ => [cur, old]
    | .top => []
  | .idle .. | .panic _ | .wild => []

/-- Among them, the versions that its publication unlinked. -/
def olds : Pc → List Addr
  | .sleep _ _ (.unlock p _ old) | .sleep _ _ (.free p _ old) => [p, old]
  | .sleep _ _ (.wokeFree _ old) | .wake _ _ _ (.free _ old) => [old]
  | .sched (.install _ _ old _) | .sched (.swtch _ _ old _) | .sched (.free _ old _) => [old]
  | _ => []

/-- The version that it has copied, and the copy that it is about to publish. -/
def copying : Pc → Option (Addr × Addr)
  | .sleep _ _ (.publish p new) | .sleep _ _ (.wokePublish p new) => some (p, new)
  | .wake _ _ _ (.publish cur new) | .sched (.publish cur new _) => some (cur, new)
  | _ => none

theorem refs_of_olds {pc : Pc} {v : Addr} (h : v ∈ pc.olds) : v ∈ pc.refs := by
  unfold olds at h
  split at h <;> simp_all [refs] <;> tauto

theorem refs_of_copying {pc : Pc} {q v : Addr} (h : pc.copying = some (q, v)) : q ∈ pc.refs := by
  unfold copying at h
  split at h <;> simp_all [refs]

end Pc

/-- A pointer to `v` is stored where a context can find it. -/
def St.Known (s : St n) (v : Addr) : Prop :=
  v ∈ s.list ∨ (∃ w, s.stale w = some v) ∨ (∃ c, s.cpuProc c = some v) ∨
    (∃ t, v ∈ (s.pc t).refs) ∨ ∃ t f, s.under t = some f ∧ (v = f.cur ∨ v = f.old)

/-- `v` was unlinked by a context that still refers to it. -/
def St.Gone (s : St n) (v : Addr) : Prop :=
  (∃ t, v ∈ (s.pc t).olds) ∨ ∃ t f, s.under t = some f ∧ v = f.old

/-- What every run keeps (module doc). -/
structure Wf (s : St n) : Prop where
  known : ∀ v, s.Known v → v < s.fresh ∧ ∀ t q, (s.pc t).copying ≠ some (q, v)
  copy : ∀ t q v, (s.pc t).copying = some (q, v) →
    v < s.fresh ∧ (s.pid v = s.pid q ∨ s.pid q = 0)
  inj : ∀ t t' q q' v, (s.pc t).copying = some (q, v) → (s.pc t').copying = some (q', v) → t = t'
  gone : ∀ v, s.Gone v → v ∉ s.list
  nodup : (s.list.map s.pid).Nodup
  pos : ∀ v ∈ s.list, s.pid v ≠ 0

section
variable {s s' : St n} {t : Fin n} {pc' : Pc} {v q new old : Addr}

theorem St.Known.ref (h : v ∈ (s.pc t).refs) : s.Known v := .inr (.inr (.inr (.inl ⟨t, h⟩)))

theorem St.Known.cpuProc {c : CpuId} (h : s.cpuProc c = some v) : s.Known v :=
  .inr (.inr (.inl ⟨c, h⟩))

theorem mem_of_after {l : List Addr} (h : after v l = some q) : q ∈ l := by
  induction l with
  | nil => cases h
  | cons a l ih =>
    simp only [after] at h
    split at h
    · exact mem_cons_of_mem _ (mem_of_mem_head? (by simp [h]))
    · exact mem_cons_of_mem _ (ih h)

theorem St.Known.head (h : v ∈ s.list.head?) : s.Known v := .inl (mem_of_mem_head? h)

theorem St.Known.next (h : s.next v = some q) : s.Known q := by
  unfold St.next at h
  split at h
  · exact .inl (mem_of_after h)
  · exact .inr (.inl ⟨v, h⟩)

theorem St.Known.gone (h : s.Gone v) : s.Known v := by
  rcases h with ⟨t, h⟩ | ⟨t, f, hf, rfl⟩
  · exact .ref (Pc.refs_of_olds h)
  · exact .inr (.inr (.inr (.inr ⟨t, f, hf, .inr rfl⟩)))

/-- A step that neither prepares a copy nor publishes one. -/
theorem Wf.move (h : Wf s) (hl : s'.list = s.list) (hs : s'.stale = s.stale)
    (hf : s'.fresh = s.fresh) (hpc : s'.pc = update s.pc t pc')
    (hpid : ∀ v, s'.pid v = s.pid v ∨ s'.pid v = 0 ∧ s.Gone v)
    (hcpu : ∀ c v, s'.cpuProc c = some v → s.Known v)
    (hund : ∀ u f, s'.under u = some f → s.Known f.cur ∧ s.Gone f.old)
    (hc : (s.pc t).copying = none) (hc' : pc'.copying = none)
    (hr : ∀ v ∈ pc'.refs, s.Known v) (ho : ∀ v ∈ pc'.olds, s.Gone v) : Wf s' := by
  have hcop : ∀ u, (s'.pc u).copying = (s.pc u).copying := by
    intro u
    rw [hpc]
    by_cases hu : u = t
    · subst hu
      rw [update_self, hc, hc']
    · rw [update_of_ne hu]
  have hkn : ∀ v, s'.Known v → s.Known v := by
    rintro v (hv | ⟨w, hv⟩ | ⟨c, hv⟩ | ⟨u, hv⟩ | ⟨u, f, hf, hv⟩)
    · exact .inl (hl ▸ hv)
    · exact .inr (.inl ⟨w, hs ▸ hv⟩)
    · exact hcpu c v hv
    · rw [hpc] at hv
      by_cases hu : u = t
      · subst hu
        rw [update_self] at hv
        exact hr v hv
      · rw [update_of_ne hu] at hv
        exact .ref hv
    · obtain ⟨h1, h2⟩ := hund u f hf
      rcases hv with rfl | rfl
      · exact h1
      · exact .gone h2
  have hgo : ∀ v, s'.Gone v → s.Gone v := by
    rintro v (⟨u, hv⟩ | ⟨u, f, hf, rfl⟩)
    · rw [hpc] at hv
      by_cases hu : u = t
      · subst hu
        rw [update_self] at hv
        exact ho v hv
      · rw [update_of_ne hu] at hv
        exact .inl ⟨u, hv⟩
    · exact (hund u f hf).2
  have hlist : ∀ v ∈ s.list, s'.pid v = s.pid v := fun v hv =>
    (hpid v).resolve_right fun e => h.gone v e.2 hv
  refine ⟨fun v hv => ?_, fun u q v hv => ?_, fun u u' q q' v hv hv' => ?_, fun v hv => ?_, ?_, ?_⟩
  · rw [hf]
    simp only [hcop]
    exact h.known v (hkn v hv)
  · rw [hcop] at hv
    obtain ⟨hlt, hp⟩ := h.copy u q v hv
    refine ⟨by rw [hf]; exact hlt, ?_⟩
    -- the copy is not known, so it keeps its pid
    have hv' : s'.pid v = s.pid v := (hpid v).resolve_right fun e =>
      (h.known v (.gone e.2)).2 u q hv
    rcases hpid q with e | ⟨e, -⟩
    · rw [hv', e]
      exact hp
    · exact .inr e
  · rw [hcop] at hv hv'
    exact h.inj u u' q q' v hv hv'
  · rw [hl]
    exact h.gone v (hgo v hv)
  · rw [hl, map_congr_left hlist]
    exact h.nodup
  · rw [hl]
    intro v hv
    rw [hlist v hv]
    exact h.pos v hv

/-- The listed version of a pid is the only one. -/
theorem Wf.unique (h : Wf s) {v w : Addr} (hv : v ∈ s.list) (hw : w ∈ s.list)
    (e : s.pid v = s.pid w) : v = w :=
  inj_on_of_nodup_map h.nodup hv hw e

/-- The context `t` copies `q`. -/
theorem Wf.copyStep (h : Wf s) {f : Proc → Proc} (hf : (f (s.procs q)).pid = (s.procs q).pid)
    (hq : s.Known q) (hc : (s.pc t).copying = none) (hc' : pc'.copying = some (q, s.fresh))
    (hr : ∀ v ∈ pc'.refs, s.Known v) (ho : pc'.olds = []) : Wf ((s.copy q f).goto t pc') := by
  have hpid : ∀ v < s.fresh, ((s.copy q f).goto t pc').pid v = s.pid v := fun v hv => by
    simp [St.pid, St.copy, St.goto, update_of_ne (ne_of_lt hv)]
  have hpc : ∀ u, ((s.copy q f).goto t pc').pc u = if u = t then pc' else s.pc u := fun u => by
    simp [St.copy, St.goto, update_apply]
  have hkn : ∀ v, ((s.copy q f).goto t pc').Known v → s.Known v := by
    rintro v (hv | hv | hv | ⟨u, hv⟩ | hv)
    · exact .inl hv
    · exact .inr (.inl hv)
    · exact .inr (.inr (.inl hv))
    · rw [hpc] at hv
      split at hv
      · exact hr v hv
      · exact .ref hv
    · exact .inr (.inr (.inr (.inr hv)))
  have hcop : ∀ u q' v, (((s.copy q f).goto t pc').pc u).copying = some (q', v) →
      (u = t ∧ q' = q ∧ v = s.fresh) ∨ (u ≠ t ∧ (s.pc u).copying = some (q', v)) := by
    intro u q' v hv
    rw [hpc] at hv
    split at hv
    · rename_i hu
      rw [hc'] at hv
      cases hv
      exact .inl ⟨hu, rfl, rfl⟩
    · rename_i hu
      exact .inr ⟨hu, hv⟩
  refine ⟨fun v hv => ?_, fun u q' v hv => ?_, fun u u' q1 q2 v hv hv' => ?_, fun v hv => ?_,
      ?_, ?_⟩
  · obtain ⟨hlt, hn⟩ := h.known v (hkn v hv)
    refine ⟨Nat.lt_succ_of_lt hlt, fun u q' hu => ?_⟩
    rcases hcop u q' v hu with ⟨-, -, rfl⟩ | ⟨-, hu⟩
    · exact lt_irrefl _ hlt
    · exact hn u q' hu
  · rcases hcop u q' v hv with ⟨-, rfl, rfl⟩ | ⟨-, hu⟩
    · refine ⟨Nat.lt_succ_self _, .inl ?_⟩
      rw [hpid q' (h.known q' hq).1]
      simpa [St.pid, St.copy, St.goto] using hf
    · obtain ⟨hlt, hp⟩ := h.copy u q' v hu
      refine ⟨Nat.lt_succ_of_lt hlt, ?_⟩
      rw [hpid v hlt, hpid q' (h.known q' (.ref (Pc.refs_of_copying hu))).1]
      exact hp
  · rcases hcop u q1 v hv with ⟨rfl, -, rfl⟩ | ⟨-, hu⟩ <;>
      rcases hcop u' q2 _ hv' with ⟨rfl, -, e⟩ | ⟨-, hu'⟩
    · rfl
    · exact absurd (h.copy _ _ _ hu').1 (lt_irrefl _)
    · exact absurd (e ▸ (h.copy _ _ _ hu).1) (lt_irrefl _)
    · exact h.inj u u' q1 q2 v hu hu'
  · refine h.gone v ?_
    rcases hv with ⟨u, hv⟩ | hv
    · rw [hpc] at hv
      split at hv
      · rw [ho] at hv
        cases hv
      · exact .inl ⟨u, hv⟩
    · exact .inr hv
  · have : s.list.map ((s.copy q f).goto t pc').pid = s.list.map s.pid :=
      map_congr_left fun v hv => hpid v (h.known v (.inl hv)).1
    exact this ▸ h.nodup
  · intro v hv
    rw [hpid v (h.known v (.inl hv)).1]
    exact h.pos v hv

theorem after_middle {l1 l2 : List Addr} (h : v ∉ l1) : after v (l1 ++ v :: l2) = l2.head? := by
  induction l1 with
  | nil => simp [after]
  | cons a l ih =>
    simp only [mem_cons, not_or] at h
    simp [after, Ne.symm h.1, ih h.2]

/-- What `list_update_rcu` does: it replaces the first version with the pid of `q`. -/
theorem listUpdateRcu_eq {s1 : St n} (hu : s.listUpdateRcu new q = some (old, s1)) :
    ∃ l1 l2, s.list = l1 ++ old :: l2 ∧ s.pid old = s.pid q ∧
      s1 = { s with list := l1 ++ new :: l2, stale := update s.stale old l2.head? } := by
  simp only [St.listUpdateRcu, bind, bind_eq_some_iff] at hu
  obtain ⟨old, hf, rfl, rfl⟩ := hu
  obtain ⟨hp, l1, l2, hl, hne, hset⟩ := split_of_find? hf
  refine ⟨l1, l2, hl, hp, ?_⟩
  have hold : old ∉ l1 := fun hm => hne old hm hp
  have hn : s.next old = l2.head? := by
    rw [St.next, hl, if_pos (by simp), after_middle hold]
  rw [hset, hn]

/-- The context `t` publishes its copy. -/
theorem Wf.publishStep (h : Wf s) {s1 : St n} (hc : (s.pc t).copying = some (q, new))
    (hu : s.listUpdateRcu new q = some (old, s1)) (hc' : pc'.copying = none)
    (hr : ∀ v ∈ pc'.refs, v = q ∨ v = new ∨ v = old) (ho : ∀ v ∈ pc'.olds, v = q ∨ v = old) :
    Wf (s1.goto t pc') := by
  obtain ⟨l1, l2, hl, hp, rfl⟩ := listUpdateRcu_eq hu
  have hq : s.Known q := .ref (Pc.refs_of_copying hc)
  have hold : old ∈ s.list := by rw [hl]; simp
  have hnew : ¬ s.Known new := fun hk => (h.known new hk).2 t q hc
  have hpnew : s.pid new = s.pid old := by
    rw [hp]
    exact (h.copy t q new hc).2.resolve_right fun e => h.pos old hold (hp.trans e)
  have hpc : ∀ u, update s.pc t pc' u = if u = t then pc' else s.pc u := fun u => by
    simp [update_apply]
  -- no other listed version has the pid
  have hne : ∀ v, v ∈ l1 ++ l2 → s.pid v ≠ s.pid old := by
    have hnd := h.nodup
    rw [hl] at hnd
    simp only [map_append, map_cons, nodup_append, nodup_cons,
      mem_map, mem_cons] at hnd
    intro v hv e
    rcases mem_append.mp hv with hv | hv
    · exact hnd.2.2 (s.pid v) ⟨v, hv, rfl⟩ (s.pid old) (.inl rfl) e
    · exact hnd.2.1.1 ⟨v, hv, e⟩
  have hmem : ∀ v, v ∈ l1 ++ new :: l2 → v = new ∨ v ∈ l1 ++ l2 := fun v hv => by
    simp only [mem_append, mem_cons] at hv ⊢
    tauto
  have hsub : ∀ v, v ∈ l1 ++ l2 → v ∈ s.list := fun v hv => by
    rw [hl]
    simp only [mem_append] at hv ⊢
    tauto
  have hcop : ∀ u q' v, (update s.pc t pc' u).copying = some (q', v) →
      u ≠ t ∧ (s.pc u).copying = some (q', v) := by
    intro u q' v hv
    rw [hpc] at hv
    split at hv
    · rw [hc'] at hv
      cases hv
    · rename_i hu
      exact ⟨hu, hv⟩
  refine ⟨fun v hv => ?_, fun u q' v hv => h.copy u q' v (hcop u q' v hv).2,
    fun u u' q1 q2 v hv hv' => h.inj u u' q1 q2 v (hcop u q1 v hv).2 (hcop u' q2 v hv').2,
    fun v hv hv' => ?_, ?_, fun v hv => ?_⟩
  · have hk : s.Known v ∨ v = new := by
      rcases hv with hv | ⟨w, hv⟩ | hv | ⟨u, hv⟩ | hv
      · rcases hmem v hv with rfl | hv
        · exact .inr rfl
        · exact .inl (.inl (hsub v hv))
      · simp only [St.goto, update_apply] at hv
        split at hv
        · exact .inl (.inl (hsub v (mem_append_right _ (mem_of_mem_head? hv))))
        · exact .inl (.inr (.inl ⟨w, hv⟩))
      · exact .inl (.inr (.inr (.inl hv)))
      · simp only [St.goto, hpc] at hv
        split at hv
        · rcases hr v hv with rfl | rfl | rfl
          · exact .inl hq
          · exact .inr rfl
          · exact .inl (.inl hold)
        · exact .inl (.ref hv)
      · exact .inl (.inr (.inr (.inr (.inr hv))))
    rcases hk with hk | rfl
    · exact ⟨(h.known v hk).1, fun u q' hu => (h.known v hk).2 u q' (hcop u q' v hu).2⟩
    · refine ⟨(h.copy t q v hc).1, fun u q' hu => ?_⟩
      obtain ⟨hne, hu⟩ := hcop u q' v hu
      exact hne (h.inj u t q' q v hu hc)
  · -- `v` was unlinked before, or is `q` or `old`
    have hg : s.Gone v ∨ v = q ∨ v = old := by
      rcases hv with ⟨u, hv⟩ | hv
      · simp only [St.goto, hpc] at hv
        split at hv
        · exact .inr (ho v hv)
        · exact .inl (.inl ⟨u, hv⟩)
      · exact .inl (.inr hv)
    rcases hmem v hv' with rfl | hm
    · rcases hg with hg | rfl | rfl
      · exact hnew (.gone hg)
      · exact hnew hq
      · exact hnew (.inl hold)
    · rcases hg with hg | rfl | rfl
      · exact h.gone v hg (hsub v hm)
      · exact hne v hm hp.symm
      · exact hne v hm rfl
  · have hnd := h.nodup
    rw [hl] at hnd
    show ((l1 ++ new :: l2).map s.pid).Nodup
    simpa [hpnew] using hnd
  · rcases hmem v hv with rfl | hv
    · exact hpnew ▸ h.pos old hold
    · exact h.pos v (hsub v hv)

/-! ## Lock operations -/

theorem acquire_cases {c : CpuId} {pc : Pc} (h : s.acquire c t v pc = some s') :
    (s.procs v).lock.locked = false ∧ s' = (s.setLock v ⟨true, some c⟩).goto t pc ∨
      s' = s.goto t (.panic .acquire) := by
  simp only [St.acquire, Spinlock.acquire, Option.map_eq_some_iff] at h
  obtain ⟨r, hr, rfl⟩ := h
  split at hr
  · cases hr
    exact .inr rfl
  · split at hr
    · cases hr
    · rename_i hl
      cases hr
      exact .inl ⟨by simpa using hl, rfl⟩

theorem release_cases (s : St n) (c : CpuId) (t : Fin n) (v : Addr) (pc : Pc) :
    (s.procs v).lock.holding c = true ∧ s.release c t v pc = (s.setLock v {}).goto t pc ∨
      (s.procs v).lock.holding c = false ∧ s.release c t v pc = s.goto t (.panic .release) := by
  cases h : (s.procs v).lock.holding c
  · exact .inr ⟨rfl, by simp [St.release, Spinlock.release, h]⟩
  · exact .inl ⟨rfl, by simp [St.release, Spinlock.release, h]⟩

theorem acquireLk_cases {c : CpuId} {lk : Addr} {pc : Pc} (h : s.acquireLk c t lk pc = some s') :
    (s.locks lk).locked = false ∧
        s' = { s with locks := update s.locks lk ⟨true, some c⟩ }.goto t pc ∨
      s' = s.goto t (.panic .acquire) := by
  simp only [St.acquireLk, Spinlock.acquire, Option.map_eq_some_iff] at h
  obtain ⟨r, hr, rfl⟩ := h
  split at hr
  · cases hr
    exact .inr rfl
  · split at hr
    · cases hr
    · rename_i hl
      cases hr
      exact .inl ⟨by simpa using hl, rfl⟩

theorem releaseLk_cases (s : St n) (c : CpuId) (t : Fin n) (lk : Addr) (pc : Pc) :
    (s.locks lk).holding c = true ∧
        s.releaseLk c t lk pc = { s with locks := update s.locks lk {} }.goto t pc ∨
      (s.locks lk).holding c = false ∧ s.releaseLk c t lk pc = s.goto t (.panic .release) := by
  cases h : (s.locks lk).holding c
  · exact .inr ⟨rfl, by simp [St.releaseLk, Spinlock.release, h]⟩
  · exact .inl ⟨rfl, by simp [St.releaseLk, Spinlock.release, h]⟩

theorem setLock_pid (l : Spinlock) (v w : Addr) : (s.setLock v l).pid w = s.pid w := by
  by_cases h : w = v
  · subst h
    simp [St.setLock, St.pid]
  · simp [St.setLock, St.pid, update_of_ne h]

/-! ## Every step -/

section
variable {pc : Pc} (h : Wf s) (hpc : s.pc t = pc)
include h hpc

/-- A step that changes locks, registers and pointers that are known. -/
theorem Wf.quiet (hl : s'.list = s.list) (hs : s'.stale = s.stale) (hf : s'.fresh = s.fresh)
    (hpc' : s'.pc = update s.pc t pc') (hpid : ∀ v, s'.pid v = s.pid v)
    (hcpu : ∀ c v, s'.cpuProc c = some v → s.Known v) (hund : s'.under = s.under)
    (hc : pc.copying = none) (hc' : pc'.copying = none) (hr : ∀ v ∈ pc'.refs, s.Known v)
    (ho : ∀ v ∈ pc'.olds, v ∈ pc.olds) : Wf s' := by
  subst hpc
  refine h.move hl hs hf hpc' (fun v => .inl (hpid v)) hcpu (fun u f hu => ?_) hc hc' hr
    fun v hv => .inl ⟨t, ho v hv⟩
  rw [hund] at hu
  exact ⟨.inr (.inr (.inr (.inr ⟨u, f, hu, .inl rfl⟩))), .inr ⟨u, f, hu, rfl⟩⟩

theorem Wf.goto (hc : pc.copying = none) (hc' : pc'.copying = none) (hr : ∀ v ∈ pc'.refs, s.Known v)
    (ho : ∀ v ∈ pc'.olds, v ∈ pc.olds) : Wf (s.goto t pc') :=
  h.quiet hpc rfl rfl rfl rfl (fun _ => rfl) (fun _ _ => St.Known.cpuProc (s := s)) rfl hc hc' hr ho

theorem Wf.setLock (v : Addr) (l : Spinlock) (hc : pc.copying = none) (hc' : pc'.copying = none)
    (hr : ∀ v ∈ pc'.refs, s.Known v) (ho : ∀ v ∈ pc'.olds, v ∈ pc.olds) :
    Wf ((s.setLock v l).goto t pc') :=
  h.quiet hpc rfl rfl rfl rfl (setLock_pid l v) (fun _ _ => St.Known.cpuProc (s := s))
      rfl hc hc' hr ho

theorem Wf.acquire {c : CpuId} (hn : s.acquire c t v pc' = some s') (hc : pc.copying = none)
    (hc' : pc'.copying = none) (hr : ∀ v ∈ pc'.refs, s.Known v) (ho : ∀ v ∈ pc'.olds, v ∈ pc.olds) :
    Wf s' := by
  rcases acquire_cases hn with ⟨-, rfl⟩ | rfl
  · exact h.setLock hpc v _ hc hc' hr ho
  · exact h.goto hpc hc rfl (by simp [Pc.refs]) (by simp [Pc.olds])

theorem Wf.release (c : CpuId) (v : Addr) (hc : pc.copying = none) (hc' : pc'.copying = none)
    (hr : ∀ v ∈ pc'.refs, s.Known v) (ho : ∀ v ∈ pc'.olds, v ∈ pc.olds) :
    Wf (s.release c t v pc') := by
  rcases release_cases s c t v pc' with ⟨-, e⟩ | ⟨-, e⟩
  · exact e ▸ h.setLock hpc v _ hc hc' hr ho
  · exact e ▸ h.goto hpc hc rfl (by simp [Pc.refs]) (by simp [Pc.olds])

theorem Wf.acquireLk {c : CpuId} {lk : Addr} (hn : s.acquireLk c t lk pc' = some s')
    (hc : pc.copying = none) (hc' : pc'.copying = none) (hr : ∀ v ∈ pc'.refs, s.Known v)
    (ho : ∀ v ∈ pc'.olds, v ∈ pc.olds) : Wf s' := by
  rcases acquireLk_cases hn with ⟨-, rfl⟩ | rfl
  · exact h.quiet hpc rfl rfl rfl rfl (fun _ => rfl) (fun _ _ => St.Known.cpuProc (s := s)) rfl hc
      hc' hr ho
  · exact h.goto hpc hc rfl (by simp [Pc.refs]) (by simp [Pc.olds])

theorem Wf.releaseLk (c : CpuId) (lk : Addr) (hc : pc.copying = none) (hc' : pc'.copying = none)
    (hr : ∀ v ∈ pc'.refs, s.Known v) (ho : ∀ v ∈ pc'.olds, v ∈ pc.olds) :
    Wf (s.releaseLk c t lk pc') := by
  rcases releaseLk_cases s c t lk pc' with ⟨-, e⟩ | ⟨-, e⟩
  · exact e ▸ h.quiet hpc rfl rfl rfl rfl (fun _ => rfl) (fun _ _ => St.Known.cpuProc (s := s)) rfl
      hc hc' hr ho
  · exact e ▸ h.goto hpc hc rfl (by simp [Pc.refs]) (by simp [Pc.olds])

theorem Wf.setCpuProc (c : CpuId) {p : Ptr} (hp : ∀ v, p = some v → s.Known v)
    (hc : pc.copying = none) (hc' : pc'.copying = none) (hr : ∀ v ∈ pc'.refs, s.Known v)
    (ho : ∀ v ∈ pc'.olds, v ∈ pc.olds) : Wf ((s.setCpuProc c p).goto t pc') := by
  refine h.quiet hpc rfl rfl rfl rfl (fun _ => rfl) (fun c' v hv => ?_) rfl hc hc' hr ho
  simp only [St.setCpuProc, St.goto, update_apply] at hv
  split at hv
  · exact hp v hv
  · exact .cpuProc hv

theorem Wf.freeproc (hv : v ∈ pc.olds) (hc : pc.copying = none) (hc' : pc'.copying = none)
    (hr : ∀ v ∈ pc'.refs, v ∈ pc.refs ∨
        s.Known v) (ho : pc'.olds = []) : Wf ((s.freeproc v).goto t pc') := by
  subst hpc
  refine h.move rfl rfl rfl rfl (fun w => ?_) (fun _ _ => St.Known.cpuProc (s := s))
    (fun u f hu => ⟨.inr (.inr (.inr (.inr ⟨u, f, hu, .inl rfl⟩))), .inr ⟨u, f, hu, rfl⟩⟩) hc hc'
    (fun w hw => (hr w hw).elim .ref id) (by simp [ho])
  by_cases hw : w = v
  · subst hw
    exact .inr ⟨by simp [St.pid, St.freeproc, St.goto], .inl ⟨t, hv⟩⟩
  · exact .inl (by simp [St.pid, St.freeproc, St.goto, update_of_ne hw])

end

variable {cfg : Cfg n}

theorem Wf.sleepStep (h : Wf s) {k : Int} {a : Arg} {pc : SleepPc} (hpc : s.pc t = .sleep k a pc)
    (hn : sleepStep cfg s t k a pc = some s') : Wf s' := by
  have hk : ∀ v ∈ (Pc.sleep k a pc).refs, s.Known v := fun v hv => .ref (hpc ▸ hv)
  cases pc <;> simp only [Sleep.sleepStep, bind, bind_eq_some_iff, pure, some.injEq,
    Prod.exists, reduceCtorEq] at hn
  case acquire p => exact h.acquire hpc hn rfl rfl hk (by simp [Pc.olds])
  case release p => exact hn ▸ h.releaseLk hpc _ _ rfl rfl hk (by simp [Pc.olds])
  case copy p => exact hn ▸ h.copyStep rfl (hk p (by simp [Pc.refs])) (hpc ▸ rfl) rfl hk rfl
  case publish p new =>
    obtain ⟨old, s1, hu, rfl⟩ := hn
    exact h.publishStep (hpc ▸ rfl) hu rfl (by simp [Pc.refs]) (by simp [Pc.olds])
  case unlock p new old => exact hn ▸ h.release hpc _ _ rfl rfl hk (by simp [Pc.olds])
  case free p new old =>
    exact hn ▸ h.freeproc hpc (by simp [Pc.olds]) rfl rfl (by simp [Pc.refs]) rfl
  case install new =>
    have hnew := hk new (by simp [Pc.refs])
    exact hn ▸ h.setCpuProc hpc _ (by rintro v ⟨⟩; exact hnew) rfl rfl hk (by simp [Pc.olds])
  case memset new => exact hn ▸ h.setLock hpc _ _ rfl rfl (by simp [Pc.refs]) (by simp [Pc.olds])
  case sched =>
    obtain ⟨p, hp, rfl⟩ := hn
    have hp := St.Known.cpuProc hp
    exact h.goto hpc rfl rfl (by simpa [Pc.refs] using hp) (by simp [Pc.olds])
  case wokeCopy =>
    obtain ⟨p, hp, rfl⟩ := hn
    have hp := St.Known.cpuProc hp
    exact h.copyStep rfl hp (hpc ▸ rfl) rfl (by simpa [Pc.refs] using hp) rfl
  case wokePublish p new =>
    obtain ⟨old, s1, hu, rfl⟩ := hn
    exact h.publishStep (hpc ▸ rfl) hu rfl (by simp [Pc.refs]) (by simp [Pc.olds])
  case wokeFree new old =>
    exact hn ▸ h.freeproc hpc (by simp [Pc.olds]) rfl rfl (by simp [Pc.refs]) rfl
  case wokeInstall new =>
    have hnew := hk new (by simp [Pc.refs])
    exact hn ▸ h.setCpuProc hpc _ (by rintro v ⟨⟩; exact hnew) rfl rfl (by simp [Pc.refs])
      (by simp [Pc.olds])
  case wokeAcquire => exact h.acquireLk hpc hn rfl rfl (by simp [Pc.refs]) (by simp [Pc.olds])

theorem Wf.swtchOut (h : Wf s) {k : Int} {a : Arg} {p : Addr} {regs : Context}
    (hpc : s.pc t = .sleep k a (.swtch p)) (hn : swtchOut s t k a p regs = some s') : Wf s' := by
  obtain ⟨f, hf, ⟨⟩⟩ := bind_eq_some_iff.mp hn
  refine h.move rfl rfl rfl rfl (fun v => .inl ?_) (fun _ _ => St.Known.cpuProc (s := s))
    (fun u g hu => ?_) (hpc ▸ rfl) rfl ?_ ?_
  · by_cases hv : v = p
    · subst hv
      simp [St.pid, St.goto]
    · simp [St.pid, St.goto, update_of_ne hv]
  · simp only [St.goto, update_apply] at hu
    split at hu
    · cases hu
    · exact ⟨.inr (.inr (.inr (.inr ⟨u, g, hu, .inl rfl⟩))), .inr ⟨u, g, hu, rfl⟩⟩
  · intro v hv
    exact .inr (.inr (.inr (.inr ⟨t, f, hf, by simpa [Pc.refs] using hv⟩)))
  · intro v hv
    exact .inr ⟨t, f, hf, by simpa [Pc.olds] using hv⟩

theorem Wf.wakeStep (h : Wf s) {chan : Chan} {k : Option Int} {lk : Option Addr} {pc : WakePc}
    (hpc : s.pc t = .wake chan k lk pc) (hn : wakeStep cfg s t chan k lk pc = some s') : Wf s' := by
  have hk : ∀ v ∈ (Pc.wake chan k lk pc).refs, s.Known v := fun v hv => .ref (hpc ▸ hv)
  have hhead : ∀ v ∈ s.list.head?.toList, s.Known v := fun v hv =>
    .head (by simpa using hv)
  have hnext : ∀ w, ∀ v ∈ (s.next w).toList, s.Known v := fun w v hv =>
    .next (Option.mem_toList.mp hv)
  cases pc with
  | lock cur =>
    cases cur with
    | none =>
      cases hn
      exact h.goto hpc rfl rfl hhead (by simp [Pc.olds])
    | some cur =>
      simp only [Sleep.wakeStep] at hn
      split at hn
      · cases hn
        exact h.goto hpc rfl rfl (hnext cur) (by simp [Pc.olds])
      · exact h.acquire hpc hn rfl rfl hk (by simp [Pc.olds])
  | unlock cur =>
    cases hn
    exact h.release hpc _ _ rfl rfl (hnext cur) (by simp [Pc.olds])
  | visit cur =>
    cases cur with
    | none =>
      cases hn
      exact h.goto hpc rfl rfl (by simp [Pc.refs]) (by simp [Pc.olds])
    | some cur =>
      simp only [Sleep.wakeStep] at hn
      split at hn <;> cases hn
      · exact h.goto hpc rfl rfl hk (by simp [Pc.olds])
      · exact h.goto hpc rfl rfl (hnext cur) (by simp [Pc.olds])
  | copy cur =>
    cases hn
    exact h.copyStep rfl (hk cur (by simp [Pc.refs])) (hpc ▸ rfl) rfl hk rfl
  | publish cur new =>
    obtain ⟨⟨old, s1⟩, hu, ⟨⟩⟩ := bind_eq_some_iff.mp hn
    exact h.publishStep (hpc ▸ rfl) hu rfl (by simp [Pc.refs]) (by simp [Pc.olds])
  | free cur old =>
    cases hn
    exact h.freeproc hpc (by simp [Pc.olds]) rfl rfl (fun v hv => .inr (hnext cur v hv)) rfl
  | done =>
    cases hn
    exact h.goto hpc rfl rfl (by simp [Pc.refs]) (by simp [Pc.olds])

theorem Resume.refs_pc (r : Resume) (k : Int) : (r.pc k).refs = [] ∧ (r.pc k).olds = [] ∧
    (r.pc k).copying = none := by
  cases r <;> exact ⟨rfl, rfl, rfl⟩

theorem Wf.schedStep (h : Wf s) {pc : SchedPc} (hpc : s.pc t = .sched pc)
    (hn : schedStep cfg s t pc = some s') : Wf s' := by
  have hk : ∀ v ∈ (Pc.sched pc).refs, s.Known v := fun v hv => .ref (hpc ▸ hv)
  have hnext : ∀ w, ∀ v ∈ (s.next w).toList, s.Known v := fun w v hv =>
    .next (Option.mem_toList.mp hv)
  cases pc with
  | top =>
    simp only [Sleep.schedStep, some.injEq] at hn
    refine hn ▸ h.goto hpc rfl rfl (fun v hv => .head ?_) (by simp [Pc.olds])
    simpa [Pc.refs] using hv
  | visit cur =>
    cases cur with
    | none =>
      cases hn
      exact h.goto hpc rfl rfl (by simp [Pc.refs]) (by simp [Pc.olds])
    | some cur =>
      simp only [Sleep.schedStep] at hn
      split at hn <;> cases hn
      · exact h.goto hpc rfl rfl hk (by simp [Pc.olds])
      · exact h.goto hpc rfl rfl (hnext cur) (by simp [Pc.olds])
  | copy cur init =>
    cases hn
    exact h.copyStep rfl (hk cur (by simp [Pc.refs])) (hpc ▸ rfl) rfl hk rfl
  | publish cur new init =>
    obtain ⟨⟨old, s1⟩, hu, ⟨⟩⟩ := bind_eq_some_iff.mp hn
    exact h.publishStep (hpc ▸ rfl) hu rfl (by simp [Pc.refs]) (by simp [Pc.olds])
  | install cur new old init =>
    simp only [Sleep.schedStep, some.injEq] at hn
    have hnew := hk new (by simp [Pc.refs])
    exact hn ▸ h.setCpuProc hpc _ (by rintro v ⟨⟩; exact hnew) rfl rfl hk (by simp [Pc.olds])
  | swtch cur new old init =>
    have hwild : Wf (s.goto t .wild) := h.goto hpc rfl rfl (by simp [Pc.refs]) (by simp [Pc.olds])
    simp only [Sleep.schedStep] at hn
    split at hn
    · split at hn <;> cases hn
      · rename_i f _ _
        obtain ⟨hr, ho, hc⟩ := f.resume.refs_pc (s.pid new)
        refine h.move rfl rfl rfl rfl (fun _ => .inl rfl) (fun _ _ => St.Known.cpuProc (s := s))
          (fun u g hu => ?_) (hpc ▸ rfl) hc (by simp [hr]) (by simp [ho])
        simp only [St.goto, update_apply] at hu
        split at hu
        · cases hu
          exact ⟨hk cur (by simp [Pc.refs]), .inl ⟨t, hpc ▸ by simp [Pc.olds]⟩⟩
        · exact ⟨.inr (.inr (.inr (.inr ⟨u, g, hu, .inl rfl⟩))), .inr ⟨u, g, hu, rfl⟩⟩
      · exact hwild
    · cases hn
      exact hwild
  | free cur old init =>
    cases hn
    exact h.freeproc hpc (by simp [Pc.olds]) rfl rfl (by simp [Pc.refs]) rfl
  | clear cur init =>
    simp only [Sleep.schedStep, some.injEq] at hn
    refine hn ▸ h.setCpuProc hpc _ (by rintro v ⟨⟩) rfl (by cases init <;> rfl) ?_
      (by cases init <;> simp [Pc.olds])
    cases init
    · exact hnext cur
    · simp [Pc.refs]

/-- The steps of the machine, by where the context is. -/
inductive Move (cfg : Cfg n) (s : St n) (l : Lbl n) (s' : St n) : Prop where
  | sleep {k : Int} {a : Arg} {pc : SleepPc} (hpc : s.pc l.ctx = .sleep k a pc)
      (hn : Sleep.sleepStep cfg s l.ctx k a pc = some s')
  | swtch {k : Int} {a : Arg} {p : Addr} {r : Context} (hpc : s.pc l.ctx = .sleep k a (.swtch p))
      (hn : Sleep.swtchOut s l.ctx k a p r = some s')
  | wake {chan : Chan} {k : Option Int} {lk : Option Addr} {pc : WakePc}
      (hpc : s.pc l.ctx = .wake chan k lk pc) (hn : Sleep.wakeStep cfg s l.ctx chan k lk pc =
          some s')
  | sched {pc : SchedPc} (hpc : s.pc l.ctx = .sched pc)
      (hn : Sleep.schedStep cfg s l.ctx pc = some s')
  | acquire {k : Option Int} {lk : Addr} (hpc : s.pc l.ctx = .idle k none)
      (hev : l.ev = .acquire lk)
      (hn : s.acquireLk (cfg.cpu l.ctx) l.ctx lk (.idle k (some lk)) = some s')
  | release {k : Option Int} {lk : Addr} (hpc : s.pc l.ctx = .idle k (some lk))
      (hev : l.ev = .release)
      (hn : s' = s.releaseLk (cfg.cpu l.ctx) l.ctx lk (.idle k none))
  | callSleep {k : Int} {lk p : Addr} {chan : Chan} (hpc : s.pc l.ctx = .idle (some k) (some lk))
      (hev : l.ev = .sleep chan)
      (hp : s.cpuProc (cfg.cpu l.ctx) = some p)
      (hn : s' = s.goto l.ctx (.sleep k ⟨chan, lk⟩ (.acquire p)))
  | callWakeup {k : Option Int} {lk : Option Addr} {chan : Chan} (hpc : s.pc l.ctx = .idle k lk)
      (hev : l.ev = .wakeup chan)
      (hn : s' = s.goto l.ctx (.wake chan k lk (.lock s.list.head?)))

theorem kernel_cases {l : Lbl n} (hn : (kernel cfg).next s l = some s') : Move cfg s l s' := by
  obtain ⟨t, ev⟩ := l
  simp only [kernel] at hn
  split at hn
  case h_1 => exact .swtch ‹_› hn
  case h_2 => exact .sleep ‹_› hn
  case h_3 => exact .wake ‹_› hn
  case h_4 => exact .sched ‹_› hn
  case h_5 => exact .acquire ‹_› rfl hn
  case h_6 => cases hn; exact .release ‹_› rfl rfl
  case h_7 =>
    obtain ⟨p, hp, ⟨⟩⟩ := bind_eq_some_iff.mp hn
    exact .callSleep ‹_› rfl hp rfl
  case h_8 => cases hn; exact .callWakeup ‹_› rfl rfl
  case h_9 => cases hn

/-- **Every step keeps `Wf`.** -/
theorem Wf.step (h : Wf s) {l : Lbl n} (hn : (kernel cfg).next s l = some s') : Wf s' := by
  cases kernel_cases hn with
  | sleep hpc hn => exact h.sleepStep hpc hn
  | swtch hpc hn => exact h.swtchOut hpc hn
  | wake hpc hn => exact h.wakeStep hpc hn
  | sched hpc hn => exact h.schedStep hpc hn
  | acquire hpc _ hn => exact h.acquireLk hpc hn rfl rfl (by simp [Pc.refs]) (by simp [Pc.olds])
  | release hpc _ hn =>
    exact hn ▸ h.releaseLk hpc _ _ rfl rfl (by simp [Pc.refs]) (by simp [Pc.olds])
  | callSleep hpc _ hp hn =>
    have hp := St.Known.cpuProc hp
    exact hn ▸ h.goto hpc rfl rfl (by simpa [Pc.refs] using hp) (by simp [Pc.olds])
  | callWakeup hpc hev hn =>
    refine hn ▸ h.goto hpc rfl rfl (fun v hv => .head ?_) (by simp [Pc.olds])
    simpa [Pc.refs] using hv

end

end Xv6.Sleep
