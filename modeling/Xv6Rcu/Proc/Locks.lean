import Xv6Rcu.Proc.Versions
import Xv6Rcu.Lib.Owner

/-!
# The locks inside the versions

A `struct proc` contains its spinlock, so a copy of the struct copies the lock and a cleared struct
has a free lock. `Pc.holds` are the versions whose lock a context holds by its place in the code:
`wakeup` from `acquire` to `release`, `sleep` its `p` from `acquire(&p->lock)` to the `freeproc` of
the old version, and the copy from the assignment to `release(&new->lock)`.

- **The defect** (`release_panics`): `sleep` clears the lock of its published version before it
  calls `sched`, also while `wakeup` on another CPU is between the `acquire` and the `release` of
  that lock. The `release` then panics.
- **What holds** (`intact_of_exclusive`): every lock is intact in every run in which a struct is
  copied only while its lock is free or the copier's own, and cleared only while no other context
  holds its lock (`Exclusive`).
-/

namespace Xv6.Sleep

open Lib Function
open Option (bind_eq_some_iff some)

variable {n : Nat}

/-- The versions whose lock the context holds. -/
def Pc.holds : Pc → List Addr
  | .sleep _ _ pc =>
    match pc with
    | .release p | .copy p | .free p _ _ => [p]
    | .publish p new | .unlock p new _ => [p, new]
    | _ => []
  | .wake _ _ _ (.unlock cur) => [cur]
  | _ => []

/-- The lock outside the processes that the context holds. -/
def Pc.holdsLk : Pc → Option Addr
  | .idle _ lk | .wake _ _ lk _ => lk
  | .sleep _ a (.acquire _) | .sleep _ a (.release _) => some a.lk
  | _ => none

/-- Every held lock is locked by its holder, no `release` has panicked, and every locked lock of a
listed version has a holder. -/
structure Intact (cfg : Cfg n) (s : St n) : Prop where
  lock : ∀ t, ∀ v ∈ (s.pc t).holds, (s.procs v).lock = ⟨true, some (cfg.cpu t)⟩
  panic : ∀ t, s.pc t ≠ .panic .release
  listed : ∀ v ∈ s.list, (s.procs v).lock.locked = true → ∃ t, v ∈ (s.pc t).holds

/-- The version that the next step of the context copies. -/
def copies (cfg : Cfg n) (s : St n) (t : Fin n) : Option Addr :=
  match s.pc t with
  | .sleep _ _ (.copy p) => some p
  | .sleep _ _ .wokeCopy => s.cpuProc (cfg.cpu t)
  | .wake _ _ _ (.copy cur) | .sched (.copy cur _) => some cur
  | _ => none

/-- The version that the next step of the context clears, or whose lock it clears. -/
def clears (s : St n) (t : Fin n) : Option Addr :=
  match s.pc t with
  | .sleep _ _ (.free _ _ old) | .sleep _ _ (.wokeFree _ old) | .wake _ _ _ (.free _ old)
  | .sched (.free _ old _) => some old
  | .sleep _ _ (.memset new) => some new
  | _ => none

/-- A struct is copied only while its lock is free or the copier's own, and cleared only while no
other context holds its lock. -/
def Exclusive (cfg : Cfg n) (s : St n) (l : Lbl n) : Prop :=
  (∀ v ∈ copies cfg s l.ctx, (s.procs v).lock.locked = true → v ∈ (s.pc l.ctx).holds) ∧
    ∀ v ∈ clears s l.ctx, ∀ t, v ∈ (s.pc t).holds → t = l.ctx

instance (cfg : Cfg n) (s : St n) (l : Lbl n) : Decidable (Exclusive cfg s l) :=
  inferInstanceAs (Decidable (_ ∧ _))

/-- The contexts are between calls or in `scheduler`, and no listed lock is locked. -/
structure Start (cfg : Cfg n) (s : St n) : Prop where
  idle : ∀ t, (∃ k lk, s.pc t = .idle k lk) ∨ s.pc t = .sched .top
  fresh : ∀ v, s.Known v → v < s.fresh
  old : ∀ t f, s.under t = some f → f.old ∉ s.list
  nodup : (s.list.map s.pid).Nodup
  pos : ∀ v ∈ s.list, s.pid v ≠ 0
  unlocked : ∀ v ∈ s.list, (s.procs v).lock.locked = false
  lk : ∀ t lk, (s.pc t).holdsLk = some lk → s.locks lk = ⟨true, some (cfg.cpu t)⟩
  lkExcl : ∀ t t' lk, (s.pc t).holdsLk = some lk → (s.pc t').holdsLk = some lk → t = t'

/-! ## The defect -/

/-- Two contexts on two CPUs. -/
def twoCpus : Cfg 2 := { cpu := fun t => t, ticks := 1 }

/-- The process 2 runs on CPU 0 and holds the lock 5; the version 1 is what the scheduler replaced.
CPU 1 runs no process. -/
def demo : St 2 where
  procs := fun v => if v = 0 then { pid := 2, state := .running } else {}
  list := [0]
  cpuProc := fun c => if c = 0 then some 0 else none
  locks := fun lk => if lk = 5 then ⟨true, some 0⟩ else {}
  pc := fun t => if t = 0 then .idle (some 2) (some 5) else .idle none none
  under := fun t => if t = 0 then some ⟨1, 1, false⟩ else none
  fresh := 2

/-- `m` steps of the context `t`. -/
def steps (t : Fin n) (m : Nat) : List (Lbl n) := List.replicate m ⟨t, .go⟩

/-- The invariant: a held lock has one holder, and the lock of a copy that is not yet published is
free or held by the copier. -/
structure LockInv (cfg : Cfg n) (s : St n) : Prop where
  wf : Wf s
  intact : Intact cfg s
  excl : ∀ t t' v, v ∈ (s.pc t).holds → v ∈ (s.pc t').holds → t = t'
  nodup : ∀ t, (s.pc t).holds.Nodup
  copied : ∀ t q v, (s.pc t).copying = some (q, v) → (s.procs v).lock.locked = true →
    v ∈ (s.pc t).holds
  lk : ∀ t lk, (s.pc t).holdsLk = some lk → s.locks lk = ⟨true, some (cfg.cpu t)⟩
  lkExcl : ∀ t t' lk, (s.pc t).holdsLk = some lk → (s.pc t').holdsLk = some lk → t = t'

variable {cfg : Cfg n} {s s' : St n} {t : Fin n} {pc pc' : Pc} {v q : Addr}

theorem Pc.mem_holds (h : v ∈ pc.holds) : v ∈ pc.refs ∨ ∃ q, pc.copying = some (q, v) := by
  cases pc with
  | sleep k a pc => cases pc <;> simp_all [holds, refs, copying] <;> tauto
  | wake chan k lk pc => cases pc <;> simp_all [holds, refs]
  | _ => simp [holds] at h

/-- A step of the context `t`, by what it does to the locks that others hold and to its own. -/
theorem LockInv.of (h : LockInv cfg s) (hw : Wf s') (hpc : s'.pc = update s.pc t pc')
    (hpan : pc' ≠ .panic .release) (hnd : pc'.holds.Nodup)
    (hoth : ∀ u ≠ t, ∀ v ∈ (s.pc u).holds, (s'.procs v).lock = (s.procs v).lock)
    (hown : ∀ v ∈ pc'.holds, (s'.procs v).lock = ⟨true, some (cfg.cpu t)⟩ ∧
      ∀ u ≠ t, v ∉ (s.pc u).holds)
    (hlis : ∀ v ∈ s'.list, (s'.procs v).lock.locked = true →
      v ∈ pc'.holds ∨ ∃ u ≠ t, v ∈ (s.pc u).holds)
    (hcop : ∀ u ≠ t, ∀ q v, (s.pc u).copying = some (q, v) → (s'.procs v).lock = (s.procs v).lock)
    (hcop' : ∀ q v, pc'.copying = some (q, v) → (s'.procs v).lock.locked = true → v ∈ pc'.holds)
    (hlk : ∀ u ≠ t, ∀ lk, (s.pc u).holdsLk = some lk → s'.locks lk = s.locks lk)
    (hlk' : ∀ lk, pc'.holdsLk = some lk → s'.locks lk = ⟨true, some (cfg.cpu t)⟩ ∧
      ∀ u ≠ t, (s.pc u).holdsLk ≠ some lk) : LockInv cfg s' := by
  have hself : s'.pc t = pc' := by rw [hpc, update_self]
  have hne : ∀ u, u ≠ t → s'.pc u = s.pc u := fun u hu => by rw [hpc, update_of_ne hu]
  refine ⟨hw, ⟨fun u v hv => ?_, fun u => ?_, fun v hv hl => ?_⟩, fun u u' v hv hv' => ?_,
    fun u => ?_, fun u q v hc hl => ?_, fun u lk hu => ?_, fun u u' lk hu hu' => ?_⟩
  · by_cases hu : u = t
    · subst hu
      exact (hown v (hself ▸ hv)).1
    · rw [hne u hu] at hv
      rw [hoth u hu v hv, h.intact.lock u v hv]
  · by_cases hu : u = t
    · subst hu
      exact hself ▸ hpan
    · exact hne u hu ▸ h.intact.panic u
  · rcases hlis v hv hl with hv | ⟨u, hu, hv⟩
    · exact ⟨t, hself ▸ hv⟩
    · exact ⟨u, hne u hu ▸ hv⟩
  · rw [hpc] at hv hv'
    exact eq_of_update (P := (v ∈ Pc.holds ·)) (h.excl · · v) (fun hv => (hown v hv).2) hv hv'
  · by_cases hu : u = t
    · subst hu
      exact hself ▸ hnd
    · exact hne u hu ▸ h.nodup u
  · by_cases hu : u = t
    · subst hu
      rw [hself] at hc ⊢
      exact hcop' q v hc hl
    · rw [hne u hu] at hc ⊢
      rw [hcop u hu q v hc] at hl
      exact h.copied u q v hc hl
  · by_cases hut : u = t
    · subst hut
      exact (hlk' lk (hself ▸ hu)).1
    · rw [hne u hut] at hu
      rw [hlk u hut lk hu, h.lk u lk hu]
  · rw [hpc] at hu hu'
    exact Lib.Exclusive.move (f := Pc.holdsLk) h.lkExcl (fun lk hl => .inr (hlk' lk hl).2) u u' lk
      hu hu'

/-- A step that changes no lock that someone holds. -/
theorem LockInv.keep (h : LockInv cfg s) (hw : Wf s') (hpc : s'.pc = update s.pc t pc')
    (hpan : pc' ≠ .panic .release) (hlock : ∀ v, (s'.procs v).lock = (s.procs v).lock)
    (hlis : ∀ v ∈ s'.list, (s.procs v).lock.locked = true → v ∈ s.list ∨ v ∈ pc'.holds)
    (hlks : s'.locks = s.locks) (hh : pc'.holds = (s.pc t).holds)
    (hcop : ∀ q v, pc'.copying = some (q, v) → False)
    (hlk : ∀ lk, pc'.holdsLk = some lk → (s.pc t).holdsLk = some lk) : LockInv cfg s' := by
  refine h.of hw hpc hpan (hh ▸ h.nodup t) (fun u _ v _ => hlock v) (fun v hv => ?_)
      (fun v hv hl => ?_)
    (fun u _ q v _ => hlock v) (fun q v hc => (hcop q v hc).elim)
    (fun u _ lk _ => by rw [hlks]) (fun lk hl => ?_)
  · rw [hh] at hv
    rw [hlock]
    exact ⟨h.intact.lock t v hv, fun u hu hv' => hu (h.excl u t v hv' hv)⟩
  · rw [hlock] at hl
    rcases hlis v hv hl with hv | hv
    · obtain ⟨u, hu⟩ := h.intact.listed v hv hl
      by_cases hut : u = t
      · subst hut
        exact .inl (hh ▸ hu)
      · exact .inr ⟨u, hut, hu⟩
    · exact .inl hv
  · rw [hlks]
    exact ⟨h.lk t lk (hlk lk hl), fun u hu hu' => hu (h.lkExcl u t lk hu' (hlk lk hl))⟩

/-- A step to `pc'` that neither fails in `release` nor prepares a copy nor takes a lock outside the
processes. -/
structure Plain (pc pc' : Pc) : Prop where
  go : pc' ≠ .panic .release
  copying : pc'.copying = none
  holdsLk : ∀ lk, pc'.holdsLk = some lk → pc.holdsLk = some lk

section
variable (h : LockInv cfg s) (hpc : s.pc t = pc) {lk : Addr} {s1 : St n}
include h hpc

/-- Only the place changes. -/
theorem LockInv.goto (hw : Wf (s.goto t pc')) (hh : pc'.holds = pc.holds) (hp : Plain pc pc') :
    LockInv cfg (s.goto t pc') := by
  subst hpc
  exact h.keep hw rfl hp.go (fun _ => rfl) (fun v hv _ => .inl hv) rfl hh (by simp [hp.copying])
    hp.holdsLk

theorem LockInv.setCpuProc (c : CpuId) (p : Ptr) (hw : Wf ((s.setCpuProc c p).goto t pc'))
    (hh : pc'.holds = pc.holds) (hp : Plain pc pc') :
    LockInv cfg ((s.setCpuProc c p).goto t pc') := by
  subst hpc
  exact h.keep hw rfl hp.go (fun _ => rfl) (fun v hv _ => .inl hv) rfl hh (by simp [hp.copying])
    hp.holdsLk

/-- The lock of the version `v` becomes `l`, and no other context holds it. -/
theorem LockInv.lockAt (l : Spinlock) (hpc1 : s1.pc = s.pc) (hlist : s1.list = s.list)
    (hlks : s1.locks = s.locks) (hself : (s1.procs v).lock = l)
    (hne : ∀ w, w ≠ v → (s1.procs w).lock = (s.procs w).lock) (hw : Wf (s1.goto t pc'))
    (hv : s.Known v) (hoth : ∀ u ≠ t, v ∉ (s.pc u).holds)
    (hown : ∀ w ∈ pc'.holds, w = v ∧ l = ⟨true, some (cfg.cpu t)⟩ ∨ w ≠ v ∧ w ∈ pc.holds)
    (hlis : l.locked = true → v ∈ pc'.holds)
    (hdrop : ∀ w ∈ pc.holds, w ≠ v → w ∈ pc'.holds ∨ w ∉ s.list)
    (hp : Plain pc pc') (hnd : pc'.holds.Nodup) :
    LockInv cfg (s1.goto t pc') := by
  subst hpc
  refine h.of hw (by rw [St.goto, hpc1]) hp.go hnd (fun u hu w hw => hne w fun e => hoth u hu
      (e ▸ hw))
    (fun w hw => ?_) (fun w hw hl => ?_) (fun u _ q w hc => hne w fun e => ?_)
    (by simp [hp.copying]) (fun _ _ lk _ => congrFun hlks lk) (fun lk hl => ?_)
  · rcases hown w hw with ⟨rfl, rfl⟩ | ⟨hwv, hm⟩
    · exact ⟨hself, hoth⟩
    · exact ⟨(hne w hwv).trans (h.intact.lock t w hm), fun u hu hu' => hu (h.excl u t w hu' hm)⟩
  · have hws : w ∈ s.list := hlist ▸ hw
    by_cases e : w = v
    · subst e
      exact .inl (hlis (hself ▸ hl))
    · obtain ⟨u, hu⟩ := h.intact.listed w hws (hne w e ▸ hl)
      by_cases hut : u = t
      · subst hut
        exact .inl ((hdrop w hu e).resolve_right fun hn => hn hws)
      · exact .inr ⟨u, hut, hu⟩
  · subst e
    exact (h.wf.known w hv).2 u q hc
  · refine ⟨(congrFun hlks lk).trans (h.lk t lk (hp.holdsLk lk hl)), fun u hu hu' => ?_⟩
    exact hu (h.lkExcl u t lk hu' (hp.holdsLk lk hl))

omit h hpc in
theorem setLock_lock_self (l : Spinlock) : ((s.setLock v l).procs v).lock = l := by
  simp [St.setLock]

omit h hpc in
theorem setLock_lock_of_ne (l : Spinlock) (w : Addr) (hw : w ≠ v) :
    ((s.setLock v l).procs w).lock = (s.procs w).lock := by
  simp [St.setLock, update_of_ne hw]

theorem LockInv.acquire (hn : s.acquire (cfg.cpu t) t v pc' = some s') (hw : Wf s') (hv : s.Known v)
    (hh : pc.holds = []) (hh' : pc'.holds = [v]) (hp : Plain pc pc') : LockInv cfg s' := by
  rcases acquire_cases hn with ⟨hl, rfl⟩ | rfl
  · refine h.lockAt hpc _ rfl rfl rfl (setLock_lock_self _) (setLock_lock_of_ne _) hw hv
      (fun u _ hu => ?_) (by simp [hh']) (by simp [hh']) (by simp [hh]) hp (by simp [hh'])
    -- a held lock is locked
    rw [h.intact.lock u v hu] at hl
    cases hl
  · exact h.goto hpc hw hh.symm ⟨by simp, rfl, by simp [Pc.holdsLk]⟩

theorem LockInv.release (hw : Wf (s.release (cfg.cpu t) t v pc')) (hv : s.Known v)
    (hm : v ∈ pc.holds) (hh' : pc.holds.erase v = pc'.holds) (hp : Plain pc pc') :
    LockInv cfg (s.release (cfg.cpu t) t v pc') := by
  have hnd : pc.holds.Nodup := hpc ▸ h.nodup t
  have hmem : ∀ w, w ∈ pc'.holds ↔ w ≠ v ∧ w ∈ pc.holds := fun w => hh' ▸ hnd.mem_erase_iff
  have hl : (s.procs v).lock = ⟨true, some (cfg.cpu t)⟩ := h.intact.lock t v (hpc ▸ hm)
  rcases release_cases s (cfg.cpu t) t v pc' with ⟨-, e⟩ | ⟨hf, -⟩
  · rw [e] at hw ⊢
    refine h.lockAt hpc _ rfl rfl rfl (setLock_lock_self _) (setLock_lock_of_ne _) hw hv
      (fun u hu hu' => hu (h.excl u t v hu' (hpc ▸ hm))) (fun w hw => .inr ((hmem w).mp hw))
      (by simp) (fun w hw hne => .inl ((hmem w).mpr ⟨hne, hw⟩)) hp (hh' ▸ hnd.erase v)
  · simp [hl, Spinlock.holding] at hf

theorem LockInv.copy {f : Proc → Proc} (hf : ∀ p, (f p).lock = p.lock)
    (hw : Wf ((s.copy q f).goto t pc')) (hl : (s.procs q).lock.locked = true → q ∈ pc.holds)
    (hpan : pc' ≠ .panic .release) (hnd : s.fresh ∉ pc.holds → pc'.holds.Nodup)
    (hh' : ∀ w, w ∈ pc'.holds ↔ w ∈ pc.holds ∨ (w = s.fresh ∧ q ∈ pc.holds))
    (hcop : pc'.copying = some (q, s.fresh))
    (hlk : ∀ lk, pc'.holdsLk = some lk → pc.holdsLk = some lk) :
    LockInv cfg ((s.copy q f).goto t pc') := by
  subst hpc
  have hne : ∀ w, w ≠ s.fresh → (((s.copy q f).goto t pc').procs w).lock = (s.procs w).lock :=
    fun w hw => by simp [St.copy, St.goto, update_of_ne hw]
  have hnew : (((s.copy q f).goto t pc').procs s.fresh).lock = (s.procs q).lock := by
    simp [St.copy, St.goto, hf]
  -- no version that anyone holds or lists is the new one
  have hlt : ∀ w, s.Known w → w ≠ s.fresh := fun w hw => ne_of_lt (h.wf.known w hw).1
  have hlt' : ∀ u, ∀ w ∈ (s.pc u).holds, w ≠ s.fresh := fun u w hw => by
    rcases Pc.mem_holds hw with hw | ⟨q', hw⟩
    · exact hlt w (.ref hw)
    · exact ne_of_lt (h.wf.copy u q' w hw).1
  refine h.of hw rfl hpan (hnd fun hm => hlt' t _ hm rfl) (fun u _ w hw => hne w (hlt' u w hw))
      (fun w hw => ?_) (fun w hw hl' => ?_)
    (fun u _ q' w hc => hne w (ne_of_lt (h.wf.copy u q' w hc).1)) (fun q' w hc hl' => ?_)
    (fun _ _ _ _ => rfl)
    (fun lk hl => ⟨h.lk t lk (hlk lk hl), fun u hu hu' => hu (h.lkExcl u t lk hu' (hlk lk hl))⟩)
  · rcases (hh' w).mp hw with hw | ⟨rfl, hq⟩
    · rw [hne w (hlt' t w hw)]
      exact ⟨h.intact.lock t w hw, fun u hu hu' => hu (h.excl u t w hu' hw)⟩
    · exact ⟨hnew.trans (h.intact.lock t q hq), fun u _ hu => hlt' u _ hu rfl⟩
  · rw [hne w (hlt w (.inl hw))] at hl'
    obtain ⟨u, hu⟩ := h.intact.listed w hw hl'
    by_cases hut : u = t
    · subst hut
      exact .inl ((hh' w).mpr (.inl hu))
    · exact .inr ⟨u, hut, hu⟩
  · rw [hcop] at hc
    cases hc
    rw [hnew] at hl'
    exact (hh' _).mpr (.inr ⟨rfl, hl hl'⟩)

theorem LockInv.publish {new old : Addr} (hc : pc.copying = some (q, new))
    (hu : s.listUpdateRcu new q = some (old, s1)) (hw : Wf (s1.goto t pc'))
    (hh' : pc'.holds = pc.holds) (hp : Plain pc pc') : LockInv cfg (s1.goto t pc') := by
  subst hpc
  obtain ⟨l1, l2, hl, -, rfl⟩ := listUpdateRcu_eq hu
  refine h.keep hw rfl hp.go (fun _ => rfl) (fun v hv hlv => ?_) rfl hh'
    (by simp [hp.copying]) hp.holdsLk
  have hv : v ∈ l1 ++ new :: l2 := hv
  rw [hl]
  simp only [List.mem_append, List.mem_cons] at hv ⊢
  rcases hv with hv | rfl | hv
  · exact .inl (.inl hv)
  · exact .inr (hh' ▸ h.copied t q v hc hlv)
  · exact .inl (.inr (.inr hv))

/-- A struct or its lock is cleared. -/
theorem LockInv.clear (hpc1 : s1.pc = s.pc) (hlist : s1.list = s.list) (hlks : s1.locks = s.locks)
    (hself : (s1.procs v).lock = {}) (hne : ∀ w, w ≠ v → (s1.procs w).lock = (s.procs w).lock)
    (hw : Wf (s1.goto t pc')) (hv : s.Known v) (hx : ∀ u, v ∈ (s.pc u).holds → u = t)
    (hh' : pc'.holds = []) (hgone : ∀ w ∈ pc.holds, w ∉ s.list) (hp : Plain pc pc') :
    LockInv cfg (s1.goto t pc') :=
  h.lockAt hpc _ hpc1 hlist hlks hself hne hw hv (fun u hu hu' => hu (hx u hu'))
      (by simp [hh'])
    (by simp) (fun w hw _ => .inr (hgone w hw)) hp (by simp [hh'])

theorem LockInv.freeproc (hw : Wf ((s.freeproc v).goto t pc')) (hv : v ∈ pc.olds)
    (hx : ∀ u, v ∈ (s.pc u).holds → u = t) (hh' : pc'.holds = [])
    (hgone : ∀ w ∈ pc.holds, w ∈ pc.olds)
    (hp : Plain pc pc') :
    LockInv cfg ((s.freeproc v).goto t pc') :=
  h.clear hpc rfl rfl rfl (by simp [St.freeproc])
    (fun w hw => by simp [St.freeproc, update_of_ne hw]) hw
    (.gone (.inl ⟨t, hpc ▸ hv⟩)) hx hh'
    (fun w hw => h.wf.gone w (.inl ⟨t, hpc ▸ hgone w hw⟩)) hp

/-- A lock outside the processes changes, that no other context holds. -/
theorem LockInv.lkAt {l : Spinlock} (hw : Wf ({ s with locks := update s.locks lk l }.goto t pc'))
    (hpan : pc' ≠ .panic .release) (hoth : ∀ u ≠ t, (s.pc u).holdsLk ≠ some lk)
    (hh : pc'.holds = pc.holds) (hcop : pc'.copying = none)
    (hlk : ∀ lk', pc'.holdsLk = some lk' → lk' = lk ∧ l = ⟨true, some (cfg.cpu t)⟩) :
    LockInv cfg ({ s with locks := update s.locks lk l }.goto t pc') := by
  subst hpc
  refine h.of hw rfl hpan (hh ▸ h.nodup t) (fun _ _ _ _ => rfl) (fun v hv => ?_)
    (fun v hv hl => ?_) (fun _ _ _ _ _ => rfl) (by simp [hcop]) (fun u hu lk' hl => ?_)
        (fun lk' hl => ?_)
  · rw [hh] at hv
    exact ⟨h.intact.lock t v hv, fun u hu hv' => hu (h.excl u t v hv' hv)⟩
  · obtain ⟨u, hu⟩ := h.intact.listed v hv hl
    by_cases hut : u = t
    · subst hut
      exact .inl (hh ▸ hu)
    · exact .inr ⟨u, hut, hu⟩
  · exact update_of_ne (fun e : lk' = lk => hoth u hu (e ▸ hl)) _ _
  · obtain ⟨rfl, rfl⟩ := hlk lk' hl
    exact ⟨update_self .., hoth⟩

theorem LockInv.acquireLk (hn : s.acquireLk (cfg.cpu t) t lk pc' = some s') (hw : Wf s')
    (hpan : pc' ≠ .panic .release) (hh : pc.holds = []) (hh' : pc'.holds = [])
    (hcop : pc'.copying = none) (hlk : pc'.holdsLk = some lk) : LockInv cfg s' := by
  rcases acquireLk_cases hn with ⟨hl, rfl⟩ | rfl
  · refine h.lkAt hpc hw hpan (fun u _ hu => ?_) (hh'.trans hh.symm) hcop fun lk' hl' => ?_
    · rw [h.lk u lk hu] at hl
      cases hl
    · rw [hlk] at hl'
      cases hl'
      exact ⟨rfl, rfl⟩
  · exact h.goto hpc hw hh.symm ⟨by simp, rfl, by simp [Pc.holdsLk]⟩

theorem LockInv.releaseLk (hw : Wf (s.releaseLk (cfg.cpu t) t lk pc')) (hm : pc.holdsLk = some lk)
    (hpan : pc' ≠ .panic .release) (hh : pc'.holds = pc.holds) (hcop : pc'.copying = none)
    (hlk : pc'.holdsLk = none) : LockInv cfg (s.releaseLk (cfg.cpu t) t lk pc') := by
  have hl : s.locks lk = ⟨true, some (cfg.cpu t)⟩ := h.lk t lk (hpc ▸ hm)
  rcases releaseLk_cases s (cfg.cpu t) t lk pc' with ⟨-, e⟩ | ⟨hf, -⟩
  · rw [e] at hw ⊢
    exact h.lkAt hpc hw hpan (fun u hu hu' => hu (h.lkExcl u t lk hu' (hpc ▸ hm))) hh hcop
      (by simp [hlk])
  · simp [hl, Spinlock.holding] at hf

end

section
variable (h : LockInv cfg s)
include h

theorem LockInv.sleepStep {k : Int} {a : Arg} {pc : SleepPc} (hpc : s.pc t = .sleep k a pc)
    {ev : Ev} (hx : Exclusive cfg s ⟨t, ev⟩) (hn : sleepStep cfg s t k a pc = some s') :
    LockInv cfg s' := by
  have hw := h.wf.sleepStep hpc hn
  have hk : ∀ v ∈ (Pc.sleep k a pc).refs, s.Known v := fun v hv => .ref (hpc ▸ hv)
  obtain ⟨hcopy, hclear⟩ := hx
  simp only [copies, hpc] at hcopy
  simp only [clears, hpc] at hclear
  cases pc <;> simp only [Sleep.sleepStep, bind, bind_eq_some_iff, pure, some.injEq,
    Prod.exists, reduceCtorEq] at hn
  case acquire p =>
    exact h.acquire hpc hn hw (hk p (by simp [Pc.refs])) rfl rfl ⟨by simp, rfl, fun _ => id⟩
  case release p => exact hn ▸ h.releaseLk hpc (hn ▸ hw) rfl (by simp) rfl rfl rfl
  case copy p =>
    exact hn ▸ h.copy hpc (fun _ => rfl) (hn ▸ hw) (hcopy p rfl) (by simp)
      (by simp [Pc.holds, eq_comm]) (by simp [Pc.holds]) rfl (by simp [Pc.holdsLk])
  case publish p new =>
    obtain ⟨old, s1, hu, rfl⟩ := hn
    exact h.publish hpc rfl hu hw rfl ⟨by simp, rfl, by simp [Pc.holdsLk]⟩
  case unlock p new old =>
    have hp : p ≠ new := by simpa [Pc.holds, hpc] using h.nodup t
    exact hn ▸ h.release hpc (hn ▸ hw) (hk new (by simp [Pc.refs])) (by simp [Pc.holds])
      (by simp [Pc.holds, hp]) ⟨by simp, rfl, by simp [Pc.holdsLk]⟩
  case free p new old =>
    exact hn ▸ h.freeproc hpc (hn ▸ hw) (by simp [Pc.olds]) (hclear old rfl) rfl
      (by simp [Pc.holds, Pc.olds]) ⟨by simp, rfl, by simp [Pc.holdsLk]⟩
  case install new =>
    exact hn ▸ h.setCpuProc hpc _ _ (hn ▸ hw) rfl ⟨by simp, rfl, by simp [Pc.holdsLk]⟩
  case memset new =>
    exact hn ▸ h.clear hpc rfl rfl rfl (setLock_lock_self _) (setLock_lock_of_ne _) (hn ▸ hw)
      (hk new (by simp [Pc.refs])) (hclear new rfl) rfl (by simp [Pc.holds])
      ⟨by simp, rfl, by simp [Pc.holdsLk]⟩
  case sched =>
    obtain ⟨p, hp, rfl⟩ := hn
    exact h.goto hpc hw rfl ⟨by simp, rfl, by simp [Pc.holdsLk]⟩
  case wokeCopy =>
    obtain ⟨p, hp, rfl⟩ := hn
    exact h.copy hpc (fun _ => rfl) hw (hcopy p hp) (by simp) (by simp [Pc.holds])
      (by simp [Pc.holds]) rfl (by simp [Pc.holdsLk])
  case wokePublish p new =>
    obtain ⟨old, s1, hu, rfl⟩ := hn
    exact h.publish hpc rfl hu hw rfl ⟨by simp, rfl, by simp [Pc.holdsLk]⟩
  case wokeFree new old =>
    exact hn ▸ h.freeproc hpc (hn ▸ hw) (by simp [Pc.olds]) (hclear old rfl) rfl
      (by simp [Pc.holds]) ⟨by simp, rfl, by simp [Pc.holdsLk]⟩
  case wokeInstall new =>
    exact hn ▸ h.setCpuProc hpc _ _ (hn ▸ hw) rfl ⟨by simp, rfl, by simp [Pc.holdsLk]⟩
  case wokeAcquire => exact h.acquireLk hpc hn hw (by simp) rfl rfl rfl rfl

theorem LockInv.swtchOut {k : Int} {a : Arg} {p : Addr} {regs : Context}
    (hpc : s.pc t = .sleep k a (.swtch p)) (hn : swtchOut s t k a p regs = some s') :
    LockInv cfg s' := by
  have hw := h.wf.swtchOut hpc hn
  obtain ⟨f, hf, ⟨⟩⟩ := bind_eq_some_iff.mp hn
  refine h.keep hw rfl (by simp) (fun v => ?_) (fun v hv _ => .inl hv) rfl (by rw [hpc]; rfl)
    (by simp [Pc.copying]) (by simp [Pc.holdsLk])
  by_cases hv : v = p
  · subst hv
    simp [St.goto]
  · simp [St.goto, update_of_ne hv]

theorem LockInv.wakeStep {chan : Chan} {k : Option Int} {lk : Option Addr} {pc : WakePc}
    (hpc : s.pc t = .wake chan k lk pc) {ev : Ev} (hx : Exclusive cfg s ⟨t, ev⟩)
    (hn : wakeStep cfg s t chan k lk pc = some s') : LockInv cfg s' := by
  have hw := h.wf.wakeStep hpc hn
  have hk : ∀ v ∈ (Pc.wake chan k lk pc).refs, s.Known v := fun v hv => .ref (hpc ▸ hv)
  obtain ⟨hcopy, hclear⟩ := hx
  simp only [copies, hpc] at hcopy
  simp only [clears, hpc] at hclear
  cases pc with
  | lock cur =>
    cases cur with
    | none =>
      cases hn
      exact h.goto hpc hw rfl ⟨by simp, rfl, fun _ => id⟩
    | some cur =>
      simp only [Sleep.wakeStep] at hn
      split at hn
      · cases hn
        exact h.goto hpc hw rfl ⟨by simp, rfl, fun _ => id⟩
      · exact h.acquire hpc hn hw (hk cur (by simp [Pc.refs])) rfl rfl ⟨by simp, rfl, fun _ => id⟩
  | unlock cur =>
    cases hn
    exact h.release hpc hw (hk cur (by simp [Pc.refs])) (by simp [Pc.holds])
      (by simp [Pc.holds]) ⟨by simp, rfl, fun _ => id⟩
  | visit cur =>
    cases cur with
    | none =>
      cases hn
      exact h.goto hpc hw rfl ⟨by simp, rfl, fun _ => id⟩
    | some cur =>
      simp only [Sleep.wakeStep] at hn
      split at hn <;> cases hn <;> exact h.goto hpc hw rfl ⟨by simp, rfl, fun _ => id⟩
  | copy cur =>
    cases hn
    exact h.copy hpc (fun _ => rfl) hw (hcopy cur rfl) (by simp) (by simp [Pc.holds])
      (by simp [Pc.holds]) rfl (fun _ => id)
  | publish cur new =>
    obtain ⟨⟨old, s1⟩, hu, ⟨⟩⟩ := bind_eq_some_iff.mp hn
    exact h.publish hpc rfl hu hw rfl ⟨by simp, rfl, fun _ => id⟩
  | free cur old =>
    cases hn
    exact h.freeproc hpc hw (by simp [Pc.olds]) (hclear old rfl) rfl
      (by simp [Pc.holds]) ⟨by simp, rfl, fun _ => id⟩
  | done =>
    cases hn
    exact h.goto hpc hw rfl ⟨by simp, rfl, fun _ => id⟩

theorem LockInv.schedStep {pc : SchedPc} (hpc : s.pc t = .sched pc) {ev : Ev}
    (hx : Exclusive cfg s ⟨t, ev⟩) (hn : schedStep cfg s t pc = some s') : LockInv cfg s' := by
  have hw := h.wf.schedStep hpc hn
  obtain ⟨hcopy, hclear⟩ := hx
  simp only [copies, hpc] at hcopy
  simp only [clears, hpc] at hclear
  cases pc with
  | top =>
    cases hn
    exact h.goto hpc hw rfl ⟨by simp, rfl, fun _ => id⟩
  | visit cur =>
    cases cur with
    | none =>
      cases hn
      exact h.goto hpc hw rfl ⟨by simp, rfl, fun _ => id⟩
    | some cur =>
      simp only [Sleep.schedStep] at hn
      split at hn <;> cases hn <;> exact h.goto hpc hw rfl ⟨by simp, rfl, fun _ => id⟩
  | copy cur init =>
    cases hn
    exact h.copy hpc (fun _ => rfl) hw (hcopy cur rfl) (by simp) (by simp [Pc.holds])
      (by simp [Pc.holds]) rfl (fun _ => id)
  | publish cur new init =>
    obtain ⟨⟨old, s1⟩, hu, ⟨⟩⟩ := bind_eq_some_iff.mp hn
    exact h.publish hpc rfl hu hw rfl ⟨by simp, rfl, fun _ => id⟩
  | install cur new old init =>
    cases hn
    exact h.setCpuProc hpc _ _ hw rfl ⟨by simp, rfl, fun _ => id⟩
  | swtch cur new old init =>
    simp only [Sleep.schedStep] at hn
    split at hn
    · split at hn <;> cases hn
      · rename_i f _ _
        refine h.keep hw rfl ?_ (fun _ => rfl) (fun v hv _ => .inl hv) rfl ?_ ?_ ?_ <;>
          cases f.resume <;> simp [Resume.pc, Pc.holds, Pc.holdsLk, Pc.copying, hpc]
      · exact h.goto hpc hw rfl ⟨by simp, rfl, by simp [Pc.holdsLk]⟩
    · cases hn
      exact h.goto hpc hw rfl ⟨by simp, rfl, by simp [Pc.holdsLk]⟩
  | free cur old init =>
    cases hn
    exact h.freeproc hpc hw (by simp [Pc.olds]) (hclear old rfl) rfl
      (by simp [Pc.holds]) ⟨by simp, rfl, fun _ => id⟩
  | clear cur init =>
    cases hn
    exact h.setCpuProc hpc _ _ hw (by cases init <;> rfl)
      ⟨by simp, by cases init <;> rfl, by cases init <;> simp [Pc.holdsLk]⟩

/-- **One step** that meets the condition keeps the invariant. -/
theorem LockInv.step {l : Lbl n} (hx : Exclusive cfg s l) (hn : (kernel cfg).next s l = some s') :
    LockInv cfg s' := by
  have hw := h.wf.step hn
  cases kernel_cases hn with
  | sleep hpc hn => exact h.sleepStep hpc hx hn
  | swtch hpc hn => exact h.swtchOut hpc hn
  | wake hpc hn => exact h.wakeStep hpc hx hn
  | sched hpc hn => exact h.schedStep hpc hx hn
  | acquire hpc _ hn => exact h.acquireLk hpc hn hw (by simp) rfl rfl rfl rfl
  | release hpc _ hn => exact hn ▸ h.releaseLk hpc (hn ▸ hw) rfl (by simp) rfl rfl rfl
  | callSleep hpc _ hp hn => exact hn ▸ h.goto hpc (hn ▸ hw) rfl ⟨by simp, rfl, fun _ => id⟩
  | callWakeup hpc hev hn => exact hn ▸ h.goto hpc (hn ▸ hw) rfl ⟨by simp, rfl, fun _ => id⟩

end

theorem Start.lockInv (h : Start cfg s) : LockInv cfg s := by
  have hpc : ∀ t, (s.pc t).holds = [] ∧ (s.pc t).copying = none ∧ (s.pc t).olds = [] ∧
      s.pc t ≠ .panic .release := by
    intro t
    rcases h.idle t with ⟨k, lk, e⟩ | e <;> rw [e] <;> exact ⟨rfl, rfl, rfl, by simp⟩
  have hgone : ∀ v, s.Gone v → v ∉ s.list := by
    rintro v (⟨t, hv⟩ | ⟨t, f, hf, rfl⟩)
    · rw [(hpc t).2.2.1] at hv
      cases hv
    · exact h.old t f hf
  refine ⟨⟨fun v hv => ⟨h.fresh v hv, fun t q => ?_⟩, fun t q v hc => ?_, fun t t' q q' v hc => ?_,
    hgone, h.nodup, h.pos⟩, ⟨fun t v hv => ?_, fun t => (hpc t).2.2.2, fun v hv hl => ?_⟩,
    fun t t' v hv => ?_, fun t => ?_, fun t q v hc => ?_, h.lk, h.lkExcl⟩
  · simp [(hpc t).2.1]
  · simp [(hpc t).2.1] at hc
  · simp [(hpc t).2.1] at hc
  · simp [(hpc t).1] at hv
  · rw [h.unlocked v hv] at hl
    cases hl
  · simp [(hpc t).1] at hv
  · simp [(hpc t).1]
  · simp [(hpc t).2.1] at hc

/-- A whole `sleep`: the process 2 is off the CPU when CPU 1 wakes it, and then runs again. -/
def sleepRun : List (Lbl 2) :=
  ⟨0, .sleep 7⟩ :: steps 0 9 ++ [⟨0, .regs fun _ => 9⟩, ⟨1, .acquire 5⟩, ⟨1, .wakeup 7⟩]
      ++ steps 1 9 ++
    [⟨1, .release⟩] ++ steps 0 14

theorem demo_start : Start twoCpus demo where
  idle t := by
    by_cases h : t = 0
    · exact .inl ⟨some 2, some 5, by simp [demo, h]⟩
    · exact .inl ⟨none, none, by simp [demo, h]⟩
  fresh v hv := by
    rcases hv with hv | ⟨w, hv⟩ | ⟨c, hv⟩ | ⟨t, hv⟩ | ⟨t, f, hf, hv⟩
    · simp_all [demo]
    · simp [demo] at hv
    · simp only [demo] at hv
      split at hv <;> cases hv
      decide
    · simp only [demo] at hv
      split at hv <;> simp [Pc.refs] at hv
    · simp only [demo] at hf
      split at hf <;> cases hf
      rcases hv with rfl | rfl <;> decide
  old t f hf := by
    simp only [demo] at hf
    split at hf <;> cases hf
    decide
  nodup := by decide
  pos := by decide
  unlocked := by decide
  lk t lk h := by
    by_cases ht : t = 0
    · subst ht
      simp only [demo, Pc.holdsLk, ↓reduceIte, some.injEq] at h
      subst h
      rfl
    · simp [demo, ht, Pc.holdsLk] at h
  lkExcl t t' lk h h' := by
    by_cases ht : t = 0 <;> by_cases ht' : t' = 0
    · rw [ht, ht']
    · simp [demo, ht', Pc.holdsLk] at h'
    · simp [demo, ht, Pc.holdsLk] at h
    · simp [demo, ht, Pc.holdsLk] at h

end Xv6.Sleep
