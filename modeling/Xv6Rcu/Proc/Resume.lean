import Xv6Rcu.Proc.Locks

/-!
# The registers of a sleeping process

A process in `sleep` publishes its SLEEPING version and unlocks it before `sched` calls `swtch`,
which stores the registers in that version. `wakeup` copies the whole struct, registers included,
and `scheduler` loads the registers from the listed version.

- **The defect** (`wakeup_before_swtch`): `wakeup` copies the SLEEPING version before `swtch` has
  stored into it. The copy has the registers of an earlier `swtch`, and `scheduler` loads those.
- **What holds** (`resumes_of_timely`): if `wakeup` copies a version only when its process is off
  the CPU, and no two calls of `wakeup` on one channel overlap (`Timely`), then `scheduler` loads
  the registers that the process has stored, and so does every copy that `wakeup` publishes contain
  them.

The context `t₀` is the main thread of the CPU that runs processes; every other context only calls
`wakeup`. The proof gives each place in the code an assertion (`RunAt` for `t₀`, `WakeAt` for each
context in `wakeup`) about the one listed version that the context relies on; `RunAt.mono` and
`WakeAt.mono` say that the steps of the other contexts keep it.
-/

namespace Xv6.Sleep

open Lib Function
open Option (bind_eq_some_iff some)

variable {n : Nat}

/-- The `chan` of a context in `wakeup`. -/
def Pc.wakeChan : Pc → Option Chan
  | .wake chan _ _ _ => some chan
  | _ => none

/-- An interrupt handler: it runs no process and calls only `wakeup`. -/
def Pc.isHandler : Pc → Bool
  | .idle none _ | .wake _ none _ _ | .panic _ => true
  | _ => false

/-- The registers in the version `v` are those that its process has stored. -/
def HasFrame (s : St n) (v : Addr) : Prop :=
  ∃ f, s.frames (s.pid v) = some f ∧ (s.procs v).context = f.regs

/-- What `scheduler` is about to load and what `wakeup` is about to publish has the registers of the
process's frame; no context went on at a stale place. -/
structure Resumes (s : St n) : Prop where
  load : ∀ t cur new old init, s.pc t = .sched (.swtch cur new old init) → HasFrame s new
  woken : ∀ t chan k lk cur new, s.pc t = .wake chan k lk (.publish cur new) → HasFrame s new
  wild : ∀ t, s.pc t ≠ .wild

/-- `wakeup` copies a version only after the `swtch` of its process. -/
def Stored (s : St n) (t : Fin n) : Bool :=
  match s.pc t with
  | .wake _ _ _ (.copy cur) => (s.frames (s.pid cur)).isSome
  | _ => true

/-- A call of `wakeup` starts only when no other one is on the same channel. -/
def Alone (s : St n) : Ev → Prop
  | .wakeup chan => ∀ t, (s.pc t).wakeChan ≠ some chan
  | _ => True

instance (s : St n) : (ev : Ev) → Decidable (Alone s ev)
  | .wakeup chan => inferInstanceAs (Decidable (∀ t, (s.pc t).wakeChan ≠ some chan))
  | .go | .regs _ | .acquire _ | .release | .sleep _ => isTrue trivial

def Timely (s : St n) (l : Lbl n) : Prop := Stored s l.ctx = true ∧ Alone s l.ev

instance (s : St n) (l : Lbl n) : Decidable (Timely s l) := inferInstanceAs (Decidable (_ ∧ _))

/-! ## The defect -/

/-- The process 2 sleeps on 7, up to `release(&new->lock)`; CPU 1 does the whole `wakeup(7)`; the
process 2 goes on to `sched` and stores its registers, and the scheduler of CPU 0 runs it. -/
def staleRun : List (Lbl 2) :=
  ⟨0, .sleep 7⟩ :: steps 0 5 ++ [⟨1, .acquire 5⟩, ⟨1, .wakeup 7⟩] ++ steps 1 9 ++ steps 0 4 ++
    [⟨0, .regs fun _ => 9⟩] ++ steps 0 8

/-- `scheduler` is about to load registers that are all 0; the process has stored 9 in each. -/
theorem wakeup_before_swtch : ∃ s, (kernel twoCpus).run demo staleRun = some s ∧
    s.pc 0 = .sched (.swtch 3 4 3 false) ∧ s.pid 4 = 2 ∧ (s.procs 4).context = (fun _ => 0) ∧
    (s.frames 2).map Frame.regs = some (fun _ => 9) ∧ ¬ Resumes s := by
  have h : ((kernel twoCpus).run demo staleRun).map (fun s => (s.pc 0, s.pid 4, (s.procs 4).context,
      (s.frames 2).map Frame.regs)) =
      some (.sched (.swtch 3 4 3 false), 2, fun _ => 0, some fun _ => 9) := by
    decide +kernel
  obtain ⟨s, hs, h⟩ := Option.map_eq_some_iff.mp h
  simp only [Prod.mk.injEq] at h
  obtain ⟨hpc, hpid, hctx, hf⟩ := h
  refine ⟨s, hs, hpc, hpid, hctx, hf, fun hr => ?_⟩
  obtain ⟨f, hf', hc⟩ := hr.load 0 3 4 3 false hpc
  rw [hpid] at hf'
  rw [hf', Option.map_some, some.injEq, ← hc, hctx] at hf
  cases congrFun hf .ra

/-! ## Assertions -/

/-- A struct without its lock. -/
def unlocked (p : Proc) : Proc := { p with lock := {} }

/-- A version without its lock. -/
def core (s : St n) (v : Addr) : Proc := unlocked (s.procs v)

section
variable (c : Addr → Proc) (l : List Addr) (fr : Int → Option Frame)

/-- `v` is listed, it is a version of the process `k`, and its state is `st`. -/
def Is (v : Addr) (k : Int) (st : ProcState) : Prop := v ∈ l ∧ (c v).pid = k ∧ (c v).state = st

/-- The main thread at each place; `cp` is `cpus[c].proc`. The frame of the process that it runs is
empty, and the listed version of that process is RUNNING or, in `sleep`, SLEEPING. -/
def RunAt (cp : Ptr) : Pc → Prop
  | .idle (some k) _ | .wake _ (some k) _ _ => fr k = none ∧ ∃ p, cp = some p ∧ Is c l p k .running
  | .sleep k a pc => fr k = none ∧
    match pc with
    | .acquire p | .release p | .copy p => Is c l p k .running
    | .publish p new => Is c l p k .running ∧ c new = asleep a.chan (c p)
    | .unlock _ new _ | .free _ new _ | .install new => Is c l new k .sleeping
    | .memset new => cp = some new ∧ Is c l new k .sleeping
    | .sched => ∃ p, cp = some p ∧ Is c l p k .sleeping
    | .swtch p => Is c l p k .sleeping
    | .wokeCopy | .wokeAcquire => ∃ p, cp = some p ∧ Is c l p k .running
    | .wokePublish p new => Is c l p k .running ∧ c new = awake (c p)
    | .wokeFree new _ | .wokeInstall new => Is c l new k .running
  | .sched pc =>
    match pc with
    | .copy cur _ => cur ∈ l ∧ (c cur).state = .runnable
    | .publish cur new _ => (cur ∈ l ∧ (c cur).state = .runnable) ∧ c new = running (c cur)
    | .install _ new _ _ => (new ∈ l ∧ (c new).state = .running) ∧
        ∃ f, fr (c new).pid = some f ∧ (c new).context = f.regs
    | .swtch _ new _ _ => cp = some new ∧ (new ∈ l ∧ (c new).state = .running) ∧
        ∃ f, fr (c new).pid = some f ∧ (c new).context = f.regs
    | _ => True
  | .wild => False
  | _ => True

/-- A context in `wakeup` that has selected a version: the version is listed and sleeps on the
channel; once it is copied, its process has stored its registers. -/
def WakeAt : Pc → Prop
  | .wake chan _ _ (.copy cur) => cur ∈ l ∧ (c cur).state = .sleeping ∧ (c cur).chan = chan
  | .wake chan _ _ (.publish cur new) =>
    (cur ∈ l ∧ (c cur).state = .sleeping ∧ (c cur).chan = chan) ∧
      c new = runnable (c cur) ∧ ∃ f, fr (c cur).pid = some f ∧ (c cur).context = f.regs
  | _ => True

end

section
variable {c c' : Addr → Proc} {l l' : List Addr} {fr fr' : Int → Option Frame} {cp : Ptr} {pc : Pc}
  {v : Addr} {k : Int} {st : ProcState}

theorem Is.mono (h : Is c l v k st) (hc : ∀ v ∈ l, c' v = c v)
    (hl : ∀ v ∈ l, ((c v).state = .sleeping → fr (c v).pid = none) → v ∈ l')
    (hs : st = .sleeping → fr k = none) : Is c' l' v k st := by
  obtain ⟨hv, rfl, rfl⟩ := h
  refine ⟨hl v hv hs, ?_, ?_⟩ <;> rw [hc v hv]

/-- The assertion of the main thread survives the steps of the handlers: they replace only SLEEPING
versions of processes that have stored their registers. -/
theorem RunAt.mono (h : RunAt c l fr cp pc) (hc : ∀ v ∈ l, c' v = c v)
    (hn : ∀ q v, pc.copying = some (q, v) → c' v = c v)
    (hl : ∀ v ∈ l, ((c v).state = .sleeping → fr (c v).pid = none) → v ∈ l') :
    RunAt c' l' fr cp pc := by
  have run : ∀ {v k}, Is c l v k .running → Is c' l' v k .running := fun h =>
    h.mono hc hl (by simp)
  have sl : ∀ {v k}, fr k = none → Is c l v k .sleeping → Is c' l' v k .sleeping := fun hf h =>
    h.mono hc hl fun _ => hf
  have mem : ∀ {v st}, (v ∈ l ∧ (c v).state = st) → st ≠ .sleeping → v ∈ l' ∧ (c' v).state =
      st := by
    rintro v st ⟨hv, rfl⟩ hst
    exact ⟨hl v hv fun e => absurd e hst, by rw [hc v hv]⟩
  cases pc with
  | idle k lk =>
    cases k with
    | none => trivial
    | some k =>
      obtain ⟨hf, p, hp, hi⟩ := h
      exact ⟨hf, p, hp, run hi⟩
  | wake chan k lk pc =>
    cases k with
    | none => trivial
    | some k =>
      obtain ⟨hf, p, hp, hi⟩ := h
      exact ⟨hf, p, hp, run hi⟩
  | sleep k a pc =>
    obtain ⟨hf, h⟩ := h
    refine ⟨hf, ?_⟩
    cases pc with
    | acquire p | release p | copy p | wokeFree new old | wokeInstall new => exact run h
    | unlock p new old | free p new old | install new | swtch p => exact sl hf h
    | memset new => exact ⟨h.1, sl hf h.2⟩
    | publish p new => exact ⟨run h.1, by rw [hn p new rfl, hc p h.1.1, h.2]⟩
    | wokePublish p new => exact ⟨run h.1, by rw [hn p new rfl, hc p h.1.1, h.2]⟩
    | sched =>
      obtain ⟨p, hp, hi⟩ := h
      exact ⟨p, hp, sl hf hi⟩
    | wokeCopy | wokeAcquire =>
      obtain ⟨p, hp, hi⟩ := h
      exact ⟨p, hp, run hi⟩
  | sched pc =>
    cases pc with
    | copy cur init => exact mem h (by simp)
    | publish cur new init => exact ⟨mem h.1 (by simp), by rw [hn cur new rfl, hc cur h.1.1, h.2]⟩
    | install cur new old init =>
      obtain ⟨hm, f, hf, hx⟩ := h
      exact ⟨mem hm (by simp), f, by rw [hc new hm.1]; exact ⟨hf, hx⟩⟩
    | swtch cur new old init =>
      obtain ⟨hp, hm, f, hf, hx⟩ := h
      exact ⟨hp, mem hm (by simp), f, by rw [hc new hm.1]; exact ⟨hf, hx⟩⟩
    | _ => trivial
  | wild => exact h
  | panic p => trivial

/-- In `wakeup` the main thread relies on the process that it runs, wherever it is. -/
theorem RunAt.wake {chan : Chan} {k : Option Int} {lk : Option Addr} {pc : WakePc}
    (h : RunAt c l fr cp (.wake chan k lk pc)) (pc' : WakePc) :
    RunAt c l fr cp (.wake chan k lk pc') := by
  cases k with
  | none => trivial
  | some k => exact h

theorem RunAt.idle {k : Option Int} {lk : Option Addr} (h : RunAt c l fr cp (.idle k lk))
    (lk' : Option Addr) : RunAt c l fr cp (.idle k lk') := by
  cases k with
  | none => trivial
  | some k => exact h

/-- The assertion of a context in `wakeup` survives the steps of the others: they do not replace
what sleeps on its channel. -/
theorem WakeAt.mono (h : WakeAt c l fr pc)
    (hc : ∀ v ∈ l, (c' v).state = (c v).state ∧ (c' v).chan = (c v).chan ∧
      ((fr (c v).pid).isSome → c' v = c v))
    (hn : ∀ q v, pc.copying = some (q, v) → c' v = c v)
    (hl : ∀ v ∈ l, (c v).state = .sleeping → pc.wakeChan = some (c v).chan → v ∈ l')
    (hf : ∀ v ∈ l, (c v).state = .sleeping → ∀ f, fr (c v).pid = some f → fr' (c v).pid = some f) :
    WakeAt c' l' fr' pc := by
  cases pc with
  | wake chan k lk pc =>
    cases pc with
    | copy cur =>
      obtain ⟨hv, hs, rfl⟩ := h
      obtain ⟨h1, h2, -⟩ := hc cur hv
      exact ⟨hl cur hv hs rfl, h1.trans hs, h2⟩
    | publish cur new =>
      obtain ⟨⟨hv, hs, rfl⟩, hnew, f, hfr, hx⟩ := h
      have e := (hc cur hv).2.2 (by simp [hfr])
      refine ⟨⟨hl cur hv hs rfl, ?_, ?_⟩, ?_, f, ?_, ?_⟩
      · rw [e, hs]
      · rw [e]
      · rw [hn cur new rfl, e, hnew]
      · rw [e]
        exact hf cur hv hs f hfr
      · rw [e, hx]
    | _ => trivial
  | _ => trivial

end

/-! ## The invariant -/

/-- The version that `scheduler` has replaced and not yet cleared. -/
def Pc.schedOld : Pc → Option Addr
  | .sched (.install _ _ old _) | .sched (.swtch _ _ old _) | .sched (.free _ old _) => some old
  | _ => none

/-- The version that `wakeup` has replaced and not yet cleared. -/
def Pc.wakeOld : Pc → Option Addr
  | .wake _ _ _ (.free _ old) => some old
  | _ => none

/-- A place at which no version is prepared or waits to be cleared. -/
structure Pc.Quiet (pc : Pc) : Prop where
  copying : pc.copying = none
  wakeOld : pc.wakeOld = none
  schedOld : pc.schedOld = none

/-- Where a step takes a context: a handler stays one, a call of `wakeup` was there before or is
alone on its channel, and only `scheduler` goes on in `scheduler`. -/
structure Turn (s : St n) (pc pc' : Pc) : Prop where
  handler : pc.isHandler = true → pc'.isHandler = true
  chan : ∀ chan, pc'.wakeChan = some chan →
    pc.wakeChan = some chan ∨ ∀ u, (s.pc u).wakeChan ≠ some chan
  sched : ∀ p', pc' = .sched p' → ∃ p, pc = .sched p

/-- `v` was allocated, and it is not a copy that a context prepares. -/
def St.Public (s : St n) (v : Addr) : Prop := v < s.fresh ∧ ∀ t q, (s.pc t).copying ≠ some (q, v)

/-- An unlisted version that sleeps was replaced by `wakeup` on its channel, and a RUNNABLE one by
`scheduler`; neither is cleared yet. -/
structure Replaced (t₀ : Fin n) (s : St n) (v : Addr) : Prop where
  sleeping : (s.procs v).state = .sleeping →
    ∃ t k lk cur, s.pc t = .wake (s.procs v).chan k lk (.free cur v)
  runnable : (s.procs v).state = .runnable →
    (s.pc t₀).schedOld = some v ∨ (s.under t₀).map SchedFrame.old = some v

structure ResInv (cfg : Cfg n) (t₀ : Fin n) (s : St n) : Prop where
  wf : Wf s
  run : RunAt (core s) s.list s.frames (s.cpuProc (cfg.cpu t₀)) (s.pc t₀)
  wake : ∀ t, WakeAt (core s) s.list s.frames (s.pc t)
  handler : ∀ t ≠ t₀, (s.pc t).isHandler = true
  one : ∀ t t' chan, (s.pc t).wakeChan = some chan → (s.pc t').wakeChan = some chan → t = t'
  asleep : ∀ v ∈ s.list, (s.procs v).state = .sleeping →
    ∀ f, s.frames (s.pid v) = some f → (s.procs v).context = f.regs
  ready : ∀ v ∈ s.list, (s.procs v).state = .runnable → HasFrame s v
  stale : ∀ v, s.Public v → v ∉ s.list → Replaced t₀ s v
  under : ∀ pc, s.pc t₀ = .sched pc → s.under t₀ = none

section
variable {cfg : Cfg n} {s s' : St n} {t t₀ : Fin n} {pc pc' : Pc} {v q new old : Addr}

theorem core_eq (h : core s' v = core s v) : s'.pid v = s.pid v ∧
    (s'.procs v).state = (s.procs v).state ∧ (s'.procs v).chan = (s.procs v).chan ∧
    (s'.procs v).context = (s.procs v).context :=
  ⟨(congrArg Proc.pid h :), (congrArg Proc.state h :), (congrArg Proc.chan h :),
    (congrArg Proc.context h :)⟩

theorem Replaced.of_unused (h : (s.procs v).state = .unused) : Replaced t₀ s v := by
  constructor <;> intro e <;> rw [h] at e <;> cases e

theorem Turn.sleep {k : Int} {a : Arg} {pc pc' : SleepPc} :
    Turn s (.sleep k a pc) (.sleep k a pc') :=
  ⟨nofun, nofun, nofun⟩

theorem Turn.wake {chan : Chan} {k : Option Int} {lk : Option Addr} {pc pc' : WakePc} :
    Turn s (.wake chan k lk pc) (.wake chan k lk pc') := by
  refine ⟨fun e => ?_, fun _ => .inl, nofun⟩
  cases k with
  | none => rfl
  | some k => cases e

theorem Turn.scheduler {pc pc' : SchedPc} : Turn s (.sched pc) (.sched pc') :=
  ⟨nofun, nofun, fun _ _ => ⟨_, rfl⟩⟩

theorem Turn.idle {k : Option Int} {lk lk' : Option Addr} :
    Turn s (.idle k lk) (.idle k lk') := by
  refine ⟨fun e => ?_, nofun, nofun⟩
  cases k with
  | none => rfl
  | some k => cases e

/-- A version that is public after a step was public before it, unless it is the copy that the
step publishes. -/
theorem St.Public.of (h : s'.Public v) (hf : v < s.fresh) (hpc : s.pc t = pc)
    (hpc' : s'.pc = update s.pc t pc') (hcop : ∀ q, pc.copying ≠ some (q, v)) :
    s.Public v := by
  refine ⟨hf, fun u q hu => ?_⟩
  by_cases hut : u = t
  · exact hcop q (by rw [← hpc, ← hut, hu])
  · exact h.2 u q (by rw [hpc', update_of_ne hut, hu])

/-- A step of `t` that does not clear `v` leaves it replaced. -/
theorem Replaced.mono (h : Replaced t₀ s v) (hc : core s' v = core s v) (hpc : s.pc t = pc)
    (hpc' : s'.pc = update s.pc t pc') (hfree : pc.wakeOld ≠ some v)
    (hold : (s.pc t₀).schedOld = some v ∨ (s.under t₀).map SchedFrame.old = some v →
      (s'.pc t₀).schedOld = some v ∨ (s'.under t₀).map SchedFrame.old = some v) :
    Replaced t₀ s' v := by
  obtain ⟨-, hs, hch, -⟩ := core_eq hc
  refine ⟨fun e => ?_, fun e => hold (h.runnable (hs ▸ e))⟩
  obtain ⟨u, k, lk, cur, hu⟩ := h.sleeping (hs ▸ e)
  have hut : u ≠ t := fun hut => hfree (by rw [← hpc, ← hut, hu]; rfl)
  exact ⟨u, k, lk, cur, by rw [hch, hpc', update_of_ne hut, hu]⟩

/-- `scheduler` keeps no version under a process while it runs. -/
theorem ResInv.under_of (h : ResInv cfg t₀ s) (hun : s'.under = s.under) (hpc : s.pc t = pc)
    (hpc' : s'.pc = update s.pc t pc') (ht : Turn s pc pc') :
    ∀ pc, s'.pc t₀ = .sched pc → s'.under t₀ = none := by
  intro p' hp'
  rw [hun]
  rw [hpc'] at hp'
  by_cases htt : t₀ = t
  · rw [htt, update_self] at hp'
    obtain ⟨p, hp⟩ := ht.sched p' hp'
    exact h.under p (htt ▸ hpc.trans hp)
  · rw [update_of_ne htt] at hp'
    exact h.under p' hp'

section
variable (h : ResInv cfg t₀ s) (hw : Wf s') (hpc : s.pc t = pc)
include h hw hpc

section
variable (hpc' : s'.pc = update s.pc t pc')
include hpc'

/-- The parts of the invariant that depend on the places. -/
theorem ResInv.of (hrun : t = t₀ → RunAt (core s') s'.list s'.frames (s'.cpuProc (cfg.cpu t₀)) pc')
    (hrun' : t ≠ t₀ → RunAt (core s') s'.list s'.frames (s'.cpuProc (cfg.cpu t₀)) (s.pc t₀))
    (hwake : WakeAt (core s') s'.list s'.frames pc')
    (hwake' : ∀ u ≠ t, WakeAt (core s') s'.list s'.frames (s.pc u))
    (hhan : pc.isHandler = true → pc'.isHandler = true) (hone : ∀ chan, pc'.wakeChan = some chan →
      pc.wakeChan = some chan ∨ ∀ u, (s.pc u).wakeChan ≠ some chan)
    (hasl : ∀ v ∈ s'.list, (s'.procs v).state = .sleeping →
      ∀ f, s'.frames (s'.pid v) = some f → (s'.procs v).context = f.regs)
    (hrdy : ∀ v ∈ s'.list, (s'.procs v).state = .runnable → HasFrame s' v)
    (hst : ∀ v, s'.Public v → v ∉ s'.list → Replaced t₀ s' v)
    (hund : ∀ pc, s'.pc t₀ = .sched pc → s'.under t₀ = none) : ResInv cfg t₀ s' := by
  subst hpc
  have hself : s'.pc t = pc' := by rw [hpc', update_self]
  have hne : ∀ u, u ≠ t → s'.pc u = s.pc u := fun u hu => by rw [hpc', update_of_ne hu]
  refine ⟨hw, ?_, fun u => ?_, fun u hu => ?_, fun u u' chan hu hu' => ?_, hasl, hrdy, hst, hund⟩
  · by_cases ht : t = t₀
    · rw [← ht, hself, ht]
      exact hrun ht
    · rw [hne t₀ (Ne.symm ht)]
      exact hrun' ht
  · by_cases hu : u = t
    · rw [hu, hself]
      exact hwake
    · rw [hne u hu]
      exact hwake' u hu
  · by_cases hut : u = t
    · rw [hut, hself]
      exact hhan (hut ▸ h.handler u hu)
    · rw [hne u hut]
      exact h.handler u hu
  · rw [hpc'] at hu hu'
    exact Lib.Exclusive.move (f := Pc.wakeChan) h.one
      (fun chan hc => (hone chan hc).imp_right fun hc u _ => hc u) u u' chan hu hu'

/-- A step that changes neither the list nor a listed version (up to its lock), nor the frames. A
version that it clears is public and not listed. -/
theorem ResInv.local (hl : s'.list = s.list) (hfr : s'.frames = s.frames) (hun : s'.under = s.under)
    (hcpu : t ≠ t₀ → s'.cpuProc = s.cpuProc) (hc : ∀ v ∈ s.list, core s' v = core s v)
    (hcop : ∀ u ≠ t, ∀ q v, (s.pc u).copying = some (q, v) → core s' v = core s v)
    (hpub : ∀ v, s'.Public v → v ∉ s.list →
      (s.Public v ∧ core s' v = core s v) ∨ (core s' v).state = .unused)
    (hfree : ∀ v, pc.wakeOld = some v → (core s' v).state = .unused)
    (hold : ∀ v, pc.schedOld = some v → pc'.schedOld = some v ∨ (core s' v).state = .unused)
    (hrun : t = t₀ → RunAt (core s') s.list s.frames (s'.cpuProc (cfg.cpu t₀)) pc')
    (hwake : WakeAt (core s') s.list s.frames pc') (ht : Turn s pc pc') : ResInv cfg t₀ s' := by
  refine h.of hw hpc hpc' (fun ht => ?_) (fun ht => ?_) ?_ (fun u hu => ?_) ht.handler ht.chan
    (fun v hv hs f hf => ?_) (fun v hv hs => ?_) (fun v hv hvl => ?_) (h.under_of hun hpc hpc' ht)
  · rw [hl, hfr]
    exact hrun ht
  · rw [hl, hfr, hcpu ht]
    exact h.run.mono hc (hcop t₀ ht.symm) fun v hv _ => hv
  · rw [hl, hfr]
    exact hwake
  · rw [hl, hfr]
    refine (h.wake u).mono (fun v hv => ?_) (hcop u hu) (fun v hv _ _ => hv) fun v hv _ f hf => hf
    rw [hc v hv]
    exact ⟨rfl, rfl, fun _ => rfl⟩
  · rw [hl] at hv
    obtain ⟨e1, e2, -, e3⟩ := core_eq (hc v hv)
    rw [hfr, e1] at hf
    rw [e2] at hs
    rw [e3]
    exact h.asleep v hv hs f hf
  · rw [hl] at hv
    obtain ⟨e1, e2, -, e3⟩ := core_eq (hc v hv)
    rw [e2] at hs
    obtain ⟨f, hf, hx⟩ := h.ready v hv hs
    exact ⟨f, by rw [hfr, e1]; exact hf, by rw [e3]; exact hx⟩
  · rw [hl] at hvl
    by_cases hu : (core s' v).state = .unused
    · exact .of_unused hu
    obtain ⟨hp, he⟩ := (hpub v hv hvl).resolve_right hu
    refine (h.stale v hp hvl).mono he hpc hpc' (fun e => hu (hfree v e)) fun ho => ?_
    rw [hun, hpc']
    refine ho.imp_left fun ho => ?_
    by_cases ht : t₀ = t
    · rw [ht, update_self]
      exact (hold v (by rw [← hpc, ← ht, ho])).resolve_right hu
    · rw [update_of_ne ht, ho]

/-- A step that changes no version (up to its lock). -/
theorem ResInv.quiet (hl : s'.list = s.list) (hfr : s'.frames = s.frames) (hun : s'.under = s.under)
    (hf : s'.fresh = s.fresh) (hcpu : t ≠ t₀ → s'.cpuProc = s.cpuProc)
    (hc : ∀ v, core s' v = core s v) (hcop : pc.copying = none) (hfree : pc.wakeOld = none)
    (hold : ∀ v, pc.schedOld = some v → pc'.schedOld = some v)
    (hrun : t = t₀ → RunAt (core s) s.list s.frames (s'.cpuProc (cfg.cpu t₀)) pc')
    (hwake : WakeAt (core s) s.list s.frames pc') (ht : Turn s pc pc') : ResInv cfg t₀ s' := by
  refine h.local hw hpc hpc' hl hfr hun hcpu (fun v _ => hc v) (fun _ _ _ v _ => hc v)
    (fun v hv _ => .inl ⟨hv.of (hf ▸ hv.1) hpc hpc' (by simp [hcop]), hc v⟩) (by simp [hfree])
    (fun v hv => .inl (hold v hv)) ?_ ?_ ht
  · rw [funext hc]
    exact hrun
  · rw [funext hc]
    exact hwake

end

end

theorem core_setLock (l : Spinlock) (v w : Addr) : core (s.setLock v l) w = core s w := by
  by_cases h : w = v
  · subst h
    simp [core, unlocked, St.setLock]
  · simp [core, St.setLock, update_of_ne h]

/-- A lock operation: it ends in a panic, or it changes a lock and goes on at `pc'`. -/
def LockOp (s : St n) (t : Fin n) (pc' : Pc) (s' : St n) : Prop :=
  (∃ p, s' = s.goto t (.panic p)) ∨ (∃ v l, s' = (s.setLock v l).goto t pc') ∨
    ∃ lks, s' = { s with locks := lks }.goto t pc'

theorem acquire_op {c : CpuId} (hn : s.acquire c t v pc' = some s') : LockOp s t pc' s' := by
  rcases acquire_cases hn with ⟨-, rfl⟩ | rfl
  · exact .inr (.inl ⟨_, _, rfl⟩)
  · exact .inl ⟨_, rfl⟩

theorem release_op (s : St n) (c : CpuId) (t : Fin n) (v : Addr) (pc' : Pc) :
    LockOp s t pc' (s.release c t v pc') := by
  rcases release_cases s c t v pc' with ⟨-, e⟩ | ⟨-, e⟩
  · exact .inr (.inl ⟨_, _, e⟩)
  · exact .inl ⟨_, e⟩

theorem acquireLk_op {c : CpuId} {lk : Addr} (hn : s.acquireLk c t lk pc' = some s') :
    LockOp s t pc' s' := by
  rcases acquireLk_cases hn with ⟨-, rfl⟩ | rfl
  · exact .inr (.inr ⟨_, rfl⟩)
  · exact .inl ⟨_, rfl⟩

theorem releaseLk_op (s : St n) (c : CpuId) (t : Fin n) (lk : Addr) (pc' : Pc) :
    LockOp s t pc' (s.releaseLk c t lk pc') := by
  rcases releaseLk_cases s c t lk pc' with ⟨-, e⟩ | ⟨-, e⟩
  · exact .inr (.inr ⟨_, e⟩)
  · exact .inl ⟨_, e⟩

section
variable (h : ResInv cfg t₀ s)
include h

theorem ResInv.lockOp (hw : Wf s') (hpc : s.pc t = pc) (hs : LockOp s t pc' s') (hq : pc.Quiet)
    (hrun : t = t₀ → RunAt (core s) s.list s.frames (s.cpuProc (cfg.cpu t₀)) pc')
    (hwake : WakeAt (core s) s.list s.frames pc') (ht : Turn s pc pc') : ResInv cfg t₀ s' := by
  have ho : ∀ (pc'' : Pc) (v : Addr), pc.schedOld = some v → pc''.schedOld = some v := by
    simp [hq.schedOld]
  rcases hs with ⟨p, rfl⟩ | ⟨v, l, rfl⟩ | ⟨lks, rfl⟩
  · exact h.quiet hw hpc rfl rfl rfl rfl rfl (fun _ => rfl) (fun _ => rfl) hq.copying hq.wakeOld
      (ho _) (fun _ => trivial) trivial ⟨fun _ => rfl, nofun, nofun⟩
  · exact h.quiet hw hpc rfl rfl rfl rfl rfl (fun _ => rfl) (core_setLock l v) hq.copying hq.wakeOld
      (ho _) hrun hwake ht
  · exact h.quiet hw hpc rfl rfl rfl rfl rfl (fun _ => rfl) (fun _ => rfl) hq.copying hq.wakeOld
      (ho _) hrun hwake ht

theorem ResInv.goto (hw : Wf (s.goto t pc')) (hpc : s.pc t = pc) (hq : pc.Quiet)
    (hrun : t = t₀ → RunAt (core s) s.list s.frames (s.cpuProc (cfg.cpu t₀)) pc')
    (hwake : WakeAt (core s) s.list s.frames pc') (ht : Turn s pc pc') :
    ResInv cfg t₀ (s.goto t pc') :=
  h.quiet hw hpc rfl rfl rfl rfl rfl (fun _ => rfl) (fun _ => rfl) hq.copying hq.wakeOld
    (by simp [hq.schedOld]) hrun hwake ht

/-- The four changes of a copy do not touch the lock. -/
def Pure (f : Proc → Proc) : Prop := ∀ p, unlocked (f p) = f (unlocked p)

theorem ResInv.copy {f : Proc → Proc} (hf : Pure f) (hw : Wf ((s.copy q f).goto t pc'))
    (hpc : s.pc t = pc) (hq : pc.Quiet) (hcop : pc'.copying = some (q, s.fresh))
    (hrun : t = t₀ → ∀ c', (∀ v ∈ s.list, c' v = core s v) → c' s.fresh = f (core s q) →
      RunAt c' s.list s.frames (s.cpuProc (cfg.cpu t₀)) pc')
    (hwake : ∀ c', (∀ v ∈ s.list, c' v = core s v) → c' s.fresh = f (core s q) →
      WakeAt c' s.list s.frames pc') (ht : Turn s pc pc') :
    ResInv cfg t₀ ((s.copy q f).goto t pc') := by
  have hne : ∀ v, v ≠ s.fresh → core ((s.copy q f).goto t pc') v = core s v := fun v hv => by
    simp [core, St.copy, St.goto, update_of_ne hv]
  have hnew : core ((s.copy q f).goto t pc') s.fresh = f (core s q) := by
    simp only [core, St.copy, St.goto, update_self]
    exact hf _
  have hlist : ∀ v ∈ s.list, core ((s.copy q f).goto t pc') v = core s v := fun v hv =>
    hne v (ne_of_lt (h.wf.known v (.inl hv)).1)
  refine h.local hw hpc rfl rfl rfl rfl (fun _ => rfl) hlist
    (fun u _ q' v hu => hne v (ne_of_lt (h.wf.copy u q' v hu).1)) (fun v hv _ => .inl ?_)
    (by simp [hq.wakeOld]) (by simp [hq.schedOld]) (fun ht => hrun ht _ hlist hnew)
    (hwake _ hlist hnew) ht
  have hvf : v ≠ s.fresh := by
    rintro rfl
    refine hv.2 t q ?_
    simpa [St.goto] using hcop
  exact ⟨hv.of (lt_of_le_of_ne (Nat.le_of_lt_succ hv.1) hvf) hpc rfl (by simp [hq.copying]),
    hne v hvf⟩

theorem ResInv.freeproc (hw : Wf ((s.freeproc v).goto t pc')) (hpc : s.pc t = pc) (hv : v ∈ pc.olds)
    (hcop : pc.copying = none) (hfree : ∀ w, pc.wakeOld = some w → w = v)
    (hold : ∀ w, pc.schedOld = some w → w = v)
    (hrun : t = t₀ → ∀ c', (∀ v ∈ s.list, c' v = core s v) →
      RunAt c' s.list s.frames (s.cpuProc (cfg.cpu t₀)) pc')
    (hwake : ∀ c, WakeAt c s.list s.frames pc') (ht : Turn s pc pc') :
    ResInv cfg t₀ ((s.freeproc v).goto t pc') := by
  have hgone : s.Gone v := .inl ⟨t, hpc ▸ hv⟩
  have hne : ∀ w, w ≠ v → core ((s.freeproc v).goto t pc') w = core s w := fun w hw => by
    simp [core, St.freeproc, St.goto, update_of_ne hw]
  have hself : (core ((s.freeproc v).goto t pc') v).state = .unused := by
    simp [core, unlocked, St.freeproc, St.goto]
  have hlist : ∀ w ∈ s.list, core ((s.freeproc v).goto t pc') w = core s w := fun w hw =>
    hne w fun e => h.wf.gone v hgone (e ▸ hw)
  refine h.local hw hpc rfl rfl rfl rfl (fun _ => rfl) hlist (fun u _ q w hu => hne w ?_)
    (fun w hw' _ => ?_) (fun w e => hfree w e ▸ hself) (fun w e => .inr (hold w e ▸ hself))
    (fun ht => hrun ht _ hlist) (hwake _) ht
  · rintro rfl
    exact (h.wf.known w (.gone hgone)).2 u q hu
  · by_cases hwv : w = v
    · exact .inr (hwv ▸ hself)
    · exact .inl ⟨hw'.of hw'.1 hpc rfl (by simp [hcop]), hne w hwv⟩

omit h in
theorem Pc.olds_of_copying (h : pc.copying = some (q, v)) :
    pc.wakeOld = none ∧ pc.schedOld = none := by
  unfold copying at h
  split at h <;> first | exact ⟨rfl, rfl⟩ | cases h

/-- The context `t` replaces the listed version `q` by its copy. -/
theorem ResInv.publish {s1 : St n} (hu : s.listUpdateRcu new q = some (old, s1))
    (hw : Wf (s1.goto t pc')) (hpc : s.pc t = pc) (hcop : pc.copying = some (q, new))
    (hq : q ∈ s.list) (hasl : (s.procs new).state = .sleeping → s.frames (s.pid new) = none)
    (hrdy : (s.procs new).state = .runnable → HasFrame s new)
    (hsl : old = q → (s.procs q).state = .sleeping →
      ∃ k lk cur, pc' = .wake (s.procs q).chan k lk (.free cur q))
    (hru : old = q → (s.procs q).state = .runnable → t = t₀ ∧ pc'.schedOld = some q)
    (hrun' : t ≠ t₀ → (s.procs q).state = .sleeping ∧ (s.frames (s.pid q)).isSome)
    (hwake' : (s.procs q).state = .sleeping → pc.wakeChan = some (s.procs q).chan)
    (hrun : t = t₀ → ∀ l', new ∈ l' → (∀ v ∈ s.list, v ≠ q → v ∈ l') →
      RunAt (core s) l' s.frames (s.cpuProc (cfg.cpu t₀)) pc')
    (hwake : ∀ c l, WakeAt c l s.frames pc') (ht : Turn s pc pc') :
    ResInv cfg t₀ (s1.goto t pc') := by
  obtain ⟨l1, l2, hl, hp, rfl⟩ := listUpdateRcu_eq hu
  obtain rfl : old = q := h.wf.unique (by rw [hl]; simp) hq hp
  have hnew : new ∈ l1 ++ new :: l2 := by simp
  have hmid : ∀ a v : Addr, v ∈ l1 ++ a :: l2 ↔ v = a ∨ v ∈ l1 ++ l2 := fun a v =>
    List.perm_middle.mem_iff.trans List.mem_cons
  have hmem : ∀ v, v ∈ l1 ++ new :: l2 → v = new ∨ v ∈ s.list := fun v hv =>
    ((hmid new v).mp hv).imp_right fun hv => hl ▸ (hmid old v).mpr (.inr hv)
  have hkeep : ∀ v ∈ s.list, v ≠ old → v ∈ l1 ++ new :: l2 := fun v hv hne =>
    (hmid new v).mpr (.inr (((hmid old v).mp (hl ▸ hv)).resolve_left hne))
  -- only the list and the place of `t` matter from here on
  generalize hl' : l1 ++ new :: l2 = l' at hw hnew hmem hkeep ⊢
  generalize hs' : { s with list := l', stale := _ }.goto t pc' = s' at hw ⊢
  have e1 : s'.procs = s.procs := by rw [← hs', St.goto]
  have e2 : s'.list = l' := by rw [← hs', St.goto]
  have e3 : s'.frames = s.frames := by rw [← hs', St.goto]
  have e4 : s'.pc = update s.pc t pc' := by rw [← hs', St.goto]
  have e5 : s'.under = s.under := by rw [← hs', St.goto]
  have e6 : s'.cpuProc = s.cpuProc := by rw [← hs', St.goto]
  have e7 : s'.fresh = s.fresh := by rw [← hs', St.goto]
  have e8 : core s' = core s := by
    funext v
    rw [core, e1, core]
  have e9 : s'.pid = s.pid := by
    funext v
    rw [St.pid, e1, St.pid]
  have hself : s'.pc t = pc' := by rw [e4, update_self]
  refine h.of hw hpc e4 (fun ht => ?_) (fun ht => ?_) (e3 ▸ hwake _ _) (fun u hut => ?_)
    ht.handler ht.chan (fun v hv hs f hf => ?_) (fun v hv hs => ?_) (fun v hv hvl => ?_)
    (h.under_of e5 hpc e4 ht)
  · rw [e8, e2, e3, e6]
    exact hrun ht l' hnew hkeep
  · rw [e8, e2, e3, e6]
    refine h.run.mono (fun _ _ => rfl) (fun _ _ _ => rfl) fun v hv hs => hkeep v hv ?_
    rintro rfl
    obtain ⟨h1, h2⟩ := hrun' ht
    have h3 : s.frames (s.pid v) = none := hs h1
    rw [h3] at h2
    cases h2
  · rw [e8, e2, e3]
    refine (h.wake u).mono (fun v _ => ⟨rfl, rfl, fun _ => rfl⟩) (fun _ _ _ => rfl)
      (fun v hv hs hc => hkeep v hv ?_) fun v _ _ f hf => hf
    rintro rfl
    exact hut (h.one u t _ hc (by rw [hpc]; exact hwake' hs))
  · rw [e1] at hs ⊢
    rw [e3, e9] at hf
    rcases hmem v (e2 ▸ hv) with rfl | hv
    · rw [hasl hs] at hf
      cases hf
    · exact h.asleep v hv hs f hf
  · rw [e1] at hs
    unfold HasFrame
    rw [e1, e3, e9]
    rcases hmem v (e2 ▸ hv) with rfl | hv
    · exact hrdy hs
    · exact h.ready v hv hs
  · rw [e2] at hvl
    by_cases hvq : v = old
    · rw [hvq]
      refine ⟨fun e => ?_, fun e => ?_⟩
      · rw [e1] at e ⊢
        obtain ⟨k, lk, cur, hk⟩ := hsl rfl e
        exact ⟨t, k, lk, cur, hself.trans hk⟩
      · rw [e1] at e
        obtain ⟨ht, ho⟩ := hru rfl e
        exact .inl (by rw [← ht, hself, ho])
    have hpub : s.Public v := hv.of (e7 ▸ hv.1) hpc e4 fun q' e => by
      rw [hcop] at e
      cases e
      exact hvl hnew
    obtain ⟨hwo, hso⟩ := Pc.olds_of_copying hcop
    refine (h.stale v hpub fun hm => hvl (hkeep v hm hvq)).mono (congrFun e8 v) hpc e4
      (by simp [hwo]) fun ho => ?_
    rw [e5, e4]
    refine ho.imp_left fun ho => ?_
    have ht : t₀ ≠ t := by
      rintro rfl
      rw [hpc, hso] at ho
      cases ho
    rw [update_of_ne ht, ho]

theorem ResInv.sleepStep {k : Int} {a : Arg} {pc : SleepPc} (hpc : s.pc t₀ = .sleep k a pc)
    (hn : sleepStep cfg s t₀ k a pc = some s') : ResInv cfg t₀ s' := by
  have hw := h.wf.sleepStep hpc hn
  have hr := h.run
  rw [hpc] at hr
  obtain ⟨hf, hr⟩ := hr
  have hno : ∀ {P : Prop}, t₀ ≠ t₀ → P := fun e => (e rfl).elim
  cases pc <;> simp only [Sleep.sleepStep, bind, bind_eq_some_iff, pure, some.injEq,
    Prod.exists, reduceCtorEq] at hn
  case acquire p =>
    exact h.lockOp hw hpc (acquire_op hn) ⟨rfl, rfl, rfl⟩ (fun _ => ⟨hf, hr⟩) trivial .sleep
  case release p =>
    subst hn
    exact h.lockOp hw hpc (releaseLk_op ..) ⟨rfl, rfl, rfl⟩ (fun _ => ⟨hf, hr⟩) trivial .sleep
  case copy p =>
    subst hn
    refine h.copy (fun _ => rfl) hw hpc ⟨rfl, rfl, rfl⟩ rfl (fun _ c' hc hnew => ?_)
      (fun _ _ _ => trivial) .sleep
    exact ⟨hf, ⟨hr.1, by rw [hc p hr.1]; exact hr.2⟩, by rw [hnew, hc p hr.1]⟩
  case publish p new =>
    obtain ⟨old, s1, hu, rfl⟩ := hn
    obtain ⟨⟨hp, hk, hs⟩, hnew⟩ := hr
    have hpid : s.pid new = k := (congrArg Proc.pid hnew :).trans hk
    have hsta : (s.procs new).state = .sleeping := (congrArg Proc.state hnew :)
    refine h.publish hu hw hpc rfl hp (fun _ => by rw [hpid, hf]) (fun e => ?_) (fun _ e => ?_)
      (fun _ e => ?_) hno (fun e => ?_) (fun _ l' hm _ => ⟨hf, hm, hpid, hsta⟩) (fun _ _ => trivial)
      .sleep
    · cases hsta.symm.trans e
    · cases hs.symm.trans e
    · cases hs.symm.trans e
    · cases hs.symm.trans e
  case unlock p new old =>
    subst hn
    exact h.lockOp hw hpc (release_op ..) ⟨rfl, rfl, rfl⟩ (fun _ => ⟨hf, hr⟩) trivial .sleep
  case free p new old =>
    subst hn
    refine h.freeproc hw hpc (by simp [Pc.olds]) rfl (by rintro _ ⟨⟩) (by rintro _ ⟨⟩)
      (fun _ c' hc => ⟨hf, hr.1, ?_⟩) (fun _ => trivial) .sleep
    rw [hc new hr.1]
    exact hr.2
  case install new =>
    subst hn
    exact h.quiet hw hpc rfl rfl rfl rfl rfl hno (fun _ => rfl) rfl rfl (by rintro _ ⟨⟩)
      (fun _ => ⟨hf, by simp [St.setCpuProc, St.goto], hr⟩) trivial .sleep
  case memset new =>
    subst hn
    exact h.lockOp hw hpc (.inr (.inl ⟨_, _, rfl⟩)) ⟨rfl, rfl, rfl⟩ (fun _ => ⟨hf, new, hr⟩) trivial
      .sleep
  case sched =>
    obtain ⟨p, hp, rfl⟩ := hn
    obtain ⟨p', hp', hi⟩ := hr
    rw [hp] at hp'
    cases hp'
    exact h.goto hw hpc ⟨rfl, rfl, rfl⟩ (fun _ => ⟨hf, hi⟩) trivial .sleep
  case wokeCopy =>
    obtain ⟨p, hp, rfl⟩ := hn
    obtain ⟨p', hp', hi⟩ := hr
    rw [hp] at hp'
    cases hp'
    refine h.copy (fun _ => rfl) hw hpc ⟨rfl, rfl, rfl⟩ rfl (fun _ c' hc hnew => ?_)
      (fun _ _ _ => trivial) .sleep
    exact ⟨hf, ⟨hi.1, by rw [hc p hi.1]; exact hi.2⟩, by rw [hnew, hc p hi.1]⟩
  case wokePublish p new =>
    obtain ⟨old, s1, hu, rfl⟩ := hn
    obtain ⟨⟨hp, hk, hs⟩, hnew⟩ := hr
    have hpid : s.pid new = k := (congrArg Proc.pid hnew :).trans hk
    have hsta : (s.procs new).state = .running := (congrArg Proc.state hnew :).trans hs
    refine h.publish hu hw hpc rfl hp (fun e => ?_) (fun e => ?_) (fun _ e => ?_) (fun _ e => ?_)
      hno (fun e => ?_) (fun _ l' hm _ => ⟨hf, hm, hpid, hsta⟩) (fun _ _ => trivial) .sleep
    · cases hsta.symm.trans e
    · cases hsta.symm.trans e
    · cases hs.symm.trans e
    · cases hs.symm.trans e
    · cases hs.symm.trans e
  case wokeFree new old =>
    subst hn
    refine h.freeproc hw hpc (by simp [Pc.olds]) rfl (by rintro _ ⟨⟩) (by rintro _ ⟨⟩)
      (fun _ c' hc => ⟨hf, hr.1, ?_⟩) (fun _ => trivial) .sleep
    rw [hc new hr.1]
    exact hr.2
  case wokeInstall new =>
    subst hn
    exact h.quiet hw hpc rfl rfl rfl rfl rfl hno (fun _ => rfl) rfl rfl (by rintro _ ⟨⟩)
      (fun _ => ⟨hf, new, by simp [St.setCpuProc, St.goto], hr⟩) trivial .sleep
  case wokeAcquire =>
    exact h.lockOp hw hpc (acquireLk_op hn) ⟨rfl, rfl, rfl⟩ (fun _ => ⟨hf, hr⟩) trivial
      ⟨by rintro ⟨⟩, by rintro _ ⟨⟩, by rintro _ ⟨⟩⟩

/-- The `swtch` of `sched` stores the registers into the listed version. -/
theorem ResInv.swtchOut {k : Int} {a : Arg} {p : Addr} {regs : Context}
    (hpc : s.pc t₀ = .sleep k a (.swtch p)) (hn : swtchOut s t₀ k a p regs = some s') :
    ResInv cfg t₀ s' := by
  have hw := h.wf.swtchOut hpc hn
  have hr := h.run
  rw [hpc] at hr
  obtain ⟨hf, hp, hk, hs⟩ := hr
  simp only [Sleep.swtchOut, bind, bind_eq_some_iff, pure, some.injEq] at hn
  obtain ⟨fs, hfs, hs'⟩ := hn
  have e1 : ∀ v, v ≠ p → s'.procs v = s.procs v := fun v hv =>
    hs' ▸ update_of_ne hv _ _
  have e2 : s'.procs p = { s.procs p with context := regs } := hs' ▸ update_self ..
  have e3 : s'.list = s.list := hs' ▸ rfl
  have e4 : s'.frames k = some ⟨regs, .woke a⟩ := hs' ▸ update_self ..
  have e5 : ∀ k', k' ≠ k → s'.frames k' = s.frames k' := fun k' hk' =>
    hs' ▸ update_of_ne hk' _ _
  have e6 : s'.pc = update s.pc t₀ (.sched (.free fs.cur fs.old fs.init)) := hs' ▸ rfl
  have e7 : s'.under t₀ = none := hs' ▸ update_self ..
  have e8 : s'.fresh = s.fresh := hs' ▸ rfl
  have hpid : ∀ v, s'.pid v = s.pid v := fun v => by
    by_cases hv : v = p
    · rw [St.pid, hv, e2, St.pid]
    · rw [St.pid, e1 v hv, St.pid]
  have hself : s'.pc t₀ = .sched (.free fs.cur fs.old fs.init) := by rw [e6, update_self]
  have hkp : s.Known p := .inl hp
  refine h.of hw hpc e6 (fun _ => trivial) (fun e => (e rfl).elim) trivial (fun u hu => ?_)
    (by simp [Pc.isHandler]) (by simp [Pc.wakeChan]) (fun v hv hsv f hf' => ?_) (fun v hv hsv => ?_)
    (fun v hv hvl => ?_) (fun _ _ => e7)
  · rw [e3]
    refine (h.wake u).mono (fun v hv => ?_) (fun q v hc => ?_) (fun v hv _ _ => hv)
      fun v _ _ f hf' => (e5 _ fun e => ?_).trans hf'
    · by_cases hvp : v = p
      · subst hvp
        rw [core, e2]
        refine ⟨rfl, rfl, fun e => ?_⟩
        have e : (s.frames k).isSome := hk ▸ e
        rw [hf] at e
        cases e
      · rw [core, e1 v hvp]
        exact ⟨rfl, rfl, fun _ => rfl⟩
    · rw [core, e1 v fun e => (h.wf.known p hkp).2 u q (e ▸ hc), core]
    · rw [e, hf] at hf'
      cases hf'
  · rw [e3] at hv
    rw [hpid] at hf'
    by_cases hvp : v = p
    · rw [hvp, show s.pid p = k from hk, e4] at hf'
      cases hf'
      rw [hvp, e2]
    · rw [e1 v hvp] at hsv ⊢
      rw [e5 _ fun e => hvp (h.wf.unique hv hp (e.trans hk.symm))] at hf'
      exact h.asleep v hv hsv f hf'
  · rw [e3] at hv
    have hvp : v ≠ p := by
      rintro rfl
      rw [e2] at hsv
      cases hs.symm.trans hsv
    rw [e1 v hvp] at hsv
    obtain ⟨f, hf', hx⟩ := h.ready v hv hsv
    refine ⟨f, ?_, by rw [e1 v hvp, hx]⟩
    rw [hpid, e5 _ fun e => hvp (h.wf.unique hv hp (e.trans hk.symm)), hf']
  · rw [e3] at hvl
    have hvp : v ≠ p := fun e => hvl (e ▸ hp)
    have hpub : s.Public v := hv.of (e8 ▸ hv.1) hpc e6 (by rintro _ ⟨⟩)
    refine (h.stale v hpub hvl).mono (by rw [core, e1 v hvp, core]) hpc e6 (by rintro ⟨⟩)
      fun ho => ?_
    -- the scheduler goes on with the version that it kept under the process
    rw [hpc, hfs] at ho
    exact .inl (by rw [hself]; exact ho.resolve_left (by rintro ⟨⟩))

theorem ResInv.wakeStep {chan : Chan} {k : Option Int} {lk : Option Addr} {pc : WakePc}
    (hpc : s.pc t = .wake chan k lk pc) (hst : Stored s t = true)
    (hn : wakeStep cfg s t chan k lk pc = some s') : ResInv cfg t₀ s' := by
  have hw := h.wf.wakeStep hpc hn
  have ha := h.wake t
  rw [hpc] at ha
  -- the process that `t` runs, if it is the main thread, is not touched
  have hr : ∀ pc', t = t₀ → RunAt (core s) s.list s.frames (s.cpuProc (cfg.cpu t₀))
      (.wake chan k lk pc') := by
    intro pc' ht
    have hr := h.run
    rw [← ht, hpc] at hr
    exact ht ▸ hr.wake pc'
  cases pc with
  | lock cur =>
    cases cur with
    | none =>
      cases hn
      exact h.goto hw hpc ⟨rfl, rfl, rfl⟩ (hr _) trivial .wake
    | some cur =>
      simp only [Sleep.wakeStep] at hn
      split at hn
      · cases hn
        exact h.goto hw hpc ⟨rfl, rfl, rfl⟩ (hr _) trivial .wake
      · exact h.lockOp hw hpc (acquire_op hn) ⟨rfl, rfl, rfl⟩ (hr _) trivial .wake
  | unlock cur =>
    cases hn
    exact h.lockOp hw hpc (release_op ..) ⟨rfl, rfl, rfl⟩ (hr _) trivial .wake
  | visit cur =>
    cases cur with
    | none =>
      cases hn
      exact h.goto hw hpc ⟨rfl, rfl, rfl⟩ (hr _) trivial .wake
    | some cur =>
      simp only [Sleep.wakeStep] at hn
      split at hn <;> cases hn
      · rename_i hsel
        refine h.goto hw hpc ⟨rfl, rfl, rfl⟩ (hr _) ⟨?_, hsel.2⟩ .wake
        -- an unlisted version that sleeps on `chan` was replaced by another `wakeup(chan)`
        by_contra hcl
        have hpub : s.Public cur := h.wf.known cur (.ref (by rw [hpc]; simp [Pc.refs]))
        obtain ⟨u, k', lk', cur', hu⟩ := (h.stale cur hpub hcl).sleeping hsel.2.1
        have hut : u = t := h.one u t chan (by rw [hu, hsel.2.2]; rfl) (by rw [hpc]; rfl)
        rw [hut, hpc] at hu
        cases hu
      · exact h.goto hw hpc ⟨rfl, rfl, rfl⟩ (hr _) trivial .wake
  | copy cur =>
    cases hn
    obtain ⟨hcl, hcs, hcc⟩ := ha
    simp only [Stored, hpc, Option.isSome_iff_exists] at hst
    obtain ⟨f, hf⟩ := hst
    refine h.copy (fun _ => rfl) hw hpc ⟨rfl, rfl, rfl⟩ rfl (fun ht c' hc _ => ?_)
      (fun c' hc hnew => ?_) .wake
    · exact ((hr .done ht).mono hc (by simp [Pc.copying]) fun v hv _ => hv).wake _
    · refine ⟨⟨hcl, ?_⟩, ?_, f, ?_⟩
      · rw [hc cur hcl]
        exact ⟨hcs, hcc⟩
      · rw [hnew, hc cur hcl]
      · rw [hc cur hcl]
        exact ⟨hf, h.asleep cur hcl hcs f hf⟩
  | publish cur new =>
    obtain ⟨⟨old, s1⟩, hu, ⟨⟩⟩ := bind_eq_some_iff.mp hn
    obtain ⟨⟨hcl, hcs, hcc⟩, hnew, f, hf, hx⟩ := ha
    have hsta : (s.procs new).state = .runnable := (congrArg Proc.state hnew :)
    have hframe : HasFrame s new :=
      ⟨f, (congrArg s.frames (congrArg Proc.pid hnew :)).trans hf,
          (congrArg Proc.context hnew :).trans hx⟩
    refine h.publish hu hw hpc rfl hcl (fun e => ?_) (fun _ => hframe) (fun e _ => ?_)
        (fun _ e => ?_)
      (fun _ => ⟨hcs, ?_⟩) (fun _ => ?_) (fun ht l' hm hk => ?_) (fun _ _ => trivial) .wake
    · cases hsta.symm.trans e
    · exact ⟨k, lk, cur, by rw [e]; exact congrArg (Pc.wake · k lk (.free cur cur)) hcc.symm⟩
    · cases hcs.symm.trans e
    · exact Option.isSome_iff_exists.mpr ⟨f, hf⟩
    · exact congrArg some hcc.symm
    · refine ((hr .done ht).mono (fun _ _ => rfl) (fun _ _ _ => rfl) fun v hv hs => hk v hv ?_).wake
        _
      rintro rfl
      cases (hs hcs).symm.trans hf
  | free cur old =>
    cases hn
    refine h.freeproc hw hpc (by simp [Pc.olds]) rfl (by rintro _ ⟨⟩; rfl) (by rintro _ ⟨⟩)
      (fun ht c' hc => ?_) (fun _ => trivial) .wake
    exact (hr _ ht).mono hc (by simp [Pc.copying]) fun v hv _ => hv
  | done =>
    cases hn
    refine h.goto hw hpc ⟨rfl, rfl, rfl⟩ (fun ht => ?_) trivial ⟨?_, by rintro _ ⟨⟩, by rintro _ ⟨⟩⟩
    · have := hr .done ht
      cases k with
      | none => trivial
      | some k => exact this
    · cases k <;> simp [Pc.isHandler]

/-- The `swtch` of `scheduler` loads the registers of the frame. -/
theorem ResInv.swtchIn {cur : Addr} {init : Bool} (hpc : s.pc t₀ = .sched (.swtch cur new old init))
    (hn : schedStep cfg s t₀ (.swtch cur new old init) = some s') : ResInv cfg t₀ s' := by
  have hw := h.wf.schedStep hpc hn
  have hr := h.run
  rw [hpc] at hr
  obtain ⟨hcp, ⟨hnl, hns⟩, f, hf, hx⟩ := hr
  have hf : s.frames (s.pid new) = some f := hf
  have hx : (s.procs new).context = f.regs := hx
  simp only [schedStep, hf, hx, if_true, some.injEq] at hn
  have e1 : s'.procs = s.procs := hn ▸ rfl
  have e2 : s'.list = s.list := hn ▸ rfl
  have e3 : s'.frames (s.pid new) = none := hn ▸ update_self ..
  have e4 : ∀ k, k ≠ s.pid new → s'.frames k = s.frames k := fun k hk =>
    hn ▸ update_of_ne hk _ _
  have e5 : s'.pc = update s.pc t₀ (f.resume.pc (s.pid new)) := hn ▸ rfl
  have e6 : s'.under t₀ = some ⟨cur, old, init⟩ := hn ▸ update_self ..
  have e7 : s'.cpuProc = s.cpuProc := hn ▸ rfl
  have e8 : s'.fresh = s.fresh := hn ▸ rfl
  have hcore : core s' = core s := by
    funext v
    rw [core, e1, core]
  have hpid : s'.pid = s.pid := by
    funext v
    rw [St.pid, e1, St.pid]
  -- a listed version that is not RUNNING belongs to another process
  have hother : ∀ v ∈ s.list, (s.procs v).state ≠ .running → s.pid v ≠ s.pid new := by
    intro v hv hs e
    rw [h.wf.unique hv hnl e] at hs
    exact hs hns
  refine h.of hw hpc e5 (fun _ => ?_) (fun e => (e rfl).elim) ?_ (fun u hu => ?_)
    (by simp [Pc.isHandler]) (fun chan hc => ?_) (fun v hv hs g hg => ?_) (fun v hv hs => ?_)
    (fun v hv hvl => ?_) (fun p' hp' => ?_)
  · rw [hcore, e2, e7]
    cases f.resume with
    | woke a => exact ⟨e3, new, hcp, hnl, rfl, hns⟩
    | user => exact ⟨e3, new, hcp, hnl, rfl, hns⟩
  · cases f.resume <;> trivial
  · rw [hcore, e2]
    refine (h.wake u).mono (fun v _ => ⟨rfl, rfl, fun _ => rfl⟩) (fun _ _ _ => rfl)
      (fun v hv _ _ => hv) fun v hv hs g hg => (e4 _ (hother v hv fun e => ?_)).trans hg
    cases e.symm.trans hs
  · cases hres : f.resume <;> rw [hres] at hc <;> cases hc
  · rw [e2] at hv
    rw [e1] at hs ⊢
    rw [hpid, e4 _ (hother v hv (by simp [hs]))] at hg
    exact h.asleep v hv hs g hg
  · rw [e2] at hv
    rw [e1] at hs
    obtain ⟨g, hg, hgx⟩ := h.ready v hv hs
    exact ⟨g, by rw [hpid, e4 _ (hother v hv (by simp [hs])), hg], by rw [e1, hgx]⟩
  · rw [e2] at hvl
    have hpub : s.Public v := hv.of (e8 ▸ hv.1) hpc e5 (by rintro _ ⟨⟩)
    refine (h.stale v hpub hvl).mono (congrFun hcore v) hpc e5 (by rintro ⟨⟩) fun ho => .inr ?_
    rw [hpc, h.under _ hpc] at ho
    rw [e6]
    exact ho.resolve_right (by rintro ⟨⟩)
  · rw [e5, update_self] at hp'
    cases hres : f.resume <;> rw [hres] at hp' <;> cases hp'

theorem ResInv.schedStep {pc : SchedPc} (hpc : s.pc t₀ = .sched pc)
    (hn : schedStep cfg s t₀ pc = some s') : ResInv cfg t₀ s' := by
  have hw := h.wf.schedStep hpc hn
  have hr := h.run
  rw [hpc] at hr
  have hno : ∀ {P : Prop}, t₀ ≠ t₀ → P := fun e => (e rfl).elim
  cases pc with
  | top =>
    cases hn
    exact h.goto hw hpc ⟨rfl, rfl, rfl⟩ (fun _ => trivial) trivial .scheduler
  | visit cur =>
    cases cur with
    | none =>
      cases hn
      exact h.goto hw hpc ⟨rfl, rfl, rfl⟩ (fun _ => trivial) trivial .scheduler
    | some cur =>
      simp only [Sleep.schedStep] at hn
      split at hn <;> cases hn
      · rename_i hsel
        refine h.goto hw hpc ⟨rfl, rfl, rfl⟩ (fun _ => ⟨?_, hsel.2⟩) trivial .scheduler
        -- only `scheduler` unlinks RUNNABLE versions, and it has cleared the last one
        by_contra hcl
        have hpub : s.Public cur := h.wf.known cur (.ref (by rw [hpc]; simp [Pc.refs]))
        rcases (h.stale cur hpub hcl).runnable hsel.2 with ho | ho
        · rw [hpc] at ho
          cases ho
        · rw [h.under _ hpc] at ho
          cases ho
      · exact h.goto hw hpc ⟨rfl, rfl, rfl⟩ (fun _ => trivial) trivial .scheduler
  | copy cur init =>
    cases hn
    refine h.copy (fun _ => rfl) hw hpc ⟨rfl, rfl, rfl⟩ rfl (fun _ c' hc hnew => ?_)
      (fun _ _ _ => trivial) .scheduler
    exact ⟨⟨hr.1, by rw [hc cur hr.1]; exact hr.2⟩, by rw [hnew, hc cur hr.1]⟩
  | publish cur new init =>
    obtain ⟨⟨old, s1⟩, hu, ⟨⟩⟩ := bind_eq_some_iff.mp hn
    obtain ⟨⟨hcl, hcs⟩, hnew⟩ := hr
    have hsta : (s.procs new).state = .running := (congrArg Proc.state hnew :)
    obtain ⟨f, hf, hx⟩ := h.ready cur hcl hcs
    refine h.publish hu hw hpc rfl hcl (fun e => ?_) (fun e => ?_) (fun _ e => ?_)
      (fun e _ => ⟨rfl, congrArg some e⟩) hno (fun e => ?_)
          (fun _ l' hm _ => ⟨⟨hm, hsta⟩, f, ?_, ?_⟩)
      (fun _ _ => trivial) .scheduler
    · cases hsta.symm.trans e
    · cases hsta.symm.trans e
    · cases hcs.symm.trans e
    · cases hcs.symm.trans e
    · rw [hnew]
      exact hf
    · rw [hnew]
      exact hx
  | install cur new old init =>
    cases hn
    exact h.quiet hw hpc rfl rfl rfl rfl rfl hno (fun _ => rfl) rfl rfl (fun _ => id)
      (fun _ => ⟨by simp [St.setCpuProc, St.goto], hr⟩) trivial .scheduler
  | swtch cur new old init => exact h.swtchIn hpc hn
  | free cur old init =>
    cases hn
    exact h.freeproc hw hpc (by simp [Pc.olds]) rfl (by rintro _ ⟨⟩) (by rintro _ ⟨⟩; rfl)
      (fun _ _ _ => trivial) (fun _ => trivial) .scheduler
  | clear cur init =>
    cases hn
    exact h.quiet hw hpc rfl rfl rfl rfl rfl hno (fun _ => rfl) rfl rfl (by rintro _ ⟨⟩)
      (fun _ => by cases init <;> trivial) trivial .scheduler

/-- Only the main thread runs processes and the scheduler. -/
theorem ResInv.main (hh : (s.pc t).isHandler = false) : t = t₀ := by
  by_contra ht
  rw [h.handler t ht] at hh
  cases hh

theorem ResInv.run_idle {k : Option Int} {lk : Option Addr} (hpc : s.pc t = .idle k lk)
    (lk' : Option Addr) (ht : t = t₀) :
    RunAt (core s) s.list s.frames (s.cpuProc (cfg.cpu t₀)) (.idle k lk') := by
  have hr := h.run
  rw [← ht, hpc] at hr
  exact ht ▸ hr.idle lk'

/-- **One step** that meets the condition keeps the invariant. -/
theorem ResInv.step {l : Lbl n} (hx : Timely s l) (hn : (kernel cfg).next s l = some s') :
    ResInv cfg t₀ s' := by
  have hw := h.wf.step hn
  obtain ⟨t, ev⟩ := l
  cases kernel_cases hn with
  | sleep hpc hn =>
    obtain rfl : t = t₀ := h.main (by rw [hpc]; rfl)
    exact h.sleepStep hpc hn
  | swtch hpc hn =>
    obtain rfl : t = t₀ := h.main (by rw [hpc]; rfl)
    exact h.swtchOut hpc hn
  | wake hpc hn => exact h.wakeStep hpc hx.1 hn
  | sched hpc hn =>
    obtain rfl : t = t₀ := h.main (by rw [hpc]; rfl)
    exact h.schedStep hpc hn
  | acquire hpc _ hn =>
    exact h.lockOp hw hpc (acquireLk_op hn) ⟨rfl, rfl, rfl⟩ (h.run_idle hpc _) trivial .idle
  | release hpc _ hn =>
    subst hn
    exact h.lockOp hw hpc (releaseLk_op ..) ⟨rfl, rfl, rfl⟩ (h.run_idle hpc _) trivial .idle
  | callSleep hpc _ hp hn =>
    obtain rfl : t = t₀ := h.main (by rw [hpc]; rfl)
    subst hn
    have hr := h.run
    rw [hpc] at hr
    obtain ⟨hf, p', hp', hi⟩ := hr
    obtain rfl : _ = p' := some.inj (hp.symm.trans hp')
    exact h.goto hw hpc ⟨rfl, rfl, rfl⟩ (fun _ => ⟨hf, hi⟩) trivial ⟨nofun, nofun, nofun⟩
  | @callWakeup k lk chan hpc hev hn =>
    subst hn
    refine h.goto hw hpc ⟨rfl, rfl, rfl⟩ (fun ht => ?_) trivial
      ⟨fun e => ?_, fun chan' hc => .inr ?_, nofun⟩
    · have hr := h.run_idle hpc none ht
      cases k with
      | none => trivial
      | some k => exact hr
    · cases k with
      | none => rfl
      | some k => cases e
    · have hal := hx.2
      rw [show ev = .wakeup chan from hev] at hal
      cases hc
      exact hal

end

/-! ## Runs -/

/-- The main thread is in `scheduler` or runs a process, every other context is a handler between
calls; every process that does not run has stored its registers in its listed version. -/
structure StartRun (cfg : Cfg n) (t₀ : Fin n) (s : St n) : Prop extends Start cfg s where
  main : s.pc t₀ = .sched .top ∧ s.under t₀ = none ∨
    ∃ k lk, s.pc t₀ = .idle (some k) lk ∧ s.frames k = none ∧
      ∃ p ∈ s.list, s.cpuProc (cfg.cpu t₀) = some p ∧ s.pid p = k ∧ (s.procs p).state = .running
  handler : ∀ t ≠ t₀, ∃ lk, s.pc t = .idle none lk
  frame : ∀ v ∈ s.list, (s.procs v).state = .sleeping ∨ (s.procs v).state = .runnable → HasFrame s v
  unlisted : ∀ v < s.fresh, v ∉ s.list →
    (s.procs v).state ≠ .sleeping ∧ (s.procs v).state ≠ .runnable

theorem StartRun.resInv (h : StartRun cfg t₀ s) : ResInv cfg t₀ s := by
  have hpc : ∀ t, (s.pc t).wakeChan = none := fun t => by
    rcases h.idle t with ⟨k, lk, e⟩ | e <;> rw [e] <;> rfl
  refine ⟨h.toStart.lockInv.wf, ?_, fun t => ?_, fun t ht => ?_, fun t t' chan hc => ?_,
    fun v hv hs f hf => ?_, fun v hv hs => h.frame v hv (.inr hs), fun v hv hvl => ?_,
        fun pc e => ?_⟩
  · rcases h.main with ⟨e, -⟩ | ⟨k, lk, e, hf, p, hp, hcp, hk, hs⟩
    · rw [e]
      trivial
    · rw [e]
      exact ⟨hf, p, hcp, hp, hk, hs⟩
  · rcases h.idle t with ⟨k, lk, e⟩ | e <;> rw [e] <;> trivial
  · obtain ⟨lk, e⟩ := h.handler t ht
    rw [e]
    rfl
  · rw [hpc t] at hc
    cases hc
  · obtain ⟨g, hg, hx⟩ := h.frame v hv (.inl hs)
    rw [hg] at hf
    cases hf
    exact hx
  · obtain ⟨h1, h2⟩ := h.unlisted v hv.1 hvl
    exact ⟨fun e => (h1 e).elim, fun e => (h2 e).elim⟩
  · rcases h.main with ⟨-, hu⟩ | ⟨k, lk, e', -⟩
    · exact hu
    · rw [e'] at e
      cases e

theorem ResInv.resumes (h : ResInv cfg t₀ s) : Resumes s where
  load t cur new old init hpc := by
    obtain rfl : t = t₀ := h.main (by rw [hpc]; rfl)
    have hr := h.run
    rw [hpc] at hr
    exact hr.2.2
  woken t chan k lk cur new hpc := by
    have ha := h.wake t
    rw [hpc] at ha
    obtain ⟨-, hnew, f, hf, hx⟩ := ha
    refine ⟨f, ?_, ?_⟩
    · exact (congrArg s.frames (congrArg Proc.pid hnew :)).trans hf
    · exact (congrArg Proc.context hnew :).trans hx
  wild t hpc := by
    obtain rfl : t = t₀ := h.main (by rw [hpc]; rfl)
    have hr := h.run
    rwa [hpc] at hr

/-- **A sleeping process resumes with what it stored.** In every run of `sleep`, `wakeup` and
`scheduler` whose steps all meet the condition, `scheduler` loads the registers that the process has
stored. -/
theorem resumes_of_timely {s₀ : St n} {ls : List (Lbl n)} (h₀ : StartRun cfg t₀ s₀)
    (hm : (kernel cfg).Meets Timely s₀ ls) (hr : (kernel cfg).run s₀ ls = some s) : Resumes s :=
  (Machine.run_inv (fun hi hx hn => hi.step hx hn) h₀.resInv hm hr).resumes

end

theorem demo_startRun : StartRun twoCpus 0 demo where
  toStart := demo_start
  main := .inr ⟨2, some 5, rfl, rfl, 0, by decide, rfl, rfl, rfl⟩
  handler t ht := ⟨none, by simp [demo, ht]⟩
  frame := by
    intro v hv hs
    obtain rfl : v = 0 := by simpa [demo] using hv
    rcases hs with hs | hs <;> cases hs
  unlisted v _ hvl := by
    have hv : v ≠ 0 := fun e => hvl (by simp [demo, e])
    simp [demo, hv]

theorem resumes_of_timely_sleepRun : ∃ s, (kernel twoCpus).run demo (sleepRun.take 31) = some s ∧
    s.pc 0 = .sched (.swtch 3 4 3 false) ∧ HasFrame s 4 := by
  have h : ((kernel twoCpus).run demo (sleepRun.take 31)).map (·.pc 0) =
      some (.sched (.swtch 3 4 3 false)) := by
    decide +kernel
  obtain ⟨s, hs, hp⟩ := Option.map_eq_some_iff.mp h
  exact ⟨s, hs, hp, (resumes_of_timely demo_startRun (by decide +kernel) hs).load 0 _ _ _ _ hp⟩

end Xv6.Sleep
