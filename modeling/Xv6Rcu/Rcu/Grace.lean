import Xv6Rcu.Lib.Machine
import Xv6Rcu.Kernel.Types

/-!
# The grace period of `synchronize_rcu`

`synchronize_rcu(cpu_id)` waits, for every other CPU, until it sees the CPU's `idle` flag set or the
CPU's saved scheduler context changed. The machine `grace` runs one call of it, load by load, with
the steps that the kernel code of every CPU takes on these two signals:

- `scheduler` sets `idle` at the top of its loop and clears it when it picks a process;
- `acquire` sets `idle` before it spins and clears it when it has the lock;
- `usertrap` and `kerneltrap` clear `idle`;
- `rcu_read_lock` and `rcu_read_unlock` open and close a read-side critical section (they nest);
- `swtch` stores the words of `cpus[i].context`, one by one.

The steps of a CPU come in any order. The context copies of `synchronize_rcu` (`cs[i] = ...`, and
the argument of `context_eq`) read one word a step, so they may be torn.

- **The defect** (`grace_scheduler`): `scheduler` sets `idle` and then enters its read section, so
  the call returns while that section is open. `wakeup` has the same flaw: it acquires `p->lock`
  inside its read section.
- **What holds** (`grace_of_quiet`): in a run where no CPU raises a signal inside a read section
  (`Quiet`), every reader of the start of the call has left its section when the call returns.
-/

namespace Xv6.Grace

open Lib Function

/-! ## The machine -/

/-- What the grace period depends on of a CPU. `left` counts the read sections the CPU has left. -/
structure Cpu where
  idle : Bool := false
  context : Context := fun _ => 0
  reading : Nat := 0
  left : Nat := 0

/-- The steps of a CPU's kernel code on these fields. -/
inductive Act where
  /-- `scheduler`: `idle = 1`, before `intr_on()` and `rcu_read_lock()`. -/
  | schedIdle
  /-- `scheduler`: `idle = 0`, at a RUNNABLE process. -/
  | schedRun
  /-- `usertrap` or `kerneltrap`: `idle = 0`. -/
  | trap
  /-- `acquire`: `idle = 1`, before the loop. -/
  | acquireSpin
  /-- `acquire`: `idle = 0`, with the lock. -/
  | acquireGot
  | readLock
  | readUnlock
  /-- `swtch(&c->context, ...)`: the store of one register. -/
  | swtch (r : Reg) (v : BitVec 64)
  deriving DecidableEq

/-- A step of a CPU. `pop_off` panics outside a section. -/
def Cpu.act (c : Cpu) : Act → Option Cpu
  | .schedIdle | .acquireSpin => some { c with idle := true }
  | .schedRun | .trap | .acquireGot => some { c with idle := false }
  | .readLock => some { c with reading := c.reading + 1 }
  | .readUnlock =>
    match c.reading with
    | 0 => none
    | 1 => some { c with reading := 0, left := c.left + 1 }
    | n + 2 => some { c with reading := n + 1 }
  | .swtch r v => some { c with context := update c.context r v }

/-- The locals of `synchronize_rcu`; `start` is the state of the CPUs when the call began. -/
structure Frame where
  cpuId : Nat
  /-- `target_value_achieved`. -/
  target : Nat → Bool := fun _ => false
  cs : Nat → Context := fun _ _ => 0
  start : Nat → Cpu

/-- Where a call of `synchronize_rcu` is. -/
inductive Pc where
  /-- `acquire(write_lock)`, before and after its loop. -/
  | spin | got
  /-- The bootstrapping `for` loop at `i`. -/
  | boot (i : Nat)
  /-- `cs[i] = cpus[i].context`: the words `rs` are left. -/
  | save (i : Nat) (rs : List Reg)
  /-- The `for` loop inside `while(!finished)` at `i`. -/
  | poll (finished : Bool) (i : Nat)
  /-- `context_eq(cs[i], cpus[i].context)`: the words `rs` are left, `eq` so far. -/
  | cmp (finished : Bool) (i : Nat) (rs : List Reg) (eq : Bool)
  | release
  | done
  deriving DecidableEq

structure St where
  cpus : Nat → Cpu
  sync : Option (Frame × Pc) := none

/-- A step of a CPU, the call of `synchronize_rcu`, or the call's next step. -/
inductive Lbl where
  | cpu (i : Nat) (a : Act)
  | call (cpuId : Nat)
  | sync
  deriving DecidableEq

/-- The next step of the call. -/
def syncStep (cpus : Nat → Cpu) (f : Frame) : Pc → (Nat → Cpu) × Frame × Pc
  | .spin => (update cpus f.cpuId { cpus f.cpuId with idle := true }, f, .got)
  | .got => (update cpus f.cpuId { cpus f.cpuId with idle := false }, f, .boot 0)
  | .boot i =>
    if NCPU ≤ i then (cpus, f, .poll true 0)
    else if i = f.cpuId then (cpus, f, .boot (i + 1))
    else if (cpus i).idle then
      (cpus, { f with target := update f.target i true }, .boot (i + 1))
    else (cpus, { f with target := update f.target i false }, .save i Reg.all)
  | .save i [] => (cpus, f, .boot (i + 1))
  | .save i (r :: rs) =>
    (cpus, { f with
      cs := update f.cs i (update (f.cs i) r ((cpus i).context r)) }, .save i rs)
  | .poll finished i =>
    if NCPU ≤ i then (cpus, f, if finished then .release else .poll true 0)
    else if i = f.cpuId ∨ f.target i = true then (cpus, f, .poll finished (i + 1))
    else if (cpus i).idle then
      (cpus, { f with target := update f.target i true }, .poll finished (i + 1))
    else (cpus, f, .cmp finished i Reg.all true)
  | .cmp finished i [] eq =>
    if eq then (cpus, f, .poll false (i + 1))
    else (cpus, { f with target := update f.target i true }, .poll finished (i + 1))
  | .cmp finished i (r :: rs) eq =>
    (cpus, f, .cmp finished i rs (eq && f.cs i r == (cpus i).context r))
  | .release => (cpus, f, .done)
  | .done => (cpus, f, .done)

/-- CPU `i` is inside the call. -/
def St.calling (s : St) (i : Nat) : Bool :=
  match s.sync with
  | some (f, pc) => f.cpuId = i && pc ≠ .done
  | none => false

/-- One call of `synchronize_rcu` among the steps of all CPUs. -/
def grace : Machine St Lbl where
  next s
    | .cpu i a =>
      if i < NCPU ∧ s.calling i = false then
        ((s.cpus i).act a).map fun c => { s with cpus := update s.cpus i c }
      else none
    | .call cpuId =>
      if cpuId < NCPU ∧ s.sync.isNone then
        some { s with sync := some ({ cpuId, start := s.cpus }, .spin) }
      else none
    | .sync => s.sync.map fun (f, pc) =>
        let r := syncStep s.cpus f pc
        ⟨r.1, some r.2⟩

/-- The kernel at boot: `cpus[]` is zero. -/
def boot : St := { cpus := fun _ => {} }

/-- When the call has returned, every other CPU that was in a read section when it began has left
that section. -/
def GraceOk (s : St) : Prop :=
  ∀ f, s.sync = some (f, .done) → ∀ i < NCPU, i ≠ f.cpuId → 0 < (f.start i).reading →
    (f.start i).left < (s.cpus i).left

/-- The scheduler of CPU 1 sets `idle`, enters its read section, and CPU 0 calls
`synchronize_rcu(0)`. -/
def schedulerRun : List Lbl :=
  [.cpu 1 .schedIdle, .cpu 1 .readLock, .call 0] ++ List.replicate 9 .sync

/-- The call returns with CPU 1 still in the read section that it was in when the call began. -/
theorem grace_scheduler : ∃ s, grace.run boot schedulerRun = some s ∧ ¬ GraceOk s := by
  have h : (grace.run boot schedulerRun).map (fun s => s.sync.map fun p =>
      (p.1.cpuId, p.2, (p.1.start 1).reading, (p.1.start 1).left, (s.cpus 1).left)) =
      some (some (0, .done, 1, 0, 0)) := by decide +kernel
  obtain ⟨s, hs, h⟩ := Option.map_eq_some_iff.mp h
  obtain ⟨⟨f, pc⟩, hf, h⟩ := Option.map_eq_some_iff.mp h
  simp only [Prod.mk.injEq] at h
  obtain ⟨h0, rfl, hr, hl, hl'⟩ := h
  refine ⟨s, hs, fun hg => ?_⟩
  have := hg f hf 1 (by decide) (by omega) (by omega)
  omega

/-! ## Runs without the defect -/

/-- The step raises no signal inside a read section: `idle` is set and `cpus[i].context` is stored
only outside a section, and a section is entered only with `idle` clear. -/
def Act.Quiet (c : Cpu) : Act → Prop
  | .schedIdle | .acquireSpin | .swtch _ _ => c.reading = 0
  | .readLock => c.idle = false
  | _ => True

/-- No CPU raises a signal inside a read section. -/
def Quiet (s : St) : Lbl → Prop
  | .cpu i a => a.Quiet (s.cpus i)
  | _ => True

instance (c : Cpu) : (a : Act) → Decidable (a.Quiet c)
  | .schedIdle | .acquireSpin | .swtch _ _ => inferInstanceAs (Decidable (c.reading = 0))
  | .readLock => inferInstanceAs (Decidable (c.idle = false))
  | .schedRun | .trap | .acquireGot | .readUnlock => isTrue trivial

instance (s : St) : (l : Lbl) → Decidable (Quiet s l)
  | .cpu i a => inferInstanceAs (Decidable (a.Quiet (s.cpus i)))
  | .call _ | .sync => isTrue trivial

/-- CPU `i` is still in the read section that it was in at the start of the call. -/
def Stuck (s : St) (f : Frame) (i : Nat) : Prop :=
  i < NCPU ∧ i ≠ f.cpuId ∧ 0 < (f.start i).reading ∧ (s.cpus i).left ≤ (f.start i).left

/-- What the call knows at `pc` of a CPU `i` that is still in its section. -/
def Pc.Knows (s : St) (f : Frame) (i : Nat) : Pc → Prop
  | .spin | .got => True
  | .boot j => i < j → f.cs i = (s.cpus i).context
  | .save j rs => (i < j → f.cs i = (s.cpus i).context) ∧
      (i = j → ∀ r, r ∉ rs → f.cs i r = (s.cpus i).context r)
  | .poll finished j => f.cs i = (s.cpus i).context ∧ (i < j → finished = false)
  | .cmp finished j _ eq => f.cs i = (s.cpus i).context ∧ (i < j → finished = false) ∧
      (i = j → eq = true)
  | .release | .done => False

/-- The invariant: a CPU that is not the caller has `idle` clear in a read section; a CPU that is
still in its section has not been marked, and the call knows its context. -/
structure Inv (s : St) : Prop where
  idle : ∀ i, (∀ f pc, s.sync = some (f, pc) → i ≠ f.cpuId) → 0 < (s.cpus i).reading →
    (s.cpus i).idle = false
  mono : ∀ f pc, s.sync = some (f, pc) → ∀ i, (f.start i).left ≤ (s.cpus i).left
  stuck : ∀ f pc, s.sync = some (f, pc) → ∀ i, Stuck s f i →
    0 < (s.cpus i).reading ∧ f.target i = false ∧ pc.Knows s f i

theorem Inv.boot : Inv boot :=
  ⟨fun _ _ h => absurd h (lt_irrefl 0), fun _ _ h => (by cases h), fun _ _ h => (by cases h)⟩

/-- What a quiet step does to a CPU: inside a section that it does not leave, it stores no context;
and `idle` is clear in a section afterwards if it was before. -/
theorem Cpu.act_quiet {c c' : Cpu} {a : Act} (ha : c.act a = some c') (hq : a.Quiet c) :
    c.left ≤ c'.left ∧
    (0 < c.reading → c'.left ≤ c.left → 0 < c'.reading ∧ c'.context = c.context) ∧
    ((0 < c.reading → c.idle = false) → 0 < c'.reading → c'.idle = false) := by
  cases a with
  | schedIdle | acquireSpin =>
    cases ha
    have hr : c.reading = 0 := hq
    exact ⟨le_refl _, fun h => absurd h (by omega), fun _ h => absurd h (by simp [hr])⟩
  | schedRun | trap | acquireGot =>
    cases ha
    exact ⟨le_refl _, fun h _ => ⟨h, rfl⟩, fun _ _ => rfl⟩
  | readLock =>
    cases ha
    exact ⟨le_refl _, fun _ _ => ⟨Nat.succ_pos _, rfl⟩, fun _ _ => hq⟩
  | readUnlock =>
    simp only [act] at ha
    split at ha <;> cases ha
    · exact ⟨Nat.le_succ _, fun _ h => absurd h (by simp), fun _ h => absurd h (by simp)⟩
    · exact ⟨le_refl _, fun _ _ => ⟨Nat.succ_pos _, rfl⟩, fun h _ => h (by omega)⟩
  | swtch r v =>
    cases ha
    have hr : c.reading = 0 := hq
    exact ⟨le_refl _, fun h => absurd h (by omega), fun _ h => absurd h (by simp [hr])⟩

variable {f : Frame} {i : Nat} {pc : Pc} {s : St}

theorem Pc.Knows.congr {s' : St} (hc : (s'.cpus i).context = (s.cpus i).context)
    (h : pc.Knows s f i) : pc.Knows s' f i := by
  cases pc <;> simp only [Knows, hc] at h ⊢ <;> exact h

/-- A step of a CPU keeps the invariant. -/
theorem Inv.cpu (h : Inv s) {a : Act} {c : Cpu} (ha : (s.cpus i).act a = some c)
    (hq : a.Quiet (s.cpus i)) : Inv { s with cpus := update s.cpus i c } := by
  obtain ⟨hle, hin, hid⟩ := Cpu.act_quiet ha hq
  refine ⟨fun j hj hr => ?_, fun f pc hs j => ?_, fun f pc hs j hst => ?_⟩
  · by_cases e : j = i
    · subst e
      simp only [update_self] at hr ⊢
      exact hid (h.idle j hj) hr
    · simp only [update_of_ne e] at hr ⊢
      exact h.idle j hj hr
  · have := h.mono f pc hs j
    by_cases e : j = i
    · subst e; simp only [update_self]; omega
    · simp only [update_of_ne e]; exact this
  · obtain ⟨hj, hne, hrd, hl⟩ := hst
    by_cases e : j = i
    · subst e
      simp only [update_self] at hl ⊢
      obtain ⟨h1, h2, h3⟩ := h.stuck f pc hs j ⟨hj, hne, hrd, by omega⟩
      have hm := h.mono f pc hs j
      obtain ⟨hr', hc'⟩ := hin h1 (by omega)
      exact ⟨hr', h2, h3.congr (by simpa using hc')⟩
    · simp only [update_of_ne e] at hl ⊢
      obtain ⟨h1, h2, h3⟩ := h.stuck f pc hs j ⟨hj, hne, hrd, hl⟩
      exact ⟨h1, h2, h3.congr (by simp [update_of_ne e])⟩

/-- The call begins. -/
theorem Inv.call (h : Inv s) (cpuId : Nat) (hs : s.sync = none) :
    Inv { s with sync := some ({ cpuId, start := s.cpus }, .spin) } := by
  refine ⟨fun i _ hr => h.idle i (by simp [hs]) hr, fun f pc he i => ?_, fun f pc he i hst => ?_⟩
  · cases he; exact le_refl _
  · cases he; exact ⟨hst.2.2.1, rfl, trivial⟩

section
variable (h : Inv s) (hs : s.sync = some (f, pc))
include h hs

/-- A step of the call that leaves the CPUs alone: it is enough that it marks no CPU that is still
in its section, and knows its context. -/
theorem Inv.syncKeep {f' : Frame} {pc' : Pc} (hid : f'.cpuId = f.cpuId) (hst : f'.start = f.start)
    (hk : ∀ i, Stuck s f i → (s.cpus i).idle = false → f.target i = false → pc.Knows s f i →
      f'.target i = false ∧ pc'.Knows ⟨s.cpus, some (f', pc')⟩ f' i) :
    Inv ⟨s.cpus, some (f', pc')⟩ := by
  refine ⟨fun i hi hr => h.idle i (fun g pc he => ?_) hr, fun g pc he i => ?_,
    fun g pc he i hg => ?_⟩
  · rw [hs] at he; cases he
    exact hid ▸ hi f' pc' rfl
  · cases he; rw [hst]; exact h.mono f _ hs i
  · cases he
    have hf : Stuck s f i := by
      simp only [Stuck, hid, hst] at hg ⊢; exact hg
    obtain ⟨hr, ht, hkn⟩ := h.stuck f _ hs i hf
    have hi : (s.cpus i).idle = false := h.idle i (fun g pc he => by
      rw [hs] at he; cases he; exact hf.2.1) hr
    obtain ⟨h1, h2⟩ := hk i hf hi ht hkn
    exact ⟨hr, h1, h2⟩

/-- A step of the call that changes only the caller's `idle` flag. -/
theorem Inv.syncIdle {pc' : Pc} (b : Bool) (hk : ∀ i, pc'.Knows s f i) :
    Inv ⟨update s.cpus f.cpuId { s.cpus f.cpuId with idle := b }, some (f, pc')⟩ := by
  refine ⟨fun i hi hr => ?_, fun g pc he i => ?_, fun g pc he i hg => ?_⟩
  · have hne : i ≠ f.cpuId := hi f pc' rfl
    simp only [update_of_ne hne] at hr ⊢
    exact h.idle i (fun g pc he => by rw [hs] at he; cases he; exact hne) hr
  · cases he
    have := h.mono f _ hs i
    by_cases e : i = f.cpuId
    · subst e; simpa using this
    · simpa only [update_of_ne e] using this
  · cases he
    obtain ⟨h1, hne, h3, h4⟩ := hg
    simp only [update_of_ne hne] at h4 ⊢
    obtain ⟨hr, ht, -⟩ := h.stuck f _ hs i ⟨h1, hne, h3, h4⟩
    exact ⟨hr, ht, (hk i).congr (by simp [update_of_ne hne])⟩

omit h hs in
/-- A CPU that is still in its section is not marked when another one is. -/
theorem target_mark {j : Nat} {b : Bool} (hij : i = j → b = false) (h : f.target i = false) :
    update f.target j b i = false := by
  by_cases e : i = j
  · subst e; rw [update_self]; exact hij rfl
  · rw [update_of_ne e]; exact h

/-- A step of the call keeps the invariant. -/
theorem Inv.sync : Inv ⟨(syncStep s.cpus f pc).1, some (syncStep s.cpus f pc).2⟩ := by
  cases pc with
  | spin => exact h.syncIdle hs true fun _ => trivial
  | got => exact h.syncIdle hs false fun i hi => absurd hi (Nat.not_lt_zero i)
  | boot j =>
    simp only [syncStep]
    split
    · -- the bootstrapping loop ends: every CPU below `NCPU` is known
      exact h.syncKeep hs rfl rfl fun i hi _ ht hk =>
        ⟨ht, hk (lt_of_lt_of_le hi.1 ‹_›), fun h0 => absurd h0 (Nat.not_lt_zero i)⟩
    · split
      · refine h.syncKeep hs rfl rfl fun i hi _ ht hk => ⟨ht, fun hlt => hk ?_⟩
        have := hi.2.1
        omega
      · split
        · rename_i hidle
          refine h.syncKeep hs rfl rfl fun i _ hid ht hk => ?_
          have hij : i ≠ j := by rintro rfl; rw [hid] at hidle; cases hidle
          exact ⟨target_mark (fun e => absurd e hij) ht, fun hlt => hk (by omega)⟩
        · exact h.syncKeep hs rfl rfl fun i _ _ ht hk =>
            ⟨target_mark (fun _ => rfl) ht, hk, fun _ r hr => absurd (Reg.mem_all r) hr⟩
  | save j rs =>
    cases rs with
    | nil =>
      refine h.syncKeep hs rfl rfl fun i _ _ ht hk => ⟨ht, fun hlt => ?_⟩
      by_cases e : i = j
      · exact funext fun r => hk.2 e r (by simp)
      · exact hk.1 (by omega)
    | cons r rs =>
      refine h.syncKeep hs rfl rfl fun i _ _ ht hk => ⟨ht, fun hlt => ?_, fun e r' hr' => ?_⟩
      · simp only [update_of_ne (show i ≠ j by omega)]
        exact hk.1 hlt
      · subst e
        simp only [update_self]
        by_cases hrr : r' = r
        · subst hrr; simp
        · rw [update_of_ne hrr]
          exact hk.2 rfl r' (by simp [hrr, hr'])
  | poll finished j =>
    simp only [syncStep]
    split
    · cases finished with
      | true =>
        exact h.syncKeep hs rfl rfl fun i hi _ ht hk =>
          absurd (hk.2 (lt_of_lt_of_le hi.1 ‹_›)) (by simp)
      | false =>
        exact h.syncKeep hs rfl rfl fun i _ _ ht hk =>
          ⟨ht, hk.1, fun h0 => absurd h0 (Nat.not_lt_zero i)⟩
    · split
      · rename_i hj
        refine h.syncKeep hs rfl rfl fun i hi _ ht hk => ⟨ht, hk.1, fun hlt => hk.2 ?_⟩
        have hij : i ≠ j := by
          rintro rfl
          rcases hj with rfl | hj
          · exact hi.2.1 rfl
          · rw [ht] at hj; cases hj
        omega
      · split
        · rename_i hidle
          refine h.syncKeep hs rfl rfl fun i _ hid ht hk => ?_
          have hij : i ≠ j := by rintro rfl; rw [hid] at hidle; cases hidle
          exact ⟨target_mark (fun e => absurd e hij) ht, hk.1, fun hlt => hk.2 (by omega)⟩
        · exact h.syncKeep hs rfl rfl fun i _ _ ht hk => ⟨ht, hk.1, hk.2, fun _ => rfl⟩
  | cmp finished j rs eq =>
    cases rs with
    | nil =>
      simp only [syncStep]
      split
      · exact h.syncKeep hs rfl rfl fun i _ _ ht hk => ⟨ht, hk.1, fun _ => rfl⟩
      · rename_i heq
        refine h.syncKeep hs rfl rfl fun i _ _ ht hk => ?_
        have hij : i ≠ j := fun e => heq (hk.2.2 e)
        exact ⟨target_mark (fun e => absurd e hij) ht, hk.1, fun hlt => hk.2.1 (by omega)⟩
    | cons r rs =>
      refine h.syncKeep hs rfl rfl fun i _ _ ht hk => ⟨ht, hk.1, hk.2.1, fun e => ?_⟩
      subst e
      simp [hk.2.2 rfl, hk.1]
  | release => exact h.syncKeep hs rfl rfl fun i _ _ _ hk => hk.elim
  | done => exact h.syncKeep hs rfl rfl fun i _ _ _ hk => hk.elim

end

theorem Inv.step {s' : St} {l : Lbl} (h : Inv s) (hq : Quiet s l) (hn : grace.next s l = some s') :
    Inv s' := by
  cases l with
  | cpu i a =>
    simp only [grace] at hn
    split at hn
    · obtain ⟨c, hc, rfl⟩ := Option.map_eq_some_iff.mp hn
      exact h.cpu hc hq
    · cases hn
  | call cpuId =>
    simp only [grace] at hn
    split at hn
    · rename_i hs
      cases hn
      exact h.call cpuId (Option.isNone_iff_eq_none.mp hs.2)
    · cases hn
  | sync =>
    obtain ⟨⟨f, pc⟩, hs, rfl⟩ := Option.map_eq_some_iff.mp hn
    exact h.sync hs

/-- **The grace period without the defect.** In every run from boot in which no CPU raises a signal
inside a read section, when the call of `synchronize_rcu` has returned, every other CPU that was in
a read section when the call began has left it. -/
theorem grace_of_quiet {ls : List Lbl} {s : St} (hq : grace.Meets Quiet boot ls)
    (hr : grace.run boot ls = some s) : GraceOk s := by
  have hi : Inv s := Machine.run_inv Inv.step Inv.boot hq hr
  intro f hf i hi' hne hrd
  by_contra hle
  exact (hi.stuck f .done hf i ⟨hi', hne, hrd, by omega⟩).2.2

/-- CPU 1 reads while CPU 0 calls `synchronize_rcu(0)`, leaves its section and goes idle. -/
def readerRun : List Lbl :=
  [.cpu 1 .readLock, .call 0] ++ List.replicate 3 .sync ++
    [.cpu 1 .readUnlock, .cpu 1 .schedIdle] ++ List.replicate 6 .sync

theorem grace_readerRun : ∃ s, grace.run boot readerRun = some s ∧
    s.sync.map (·.2) = some .done ∧ GraceOk s := by
  have h : (grace.run boot readerRun).map (fun s => s.sync.map (·.2)) = some (some .done) := by
    decide +kernel
  obtain ⟨s, hs, h⟩ := Option.map_eq_some_iff.mp h
  exact ⟨s, hs, h, grace_of_quiet (by decide +kernel) hs⟩

end Xv6.Grace
