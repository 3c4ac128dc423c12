import Xv6Rcu.Lib.Machine
import Xv6Rcu.Lib.Owner
import Xv6Rcu.Fs.Bio
import Mathlib.Algebra.BigOperators.Ring.Finset

/-!
# Log transactions

`begin_op`, `log_write`, `end_op` and the commit (`log.c`), called by any number of processes. What
a process does under `log.lock` is one step; a `begin_op` that sleeps is a step that cannot be
taken. The commit runs without the lock, so each round of `install_trans` is a step of its own.

- `Lg`: `struct log`, with the entries of `log.lh` as a list.
- `Sound`: what holds in every reachable state (`sound_of_budget`).
- `full_log_panics`: `log_write` tests for space before it looks for the block in the log, so in a
  full log it refuses a block that is already there. This is the only block that it refuses
  (`logWrite_tooBig_iff`).
-/

namespace Xv6.Trans

open Lib Fs Function List

/-! ## `log.c` -/

/-- `struct log`. `block` lists `lh.block[0], …, lh.block[lh.n - 1]`. -/
structure Lg where
  size : Int
  outstanding : Int := 0
  committing : Bool := false
  block : List BlockNo := []
  deriving DecidableEq

/-- One test of the loop of `begin_op`, `none` if it sleeps. -/
def beginOp (l : Lg) : Option Lg :=
  if l.committing then none
  -- this op might exhaust log space; wait for commit
  else if (LOGSIZE : Int) < l.block.length + (l.outstanding + 1) * MAXOPBLOCKS then none
  else some { l with outstanding := l.outstanding + 1 }

/-- `log_write` of a buffer of the block `b`, and whether it pins the buffer. -/
def logWrite (l : Lg) (b : BlockNo) : Except String (Lg × Bool) :=
  if (LOGSIZE : Int) ≤ l.block.length ∨ l.size - 1 ≤ l.block.length then
    .error "too big a transaction"
  else if l.outstanding < 1 then .error "log_write outside of trans"
  -- log absorption
  else if b ∈ l.block then .ok (l, false)
  else .ok ({ l with block := l.block ++ [b] }, true)

/-- `end_op` up to its first `release`, and `do_commit`. -/
def endOp (l : Lg) : Except String (Lg × Bool) :=
  let l := { l with outstanding := l.outstanding - 1 }
  if l.committing then .error "log.committing"
  else if l.outstanding = 0 then .ok ({ l with committing := true }, true)
  else .ok (l, false)

/-! ## The machine -/

/-- What an operation has done since its `begin_op`: the blocks that it has called `log_write` on,
and how many entries of the log are due to it. -/
structure Op where
  called : List BlockNo := []
  added : Nat := 0
  deriving DecidableEq

/-- The operation after a `log_write` of `b`, which was `new` in the log or not. -/
def Op.call (o : Op) (b : BlockNo) (new : Bool) : Op where
  called := if b ∈ o.called then o.called else b :: o.called
  added := if new then o.added + 1 else o.added

/-- Where a process is. -/
inductive Pc where
  /-- In no operation. -/
  | idle
  | op (o : Op)
  /-- In `commit`, up to `install_trans`. -/
  | commit
  | install (tail : Nat)
  /-- `commit` has returned. -/
  | committed
  deriving DecidableEq

/-- `pins b` counts the references that the log has to the buffer of the block `b`. -/
structure St (n : Nat) where
  log : Lg
  pins : BlockNo → Nat := fun _ => 0
  pc : Fin n → Pc := fun _ => .idle

/-- No operation has begun. -/
def boot (n : Nat) (size : Int) : St n := { log := { size } }

inductive Act where
  | beginOp
  | logWrite (b : BlockNo)
  | endOp
  /-- The next step of the commit. -/
  | commit
  deriving DecidableEq

/-- A process and what it does. -/
structure Lbl (n : Nat) where
  proc : Fin n
  act : Act
  deriving DecidableEq

variable {n : Nat}

def St.goto (s : St n) (i : Fin n) (pc : Pc) : St n := { s with pc := Function.update s.pc i pc }

/-- One step of the process `i`. A call that panics is no step. -/
def step (s : St n) (i : Fin n) : Pc → Act → Option (St n)
  | .idle, .beginOp => (beginOp s.log).map fun l => { s with log := l }.goto i (.op {})
  | .op o, .logWrite b =>
    match logWrite s.log b with
    | .ok (l, new) =>
      let pins := if new then Function.update s.pins b (s.pins b + 1) else s.pins
      some ({ s with log := l, pins }.goto i (.op (o.call b new)))
    | .error _ => none
  | .op _, .endOp =>
    match endOp s.log with
    | .ok (l, doCommit) => some ({ s with log := l }.goto i (if doCommit then .commit else .idle))
    | .error _ => none
  | .commit, .commit => some (s.goto i (if 0 < s.log.block.length then .install 0 else .committed))
  | .install tail, .commit =>
    match s.log.block[tail]? with
    -- `bunpin(dbuf)`
    | some b =>
      some ({ s with pins := Function.update s.pins b (s.pins b - 1) }.goto i (.install (tail + 1)))
    | none => some ({ s with log.block := [] }.goto i .committed)
  | .committed, .commit => some ({ s with log.committing := false }.goto i .idle)
  | _, _ => none

def machine : Machine (St n) (Lbl n) where
  next s l := step s l.proc (s.pc l.proc) l.act

/-! ## The properties -/

def Pc.isOp : Pc → Bool
  | .op _ => true
  | _ => false

/-- How many entries the process may still add. -/
def Pc.budget : Pc → Nat
  | .op o => MAXOPBLOCKS - o.added
  | _ => 0

/-- The number of operations in progress. -/
def St.inProgress (s : St n) : Nat := (Finset.univ.filter fun i => (s.pc i).isOp).card

/-- Once `install_trans` has done the first `tail` entries, the pins are on the others. -/
def St.PinnedFrom (s : St n) (tail : Nat) : Prop :=
  ∀ b, s.pins b = if b ∈ s.log.block.drop tail then 1 else 0

structure Sound (s : St n) : Prop where
  distinct : s.log.block.Nodup
  /-- The entries are pinned once, and nothing else is pinned. -/
  pinned : (∀ i tail, s.pc i ≠ .install tail) → s.PinnedFrom 0
  installing : ∀ i tail, s.pc i = .install tail → s.PinnedFrom tail
  within : ∀ i o, s.pc i = .op o → o.added ≤ MAXOPBLOCKS
  reserved : s.log.block.length + ∑ i, (s.pc i).budget ≤ LOGSIZE
  outstanding : s.log.outstanding = s.inProgress
  committing : s.log.committing = true → s.inProgress = 0
  endOp_ok : ∀ i o, s.pc i = .op o → endOp s.log ≠ .error "log.committing"
  committed : ∀ i, s.pc i = .committed → s.log.block = [] ∧ ∀ b, s.pins b = 0

/-- Every `log_write` of an operation meets `P`. -/
def OnCalls (P : Lg → Op → BlockNo → Prop) (s : St n) (l : Lbl n) : Prop :=
  ∀ o b, s.pc l.proc = .op o → l.act = .logWrite b → P s.log o b

instance (P : Lg → Op → BlockNo → Prop) [∀ g o b, Decidable (P g o b)] (s : St n) (l : Lbl n) :
    Decidable (OnCalls P s l) :=
  match hp : s.pc l.proc, ha : l.act with
  | .op o, .logWrite b =>
    decidable_of_iff (P s.log o b)
      ⟨fun h o' b' ho hb => by rw [hp] at ho; rw [ha] at hb; cases ho; cases hb; exact h,
        fun h => h o b hp ha⟩
  | .idle, _ | .commit, _ | .install _, _ | .committed, _ =>
    isTrue fun o b ho _ => by rw [hp] at ho; cases ho
  | .op _, .beginOp | .op _, .endOp | .op _, .commit =>
    isTrue fun o b _ hb => by rw [ha] at hb; cases hb

/-- An operation adds at most `MAXOPBLOCKS` entries. -/
abbrev Budget : St n → Lbl n → Prop :=
  OnCalls fun l o b => b ∈ l.block ∨ o.added < MAXOPBLOCKS

/-- The operation may call `log_write` on `b`: it does so on at most `MAXOPBLOCKS` blocks. -/
def Op.Allows (o : Op) (b : BlockNo) : Prop := b ∈ o.called ∨ o.called.length < MAXOPBLOCKS

instance (o : Op) (b : BlockNo) : Decidable (o.Allows b) :=
  inferInstanceAs (Decidable (_ ∨ _))

/-- An operation calls `log_write` on at most `MAXOPBLOCKS` blocks. -/
abbrev Distinct : St n → Lbl n → Prop := OnCalls fun _ o b => o.Allows b

/-! ## What the functions do to the log -/

theorem beginOp_eq_some {l l' : Lg} : beginOp l = some l' ↔ l.committing = false ∧
    l.block.length + (l.outstanding + 1) * MAXOPBLOCKS ≤ (LOGSIZE : Int) ∧
    l' = { l with outstanding := l.outstanding + 1 } := by
  unfold beginOp
  grind

theorem logWrite_eq_ok {l l' : Lg} {b : BlockNo} {new : Bool} (h : logWrite l b = .ok (l', new)) :
    l' = l ∧ new = false ∧ b ∈ l.block ∨
    l' = { l with block := l.block ++ [b] } ∧ new = true ∧ b ∉ l.block := by
  unfold logWrite at h
  grind

theorem endOp_eq_ok {l l' : Lg} {c : Bool} (h : endOp l = .ok (l', c)) :
    l.committing = false ∧
    l' = { l with outstanding := l.outstanding - 1, committing := decide (l.outstanding = 1) } ∧
    c = decide (l.outstanding = 1) := by
  unfold endOp at h
  grind

/-! ## The invariant -/

/-- Whether the process runs the commit. -/
def Pc.phase : Pc → Option Unit
  | .commit | .install _ | .committed => some ()
  | _ => none

def Pc.ops (pc : Pc) : Nat := if pc.isOp then 1 else 0

def Pc.tail : Pc → Nat
  | .install t => t
  | _ => 0

theorem St.inProgress_eq (s : St n) : s.inProgress = ∑ i, (s.pc i).ops := by
  exact Finset.card_filter _ _

/-- What holds of a process at its place. -/
def Pc.Good (l : Lg) : Pc → Prop
  | .idle => True
  | .op o => o.added ≤ o.called.length ∧ ∀ b ∈ o.called, b ∈ l.block
  | .commit | .install _ => l.committing = true
  | .committed => l.committing = true ∧ l.block = []

structure Inv (s : St n) : Prop where
  nodup : s.log.block.Nodup
  exclusive : Exclusive Pc.phase s.pc
  good : ∀ i, (s.pc i).Good s.log
  outstanding : s.log.outstanding = (∑ i, (s.pc i).ops : ℕ)
  quiet : s.log.committing = true → s.log.outstanding = 0
  pins : s.PinnedFrom (∑ i, (s.pc i).tail)

theorem inv_boot (size : Int) : Inv (boot n size) where
  nodup := List.nodup_nil
  exclusive := fun i j x hi => by cases hi
  good := fun _ => trivial
  outstanding := by simp [boot, Pc.ops, Pc.isOp]
  quiet := fun _ => rfl
  pins := by simp [boot, St.PinnedFrom]

namespace Inv

variable {s s' : St n} {i : Fin n} {o : Op}

section
variable (h : Inv s) {l : Lg}
include h

theorem committing (hi : (s.pc i).phase = some ()) : s.log.committing = true := by
  have hg := h.good i
  generalize s.pc i = pc at hg hi
  cases pc with
  | idle | op => cases hi
  | commit | install => exact hg
  | committed => exact hg.1

/-- While an operation is in progress nobody commits. -/
theorem not_committing (hp : s.pc i = .op o) : s.log.committing = false := by
  rw [Bool.eq_false_iff]
  intro hc
  have hle := le_sum_parties Pc.ops s.pc i
  have hone : (s.pc i).ops = 1 := by rw [hp]; rfl
  have h0 := h.quiet hc
  have ho := h.outstanding
  omega

/-- Without a commit, no process is in its commit. -/
theorem phase_eq_none (hc : s.log.committing = false) (j : Fin n) : (s.pc j).phase = none := by
  cases hj : (s.pc j).phase with
  | none => rfl
  | some u =>
    rw [h.committing hj] at hc
    cases hc

theorem tail_eq_zero (hc : s.log.committing = false) : ∑ j, (s.pc j).tail = 0 := by
  refine Finset.sum_eq_zero fun j _ => ?_
  have hj := h.phase_eq_none hc j
  generalize s.pc j = pc at hj
  cases pc <;> first | rfl | cases hj

/-- While `i` commits, every other process is idle. -/
theorem idle (hi : (s.pc i).phase = some ()) {j : Fin n} (hj : j ≠ i) : s.pc j = .idle := by
  have hx : (s.pc j).phase ≠ some () := fun hp => hj (h.exclusive j i () hp hi)
  rcases hpc : s.pc j with _ | o | _ | _ | _
  · rfl
  · have hc := h.not_committing hpc
    rw [h.committing hi] at hc
    cases hc
  all_goals
    rw [hpc] at hx
    exact absurd rfl hx

theorem sum_eq (hi : (s.pc i).phase = some ()) (g : Pc → ℕ) (hg : g .idle = 0) :
    ∑ j, g (s.pc j) = g (s.pc i) := by
  refine Finset.sum_eq_single i (fun j _ hj => ?_) (fun hn => absurd (Finset.mem_univ i) hn)
  rw [h.idle hi hj, hg]

theorem pinnedFrom (hi : (s.pc i).phase = some ()) : s.PinnedFrom (s.pc i).tail := by
  have hp := h.pins
  rwa [h.sum_eq hi Pc.tail rfl] at hp

omit h in
/-- A step is checked at the new log, the new pins and the new place of `i`. -/
theorem goto {pins : BlockNo → Nat} {pc : Pc} (hnodup : l.block.Nodup)
    (hexcl : Exclusive Pc.phase (update s.pc i pc)) (hgood : pc.Good l)
    (hothers : ∀ j, j ≠ i → (s.pc j).Good l)
    (hout : l.outstanding = (∑ j, (update s.pc i pc j).ops : ℕ))
    (hquiet : l.committing = true → l.outstanding = 0) (hpins : ∀ b, pins b =
      if b ∈ l.block.drop (∑ j, (update s.pc i pc j).tail) then 1 else 0) :
    Inv ({ s with log := l, pins }.goto i pc) where
  nodup := hnodup
  exclusive := hexcl
  good := (forall_update_iff _ fun _ (pc : Pc) => pc.Good l).mpr ⟨hgood, hothers⟩
  outstanding := hout
  quiet := hquiet
  pins := hpins

theorem beginOp (hp : s.pc i = .idle) (hl : Trans.beginOp s.log = some l) :
    Inv ({ s with log := l }.goto i (.op {})) := by
  obtain ⟨hc, hroom, rfl⟩ := beginOp_eq_some.mp hl
  have hops := sum_move Pc.ops s.pc i (.op {})
  have htail := sum_move Pc.tail s.pc i (.op {})
  rw [hp] at hops htail
  change _ + 0 = _ + 1 at hops
  have hout := h.outstanding
  refine goto h.nodup (h.exclusive.move fun x hx => nomatch hx) ⟨?_, ?_⟩ (fun j _ => h.good j)
    ?_ (fun hc' => ?_) ?_
  · exact Nat.zero_le _
  · exact fun b hb => nomatch hb
  · show s.log.outstanding + 1 = _
    omega
  · exact absurd hc' (Bool.eq_false_iff.mp hc)
  · intro b
    rw [show ∑ j, (update s.pc i (.op {}) j).tail = ∑ j, (s.pc j).tail from htail]
    exact h.pins b

theorem logWrite (hp : s.pc i = .op o) {b : BlockNo} {new : Bool}
    (hl : Trans.logWrite s.log b = .ok (l, new)) :
    Inv ({ s with
      log := l
      pins := if new then update s.pins b (s.pins b + 1) else s.pins }.goto i
        (.op (o.call b new))) := by
  have hc := h.not_committing hp
  have hg := h.good i
  rw [hp] at hg
  obtain ⟨hadd, hcalled⟩ := hg
  have hops := sum_move Pc.ops s.pc i (.op (o.call b new))
  have htail := sum_move Pc.tail s.pc i (.op (o.call b new))
  rw [hp] at hops htail
  change _ + 1 = _ + 1 at hops
  change _ + 0 = _ + 0 at htail
  have htail0 := h.tail_eq_zero hc
  have hout := h.outstanding
  -- the operation after the call
  have hop : ∀ l : Lg, (∀ c ∈ s.log.block, c ∈ l.block) → b ∈ l.block →
      (new = true → b ∉ s.log.block) → (Pc.op (o.call b new)).Good l := by
    intro l hsub hbl hnew
    refine ⟨?_, ?_⟩ <;> simp only [Op.call]
    · by_cases hbo : b ∈ o.called
      · have : new = false := by
          rw [Bool.eq_false_iff]
          exact fun hn => hnew hn (hcalled b hbo)
        simpa [this, hbo] using hadd
      · simp only [hbo, if_false, length_cons]
        split <;> omega
    · intro c hc
      have : c = b ∨ c ∈ o.called := by
        split at hc
        · exact .inr hc
        · exact mem_cons.mp hc
      rcases this with rfl | hc
      · exact hbl
      · exact hsub c (hcalled c hc)
  obtain ⟨rfl, rfl, hmem⟩ | ⟨rfl, rfl, hnot⟩ := logWrite_eq_ok hl
  · refine goto h.nodup (h.exclusive.move fun x hx => nomatch hx) ?_ (fun j _ => h.good j) ?_
      h.quiet ?_
    · exact hop _ (fun c hc => hc) hmem (fun hn => nomatch hn)
    · omega
    · rw [show ∑ j, (update s.pc i (.op (o.call b false)) j).tail = ∑ j, (s.pc j).tail by
        omega]
      exact h.pins
  · refine goto (nodup_append.mpr ⟨h.nodup, by simp, ?_⟩)
      (h.exclusive.move fun x hx => nomatch hx) ?_ (fun j _ => ?_) ?_ h.quiet ?_
    · intro c hc d hd
      rw [mem_singleton.mp hd]
      exact fun he => hnot (he ▸ hc)
    · exact hop _ (fun c hc => mem_append_left _ hc) (by simp) (fun _ => hnot)
    · -- nobody else can have finished a commit
      have hj := h.good j
      have hph := h.phase_eq_none hc j
      generalize s.pc j = pc at hj hph
      cases pc with
      | op o' => exact ⟨hj.1, fun c hc => mem_append_left _ (hj.2 c hc)⟩
      | committed => cases hph
      | _ => exact hj
    · show s.log.outstanding = _
      omega
    · rw [show ∑ j, (update s.pc i (.op (o.call b true)) j).tail = 0 by omega]
      have hpins := h.pins
      rw [htail0] at hpins
      intro c
      have hpc := hpins c
      by_cases hcb : c = b
      · subst hcb
        simpa [hnot] using hpc
      · simpa [hcb] using hpc

theorem endOp (hp : s.pc i = .op o) {doCommit : Bool} (hl : Trans.endOp s.log = .ok (l, doCommit)) :
    Inv ({ s with log := l }.goto i (if doCommit then .commit else .idle)) := by
  obtain ⟨hc, rfl, rfl⟩ := endOp_eq_ok hl
  generalize hpc : (if decide (s.log.outstanding = 1) = true then Pc.commit else Pc.idle) = pc
  have hcases : pc = .commit ∧ s.log.outstanding = 1 ∨ pc = .idle ∧ s.log.outstanding ≠ 1 := by
    grind
  have hops := sum_move Pc.ops s.pc i pc
  have htail := sum_move Pc.tail s.pc i pc
  have hnew : pc.ops = 0 ∧ pc.tail = 0 := by
    obtain ⟨rfl, -⟩ | ⟨rfl, -⟩ := hcases <;> exact ⟨rfl, rfl⟩
  rw [hp] at hops
  rw [hp] at htail
  change _ + 1 = _ at hops
  change _ + 0 = _ at htail
  have hout := h.outstanding
  refine goto h.nodup (h.exclusive.move fun x _ => .inr fun j _ => ?_) ?_ (fun j _ => ?_) ?_
    (fun hc' => ?_) ?_
  · rw [h.phase_eq_none hc j]
    exact nofun
  · obtain ⟨rfl, h1⟩ | ⟨rfl, -⟩ := hcases
    · exact decide_eq_true h1
    · trivial
  · have hj := h.good j
    have hph := h.phase_eq_none hc j
    generalize s.pc j = pc at hj hph
    cases pc with
    | idle => trivial
    | op o' => exact hj
    | _ => cases hph
  · show s.log.outstanding - 1 = _
    omega
  · have := of_decide_eq_true hc'
    show s.log.outstanding - 1 = 0
    omega
  · rw [show ∑ j, (update s.pc i pc j).tail = ∑ j, (s.pc j).tail by omega]
    exact h.pins

/-- A step of the commit, to `pc`. -/
theorem commitStep (hi : (s.pc i).phase = some ()) {pins : BlockNo → Nat} {pc : Pc}
    (hnodup : l.block.Nodup) (hops : pc.ops = 0) (hgood : pc.Good l)
    (hout : l.outstanding = s.log.outstanding)
    (hpins : ∀ b, pins b = if b ∈ l.block.drop pc.tail then 1 else 0) :
    Inv ({ s with log := l, pins }.goto i pc) := by
  have hops' := sum_move Pc.ops s.pc i pc
  have htail' := sum_move Pc.tail s.pc i pc
  rw [h.sum_eq hi Pc.tail rfl] at htail'
  have hout' := h.outstanding
  have hquiet := h.quiet (h.committing hi)
  refine goto hnodup (h.exclusive.move fun x _ => .inl hi) hgood (fun j hj => ?_) ?_ (fun _ => ?_)
    ?_
  · rw [h.idle hi hj]
    trivial
  · omega
  · omega
  · rw [show ∑ j, (update s.pc i pc j).tail = pc.tail by omega]
    exact hpins

/-- `install_trans` releases the pin of the entry `tail`. -/
theorem unpin {tail : Nat} (hp : s.pc i = .install tail) {b : BlockNo}
    (hb : s.log.block[tail]? = some b) :
    Inv ({ s with pins := update s.pins b (s.pins b - 1) }.goto i
      (.install (tail + 1))) := by
  have hi : (s.pc i).phase = some () := by rw [hp]; rfl
  have hpins := h.pinnedFrom hi
  rw [hp] at hpins
  obtain ⟨hlt, rfl⟩ := List.getElem?_eq_some_iff.mp hb
  have hdrop := drop_eq_getElem_cons hlt
  have hnot : s.log.block[tail] ∉ s.log.block.drop (tail + 1) := by
    have hnd : (s.log.block.drop tail).Nodup := h.nodup.sublist (drop_sublist _ _)
    rw [hdrop] at hnd
    exact (nodup_cons.mp hnd).1
  refine h.commitStep hi h.nodup rfl ?_ rfl fun c => ?_
  · exact h.committing hi
  · have hc : s.pins c = if c ∈ s.log.block.drop tail then 1 else 0 := hpins c
    show _ = if c ∈ s.log.block.drop (tail + 1) then 1 else 0
    simp only [hdrop, mem_cons] at hc
    by_cases hcb : c = s.log.block[tail]
    · subst hcb
      rw [update_self, hc, if_pos (.inl rfl), if_neg hnot]
    · rw [update_of_ne hcb, hc]
      simp [hcb]

end

end Inv

/-- Every step keeps the invariant. -/
theorem Inv.step {s s' : St n} {l : Lbl n} (h : Inv s)
    (hn : machine.next s l = some s') : Inv s' := by
  obtain ⟨i, act⟩ := l
  change Trans.step s i (s.pc i) act = some s' at hn
  generalize hp : s.pc i = pc at hn
  unfold Trans.step at hn
  split at hn
  case h_1 =>
    obtain ⟨l, hl, rfl⟩ := Option.map_eq_some_iff.mp hn
    exact h.beginOp hp hl
  case h_2 o b =>
    split at hn
    case h_1 l new hl =>
      cases hn
      exact h.logWrite hp hl
    case h_2 => cases hn
  case h_3 o =>
    split at hn
    case h_1 l c hl =>
      cases hn
      exact h.endOp hp hl
    case h_2 => cases hn
  case h_4 =>
    cases hn
    have hi : (s.pc i).phase = some () := by rw [hp]; rfl
    have hpins := h.pinnedFrom hi
    rw [hp] at hpins
    split
    · exact h.commitStep hi h.nodup rfl (h.committing hi) rfl hpins
    · next hlen =>
      exact h.commitStep hi h.nodup rfl
        ⟨h.committing hi, length_eq_zero_iff.mp (Nat.eq_zero_of_not_pos hlen)⟩ rfl hpins
  case h_5 tail =>
    have hi : (s.pc i).phase = some () := by rw [hp]; rfl
    split at hn
    case h_1 b hget =>
      cases hn
      exact h.unpin hp hget
    case h_2 hget =>
      cases hn
      have hpins := h.pinnedFrom hi
      rw [hp] at hpins
      -- every entry has been installed
      have hdrop := drop_eq_nil_of_le (getElem?_eq_none_iff.mp hget)
      refine h.commitStep hi nodup_nil rfl ⟨h.committing hi, rfl⟩ rfl
        fun c => ?_
      have hc : s.pins c = if c ∈ s.log.block.drop tail then 1 else 0 := hpins c
      rw [hc, hdrop]
      rfl
  case h_6 =>
    cases hn
    have hi : (s.pc i).phase = some () := by rw [hp]; rfl
    have hpins := h.pinnedFrom hi
    rw [hp] at hpins
    exact h.commitStep hi h.nodup rfl trivial rfl hpins
  case h_7 => cases hn

/-! ## Reserved space -/

/-- Every operation is within its budget, and what is left of the budgets fits the log. -/
structure Reserved (s : St n) : Prop where
  within : ∀ i o, s.pc i = .op o → o.added ≤ MAXOPBLOCKS
  room : s.log.block.length + ∑ i, (s.pc i).budget ≤ LOGSIZE

theorem reserved_boot (size : Int) : Reserved (boot n size) where
  within := fun i o hp => nomatch hp
  room := by simp [boot, Pc.budget]

/-- The budgets are at most `MAXOPBLOCKS` for each operation in progress. -/
theorem budget_le (s : St n) : ∑ j, (s.pc j).budget ≤ (∑ j, (s.pc j).ops) * MAXOPBLOCKS := by
  rw [Finset.sum_mul]
  refine sum_le_sum fun j _ => ?_
  generalize s.pc j = pc
  cases pc with
  | op o =>
    simp only [Pc.budget, Pc.ops, Pc.isOp, if_true]
    omega
  | _ => exact Nat.zero_le _

namespace Reserved

variable {s s' : St n} {i : Fin n} {o : Op} {l : Lg} {pins : BlockNo → Nat} {pc : Pc}

theorem goto (h : Reserved s) (hpc : ∀ o, pc = .op o → o.added ≤ MAXOPBLOCKS)
    (hroom : l.block.length + ∑ j, (update s.pc i pc j).budget ≤ LOGSIZE) :
    Reserved ({ s with log := l, pins }.goto i pc) where
  within := (forall_update_iff _
    fun _ (pc : Pc) => ∀ o, pc = .op o → o.added ≤ MAXOPBLOCKS).mpr ⟨hpc, fun j _ => h.within j⟩
  room := hroom

/-- Neither the log nor the budget of `i` grows. -/
theorem shrink (h : Reserved s) (hpc : pc.isOp = false)
    (hlen : l.block.length ≤ s.log.block.length) :
    Reserved ({ s with log := l, pins }.goto i pc) := by
  have hmove := sum_move Pc.budget s.pc i pc
  have hroom := h.room
  have hnew : pc.budget = 0 := by cases pc <;> first | rfl | cases hpc
  refine h.goto (fun o ho => ?_) (by omega)
  subst ho
  cases hpc

theorem beginOp (h : Reserved s) (hi : Inv s) (hp : s.pc i = .idle)
    (hl : Trans.beginOp s.log = some l) : Reserved ({ s with log := l }.goto i (.op {})) := by
  obtain ⟨-, hroom, rfl⟩ := beginOp_eq_some.mp hl
  have hmove := sum_move Pc.budget s.pc i (.op {})
  rw [hp] at hmove
  change _ + 0 = _ + MAXOPBLOCKS at hmove
  refine h.goto (fun o ho => by cases ho; exact Nat.zero_le _) ?_
  -- the test of `begin_op` counts a whole budget for each operation
  have hle := budget_le s
  have hout := hi.outstanding
  simp only [MAXOPBLOCKS] at *
  omega

theorem logWrite (h : Reserved s) (hp : s.pc i = .op o) {b : BlockNo} {new : Bool}
    (hl : Trans.logWrite s.log b = .ok (l, new)) (hb : b ∈ s.log.block ∨ o.added < MAXOPBLOCKS) :
    Reserved ({ s with log := l, pins }.goto i (.op (o.call b new))) := by
  have hmove := sum_move Pc.budget s.pc i (.op (o.call b new))
  rw [hp] at hmove
  change _ + (MAXOPBLOCKS - o.added) = _ + (MAXOPBLOCKS - (if new then o.added + 1 else o.added))
    at hmove
  have hroom := h.room
  have hmax := h.within i o hp
  obtain ⟨rfl, rfl, -⟩ | ⟨rfl, rfl, hnot⟩ := logWrite_eq_ok hl
  · simp only [Bool.false_eq_true, if_false] at hmove
    refine h.goto (fun o' ho => ?_) (by omega)
    cases ho
    exact hmax
  · have hlt := hb.resolve_left hnot
    simp only [if_true] at hmove
    refine h.goto (fun o' ho => ?_) ?_
    · cases ho
      exact hlt
    · simp only [length_append, length_singleton]
      omega

end Reserved

/-- Every step of an operation within its budget keeps the reserved space. -/
theorem Reserved.step {s s' : St n} {l : Lbl n} (h : Reserved s) (hi : Inv s) (hb : Budget s l)
    (hn : machine.next s l = some s') : Reserved s' := by
  obtain ⟨i, act⟩ := l
  change Trans.step s i (s.pc i) act = some s' at hn
  generalize hp : s.pc i = pc at hn
  unfold Trans.step at hn
  split at hn
  case h_1 =>
    obtain ⟨l, hl, rfl⟩ := Option.map_eq_some_iff.mp hn
    exact h.beginOp hi hp hl
  case h_2 o b =>
    split at hn
    case h_1 l new hl =>
      cases hn
      exact h.logWrite hp hl (hb o b hp rfl)
    case h_2 => cases hn
  case h_3 o =>
    split at hn
    case h_1 l c hl =>
      cases hn
      obtain ⟨-, rfl, -⟩ := endOp_eq_ok hl
      exact h.shrink (by split <;> rfl) le_rfl
    case h_2 => cases hn
  case h_4 =>
    cases hn
    exact h.shrink (by split <;> rfl) le_rfl
  case h_5 tail =>
    split at hn <;> cases hn
    · exact h.shrink rfl le_rfl
    · exact h.shrink rfl (Nat.zero_le _)
  case h_6 =>
    cases hn
    exact h.shrink rfl le_rfl
  case h_7 => cases hn

theorem Inv.sound {s : St n} (h : Inv s) (hres : Reserved s) : Sound s where
  distinct := h.nodup
  pinned := fun hno => by
    have hp := h.pins
    rwa [Finset.sum_eq_zero fun j _ => ?_] at hp
    have hj := hno j
    generalize s.pc j = pc at hj
    cases pc with
    | install t => exact absurd rfl (hj t)
    | _ => rfl
  installing := fun i tail hp => by
    have hpins := h.pinnedFrom (i := i) (by rw [hp]; rfl)
    rwa [hp] at hpins
  within := hres.within
  reserved := hres.room
  outstanding := by rw [St.inProgress_eq, h.outstanding]
  committing := fun hc => by
    have hq := h.quiet hc
    have hout := h.outstanding
    rw [St.inProgress_eq]
    omega
  endOp_ok := fun i o hp => by
    have hc := h.not_committing hp
    unfold Trans.endOp
    simp only [hc, Bool.false_eq_true, if_false]
    split <;> exact nofun
  committed := fun i hp => by
    have hg := h.good i
    rw [hp] at hg
    refine ⟨hg.2, fun b => ?_⟩
    rw [h.pins b, hg.2]
    simp

/-- **Log transactions.** -/
theorem sound_of_budget {size : Int} {ls : List (Lbl n)} {s : St n}
    (hm : machine.Meets Budget (boot n size) ls) (hr : machine.run (boot n size) ls = some s) :
    Sound s := by
  obtain ⟨hi, hres⟩ : Inv s ∧ Reserved s :=
    Machine.run_inv (I := fun s => Inv s ∧ Reserved s)
      (fun h hb hn => ⟨h.1.step hn, h.2.step h.1 hb hn⟩) ⟨inv_boot size, reserved_boot size⟩ hm hr
  exact hi.sound hres

/-- Two operations write the same block, and their transaction is committed. -/
def absorbRun : List (Lbl 2) :=
  [⟨0, .beginOp⟩, ⟨1, .beginOp⟩, ⟨0, .logWrite 100⟩, ⟨1, .logWrite 100⟩, ⟨1, .logWrite 101⟩,
    ⟨0, .endOp⟩, ⟨1, .endOp⟩] ++ List.replicate 4 ⟨1, .commit⟩

theorem sound_of_budget_absorbRun : ∃ s, machine.run (boot 2 31) absorbRun = some s ∧
    s.pc 1 = .committed ∧ Sound s := by
  have h : (machine.run (boot 2 31) absorbRun).map (·.pc 1) = some .committed := by decide +kernel
  obtain ⟨s, hs, h⟩ := Option.map_eq_some_iff.mp h
  exact ⟨s, hs, h, sound_of_budget (by decide +kernel) hs⟩

/-! ## Full logs -/

/-- Three operations call `log_write` on ten blocks each, which fills the log. -/
def fullRun : List (Lbl 3) :=
  [⟨0, .beginOp⟩, ⟨1, .beginOp⟩, ⟨2, .beginOp⟩] ++
    (List.range 30).map fun k => ⟨Fin.ofNat 3 (k / 10), .logWrite (100 + BitVec.ofNat 32 k)⟩

/-- The first of them then writes its first block again. -/
theorem full_log_panics : ∃ s o, machine.Meets Distinct (boot 3 31) fullRun ∧
    machine.run (boot 3 31) fullRun = some s ∧ s.pc 0 = .op o ∧ (100 : BlockNo) ∈ o.called ∧
    logWrite s.log 100 = .error "too big a transaction" := by
  have h : (machine.run (boot 3 31) fullRun).map (fun s => (s.pc 0, s.log.block.length)) =
      some (.op ⟨(range 10).reverse.map fun k => 100 + BitVec.ofNat 32 k, 10⟩, 30) := by
    decide +kernel
  obtain ⟨s, hs, h⟩ := Option.map_eq_some_iff.mp h
  obtain ⟨hp, hl⟩ := Prod.mk.inj h
  refine ⟨s, _, by decide +kernel, hs, hp, by decide +kernel, ?_⟩
  exact if_pos (.inl (by rw [hl]; decide))

/-- The blocks that an operation has called `log_write` on are in the log, so a call on another one
adds an entry within the budget. -/
theorem Inv.budget {s : St n} {l : Lbl n} (h : Inv s) (hd : Distinct s l) : Budget s l := by
  intro o b hp ha
  have hg := h.good l.proc
  rw [hp] at hg
  rcases hd o b hp ha with hb | hlt
  · exact .inl (hg.2 b hb)
  · exact .inr (lt_of_le_of_lt hg.1 hlt)

theorem size_step {s s' : St n} {l : Lbl n} (hn : machine.next s l = some s') :
    s'.log.size = s.log.size := by
  obtain ⟨i, act⟩ := l
  change step s i (s.pc i) act = some s' at hn
  unfold step at hn
  split at hn
  case h_1 =>
    obtain ⟨l, hl, rfl⟩ := Option.map_eq_some_iff.mp hn
    obtain ⟨-, -, rfl⟩ := beginOp_eq_some.mp hl
    rfl
  case h_2 =>
    split at hn
    case h_1 hl =>
      cases hn
      obtain ⟨rfl, -⟩ | ⟨rfl, -⟩ := logWrite_eq_ok hl <;> rfl
    case h_2 => cases hn
  case h_3 =>
    split at hn
    case h_1 hl =>
      cases hn
      obtain ⟨-, rfl, -⟩ := endOp_eq_ok hl
      rfl
    case h_2 => cases hn
  case h_5 => split at hn <;> cases hn <;> rfl
  all_goals cases hn; try rfl

/-- An operation that calls `log_write` on at most `MAXOPBLOCKS` blocks is refused exactly when the
log is full and the block is already in it. -/
theorem logWrite_tooBig_iff {size : Int} (hsize : (LOGSIZE : Int) + 1 ≤ size) {ls : List (Lbl n)}
    {s : St n} (hm : machine.Meets Distinct (boot n size) ls)
    (hr : machine.run (boot n size) ls = some s) {i : Fin n} {o : Op} (hp : s.pc i = .op o)
    {b : BlockNo} (hb : o.Allows b) :
    logWrite s.log b = .error "too big a transaction" ↔
      b ∈ s.log.block ∧ s.log.block.length = LOGSIZE := by
  obtain ⟨hi, hrv, hsz⟩ : Inv s ∧ Reserved s ∧ s.log.size = size :=
    Machine.run_inv (I := fun s => Inv s ∧ Reserved s ∧ s.log.size = size)
      (fun h hd hn => ⟨h.1.step hn, h.2.1.step h.1 (h.1.budget hd) hn, (size_step hn).trans h.2.2⟩)
      ⟨inv_boot size, reserved_boot size, rfl⟩ hm hr
  have hle := le_sum_parties Pc.budget s.pc i
  rw [hp] at hle
  have hres := hrv.room
  have hiff : logWrite s.log b = .error "too big a transaction" ↔ LOGSIZE ≤ s.log.block.length := by
    unfold logWrite
    grind
  rw [hiff]
  refine ⟨fun hfull => ⟨?_, by omega⟩, fun h => h.2.ge⟩
  have hd : Distinct s ⟨i, .logWrite b⟩ := by
    intro o' b' ho hb'
    rw [hp] at ho
    cases ho
    cases hb'
    exact hb
  rcases hi.budget hd o b hp rfl with hb | hlt
  · exact hb
  · change MAXOPBLOCKS - o.added ≤ _ at hle
    omega

theorem logWrite_tooBig_iff_fullRun : ∃ s, machine.run (boot 3 31) fullRun = some s ∧
    (logWrite s.log 100 = .error "too big a transaction" ↔
      (100 : BlockNo) ∈ s.log.block ∧ s.log.block.length = LOGSIZE) := by
  have h : (machine.run (boot 3 31) fullRun).map (·.pc 0) =
      some (.op ⟨(range 10).reverse.map fun k => 100 + BitVec.ofNat 32 k, 10⟩) := by
    decide +kernel
  obtain ⟨s, hs, h⟩ := Option.map_eq_some_iff.mp h
  exact ⟨s, hs, logWrite_tooBig_iff (by decide) (by decide +kernel) hs h (by decide +kernel)⟩

/-! ## The steps one by one -/

section Steps
variable {s s' : St n} {i : Fin n}

theorem next_beginOp (hn : machine.next s ⟨i, .beginOp⟩ = some s') :
    s.pc i = .idle ∧ s.log.committing = false ∧
      s' = { s with log.outstanding := s.log.outstanding + 1 }.goto i (.op {}) := by
  change step s i (s.pc i) .beginOp = some s' at hn
  cases hp : s.pc i <;> rw [hp] at hn <;> simp only [step, reduceCtorEq] at hn
  obtain ⟨l, hl, rfl⟩ := Option.map_eq_some_iff.mp hn
  obtain ⟨hc, -, rfl⟩ := beginOp_eq_some.mp hl
  exact ⟨rfl, hc, rfl⟩

theorem next_endOp (hn : machine.next s ⟨i, .endOp⟩ = some s') : ∃ o l pc, s.pc i = .op o ∧
    l.block = s.log.block ∧ l.size = s.log.size ∧ (pc = .commit ∨ pc = .idle) ∧
    s' = { s with log := l }.goto i pc := by
  change step s i (s.pc i) .endOp = some s' at hn
  cases hp : s.pc i <;> rw [hp] at hn <;> simp only [step, reduceCtorEq] at hn
  case op o =>
    split at hn
    case h_1 l c hl =>
      cases hn
      obtain ⟨-, rfl, rfl⟩ := endOp_eq_ok hl
      refine ⟨o, { s.log with
        outstanding := s.log.outstanding - 1, committing := s.log.outstanding = 1 },
        if decide (s.log.outstanding = 1) then .commit else .idle, rfl, rfl, rfl, ?_, rfl⟩
      split
      · exact .inl rfl
      · exact .inr rfl
    case h_2 => cases hn

theorem next_logWrite {b : BlockNo} (hn : machine.next s ⟨i, .logWrite b⟩ = some s') :
    ∃ o l new pins, s.pc i = .op o ∧ logWrite s.log b = .ok (l, new) ∧
      s' = { s with log := l, pins }.goto i (.op (o.call b new)) := by
  change step s i (s.pc i) (.logWrite b) = some s' at hn
  cases hp : s.pc i <;> rw [hp] at hn <;> simp only [step, reduceCtorEq] at hn
  case op o =>
    split at hn
    case h_1 l new hl =>
      cases hn
      exact ⟨o, l, new, _, rfl, hl, rfl⟩
    case h_2 => cases hn

/-- A step of the commit, by its place. -/
theorem next_commit (hn : machine.next s ⟨i, .commit⟩ = some s') :
    s.pc i = .commit ∧ s' = s.goto i (if 0 < s.log.block.length then .install 0 else .committed) ∨
    (∃ t pins, s.pc i = .install t ∧ t < s.log.block.length ∧
      s' = { s with pins }.goto i (.install (t + 1))) ∨
    (∃ t, s.pc i = .install t ∧ s.log.block.length ≤ t ∧
      s' = { s with log.block := [] }.goto i .committed) ∨
    s.pc i = .committed ∧ s' = { s with log.committing := false }.goto i .idle := by
  change step s i (s.pc i) .commit = some s' at hn
  cases hp : s.pc i <;> rw [hp] at hn <;> simp only [step, reduceCtorEq] at hn
  case commit =>
    cases hn
    exact .inl ⟨rfl, rfl⟩
  case install t =>
    split at hn
    case h_1 b hb =>
      cases hn
      exact .inr (.inl ⟨t, _, rfl, (List.getElem?_eq_some_iff.mp hb).1, rfl⟩)
    case h_2 hb =>
      cases hn
      exact .inr (.inr (.inl ⟨t, rfl, getElem?_eq_none_iff.mp hb, rfl⟩))
  case committed =>
    cases hn
    exact .inr (.inr (.inr ⟨rfl, rfl⟩))

theorem logWrite_room {l l' : Lg} {b : BlockNo} {new : Bool} (h : logWrite l b = .ok (l', new)) :
    l.block.length < LOGSIZE ∧ (l.block.length : Int) < l.size - 1 := by
  unfold logWrite at h
  grind

end Steps

end Xv6.Trans
