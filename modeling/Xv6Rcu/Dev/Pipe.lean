import Xv6Rcu.Lib.Fifo
import Xv6Rcu.Lib.Machine
import Mathlib.Data.List.Basic

/-!
# Pipes

`pipewrite` and `piperead` of `pipe.c`, called by any number of processes on one pipe. A step is one
round of a loop; a process that is in a call and does not sleep holds `pi->lock`, so others wait.
A process that sleeps may wake up at any time, and what it reads from `pr->killed` is arbitrary. The
copies from and to the user memory succeed.

- `St`: the pipe, its lock, where each process is, and the history: the bytes that were accepted,
  with the call that wrote them, and the bytes that were delivered.
- `Fifo`: what holds in every reachable state.
-/

namespace Xv6.Pipes

open Lib Function List

def PIPESIZE : Nat := 512

instance : NeZero PIPESIZE := ⟨by decide⟩

abbrev Byte := BitVec 8

/-- `struct pipe`, without its lock. -/
structure Pipe where
  data : Fin PIPESIZE → Byte := fun _ => 0
  nread : BitVec 32 := 0
  nwrite : BitVec 32 := 0
  readopen : Bool := true
  writeopen : Bool := true

/-- A call of `pipewrite`: its number, the bytes at `addr`, and `n`. -/
structure Write where
  id : Nat
  src : Nat → Byte
  n : Int

/-- Where a process is. -/
inductive Pc where
  | idle
  /-- The loop of `pipewrite`. -/
  | write (w : Write) (i : Nat)
  /-- `sleep(&pi->nwrite, &pi->lock)`. -/
  | full (w : Write) (i : Nat)
  /-- The first loop of `piperead`. -/
  | read (n : Int)
  /-- `sleep(&pi->nread, &pi->lock)`. -/
  | empty (n : Int)
  /-- The second loop of `piperead`. -/
  | copy (n : Int) (i : Nat)

structure St (P : Type) where
  pipe : Pipe := {}
  lock : Option P := none
  pc : P → Pc := fun _ => .idle
  /-- What the calls of `pipewrite` so far are to write. -/
  calls : List (Nat → Byte) := []
  accepted : List (Nat × Byte) := []
  delivered : List Byte := []

inductive Act where
  | pipewrite (src : Nat → Byte) (n : Int)
  | piperead (n : Int)
  | step (killed : Bool)
  /-- `pipeclose`. -/
  | close (writable : Bool)

structure Lbl (P : Type) where
  p : P
  act : Act

section Code
variable {P : Type} [DecidableEq P]

def St.goto (s : St P) (p : P) (pc : Pc) : St P := { s with pc := Function.update s.pc p pc }

/-- `release(&pi->lock)` and the end of the call. -/
def St.release (s : St P) (p : P) : St P := { s.goto p .idle with lock := none }

/-- `sleep(chan, &pi->lock)`. -/
def St.sleep (s : St P) (p : P) (pc : Pc) : St P := { s.goto p pc with lock := none }

/-- `acquire(&pi->lock)`. -/
def St.acquire (s : St P) (p : P) (pc : Pc) : Option (St P) :=
  if s.lock = none then some { s.goto p pc with lock := some p } else none

/-- A round of the loop of `pipewrite`, and what follows it. -/
def writeStep (s : St P) (p : P) (killed : Bool) (w : Write) (i : Nat) : St P :=
  if (i : Int) < w.n then
    if s.pipe.readopen = false ∨ killed then s.release p
    else if s.pipe.nwrite = s.pipe.nread + BitVec.ofNat 32 PIPESIZE then s.sleep p (.full w i)
    else
      let ch := w.src i
      { s.goto p (.write w (i + 1)) with
        pipe := { s.pipe with
          data := Function.update s.pipe.data (cell PIPESIZE s.pipe.nwrite.toNat) ch
          nwrite := s.pipe.nwrite + 1 }
        accepted := s.accepted ++ [(w.id, ch)] }
  else s.release p

/-- A round of the first loop of `piperead`. -/
def readStep (s : St P) (p : P) (killed : Bool) (n : Int) : St P :=
  if s.pipe.nread = s.pipe.nwrite ∧ s.pipe.writeopen = true then
    if killed then s.release p else s.sleep p (.empty n)
  else s.goto p (.copy n 0)

/-- A round of the second loop of `piperead`, and what follows it. -/
def copyStep (s : St P) (p : P) (n : Int) (i : Nat) : St P :=
  if (i : Int) < n then
    if s.pipe.nread = s.pipe.nwrite then s.release p
    else
      let ch := s.pipe.data (cell PIPESIZE s.pipe.nread.toNat)
      { s.goto p (.copy n (i + 1)) with
        pipe := { s.pipe with nread := s.pipe.nread + 1 }
        delivered := s.delivered ++ [ch] }
  else s.release p

def step (s : St P) (p : P) : Act → Option (St P)
  | .pipewrite src n =>
    match s.pc p with
    | .idle =>
      ({ s with calls := s.calls ++ [src] } : St P).acquire p (.write ⟨s.calls.length, src, n⟩ 0)
    | _ => none
  | .piperead n =>
    match s.pc p with
    | .idle => s.acquire p (.read n)
    | _ => none
  | .close writable =>
    match s.pc p with
    | .idle =>
      if s.lock = none then
        if writable then some { s with pipe := { s.pipe with writeopen := false } }
        else some { s with pipe := { s.pipe with readopen := false } }
      else none
    | _ => none
  | .step killed =>
    match s.pc p with
    | .idle => none
    | .write w i => some (writeStep s p killed w i)
    | .full w i => s.acquire p (.write w i)
    | .read n => some (readStep s p killed n)
    | .empty n => s.acquire p (.read n)
    | .copy n i => some (copyStep s p n i)

def machine : Machine (St P) (Lbl P) where
  next s l := step s l.p l.act

end Code

/-! ## The invariant -/

section Inv
variable {P : Type} {s s' : St P} {p q : P} {w : Write} {i : Nat}

/-- The bytes that were accepted. -/
def St.bytes (s : St P) : List Byte := s.accepted.map Prod.snd

/-- The bytes that were accepted from the call `c`. -/
def St.sent (s : St P) (c : Nat) : List Byte := (s.accepted.filter (·.1 = c)).map Prod.snd

/-- The counters, and the buffer between them. -/
structure Ring (s : St P) : Prop where
  nwrite : s.pipe.nwrite = BitVec.ofNat 32 s.bytes.length
  nread : s.pipe.nread = BitVec.ofNat 32 s.delivered.length
  le : s.delivered.length ≤ s.bytes.length
  bound : s.bytes.length ≤ s.delivered.length + PIPESIZE
  delivered : s.delivered = s.bytes.take s.delivered.length
  buffered : Buffered s.pipe.data s.bytes s.delivered.length

/-- The call of `pipewrite` that a process is in, and how many bytes it has written. -/
def Pc.writing : Pc → Option (Write × Nat)
  | .write w i | .full w i => some (w, i)
  | _ => none

/-- Each call has sent its first bytes in order. -/
structure Calls (s : St P) : Prop where
  order : ∀ c src, s.calls[c]? = some src → ∃ i, s.sent c = (List.range i).map src
  known : ∀ x ∈ s.accepted, x.1 < s.calls.length
  active : ∀ p w i, (s.pc p).writing = some (w, i) →
    s.calls[w.id]? = some w.src ∧ s.sent w.id = (List.range i).map w.src
  distinct : ∀ p q w i w' i', (s.pc p).writing = some (w, i) → (s.pc q).writing = some (w', i') →
    w.id = w'.id → p = q

/-- The bytes that were delivered are the first ones that were accepted, `nwrite - nread` counts the
others, and each call of `pipewrite` has its bytes accepted in order. -/
structure Fifo (s : St P) : Prop where
  fifo : s.delivered <+: s.bytes
  count : (s.pipe.nwrite - s.pipe.nread).toNat = s.bytes.length - s.delivered.length
  bound : (s.pipe.nwrite - s.pipe.nread).toNat ≤ PIPESIZE
  order : ∀ c src, s.calls[c]? = some src → ∃ i, s.sent c = (List.range i).map src

/-! ### Counters -/

theorem pipesize_dvd : PIPESIZE ∣ 2 ^ 32 := by decide

section
variable (h : Ring s)
include h

theorem Ring.diff_lt : s.bytes.length - s.delivered.length < 2 ^ 32 := by
  have := h.bound
  simp only [PIPESIZE] at this
  omega

theorem Ring.empty_iff : s.pipe.nread = s.pipe.nwrite ↔ s.bytes.length = s.delivered.length := by
  rw [h.nread, h.nwrite, eq_comm, counter_eq_iff h.le h.diff_lt]

theorem Ring.full_iff : s.pipe.nwrite = s.pipe.nread + BitVec.ofNat 32 PIPESIZE ↔
    s.bytes.length = s.delivered.length + PIPESIZE := by
  have hb := h.bound
  have hl := h.le
  rw [h.nread, h.nwrite, ← BitVec.ofNat_add, eq_comm, counter_eq_iff hb, eq_comm]
  simp only [PIPESIZE] at *
  omega

theorem Ring.fifo (hc : Calls s) : Fifo s := by
  have hcount : (s.pipe.nwrite - s.pipe.nread).toNat = s.bytes.length - s.delivered.length := by
    rw [h.nread, h.nwrite, counter_sub h.le h.diff_lt]
  refine ⟨?_, hcount, ?_, hc.order⟩
  · rw [h.delivered]
    exact take_prefix ..
  · have := h.bound
    omega

/-- A byte is accepted. -/
theorem Ring.push {x : Nat × Byte} (hroom : s.bytes.length ≠ s.delivered.length + PIPESIZE)
    (hp : s'.pipe.nread = s.pipe.nread ∧ s'.pipe.nwrite = s.pipe.nwrite + 1 ∧
      s'.pipe.data = update s.pipe.data (cell PIPESIZE s.pipe.nwrite.toNat) x.2)
    (ha : s'.accepted = s.accepted ++ [x]) (hd : s'.delivered = s.delivered) : Ring s' := by
  have hb : s'.bytes = s.bytes ++ [x.2] := by
    rw [St.bytes, ha, map_append]
    rfl
  have hbound := h.bound
  have hle := h.le
  refine ⟨?_, ?_, ?_, ?_, ?_, ?_⟩
  · rw [hp.2.1, h.nwrite, counter_succ, hb, length_append, length_singleton]
  · rw [hp.1, h.nread, hd]
  · rw [hd, hb, length_append]
    omega
  · rw [hd, hb, length_append, length_singleton]
    omega
  · rw [hd, hb, take_append_of_le_length hle]
    exact h.delivered
  · rw [hp.2.2, h.nwrite, counter_mod pipesize_dvd, hd, hb]
    exact h.buffered.push (by omega) x.2

/-- A byte is delivered. -/
theorem Ring.pop (hne : s.bytes.length ≠ s.delivered.length)
    (hp : s'.pipe.nread = s.pipe.nread + 1 ∧ s'.pipe.nwrite = s.pipe.nwrite ∧
      s'.pipe.data = s.pipe.data) (ha : s'.accepted = s.accepted)
    (hd : s'.delivered = s.delivered ++ [s.pipe.data (cell PIPESIZE s.pipe.nread.toNat)]) :
    Ring s' := by
  have hb : s'.bytes = s.bytes := by rw [St.bytes, ha, St.bytes]
  have hle := h.le
  have hlt : s.delivered.length < s.bytes.length := by omega
  have hch : s.pipe.data (cell PIPESIZE s.pipe.nread.toNat) = s.bytes[s.delivered.length] := by
    rw [h.nread, counter_mod pipesize_dvd, h.buffered.get hlt]
  have hbound := h.bound
  have hlen : s'.delivered.length = s.delivered.length + 1 := by
    rw [hd, length_append, length_singleton]
  refine ⟨?_, ?_, ?_, ?_, ?_, ?_⟩
  · rw [hp.2.1, h.nwrite, hb]
  · rw [hp.1, h.nread, counter_succ, hlen]
  · rw [hb]
    omega
  · rw [hb]
    omega
  · rw [hlen, hb, hd, hch, take_succ_eq_append_getElem hlt, ← h.delivered]
  · rw [hp.2.2, hb, hlen]
    exact h.buffered.drop

theorem Ring.congr (hp : s'.pipe.nread = s.pipe.nread ∧
    s'.pipe.nwrite = s.pipe.nwrite ∧ s'.pipe.data = s.pipe.data) (ha : s'.accepted = s.accepted)
    (hd : s'.delivered = s.delivered) : Ring s' := by
  have hb : s'.bytes = s.bytes := by rw [St.bytes, ha, St.bytes]
  refine ⟨?_, ?_, ?_, ?_, ?_, ?_⟩
  · rw [hp.2.1, hb, h.nwrite]
  · rw [hp.1, hd, h.nread]
  · rw [hd, hb]
    exact h.le
  · rw [hd, hb]
    exact h.bound
  · rw [hd, hb]
    exact h.delivered
  · rw [hp.2.2, hd, hb]
    exact h.buffered

end

/-! ### Calls -/

theorem sent_append {c : Nat} {x : Nat × Byte} (ha : s'.accepted = s.accepted ++ [x]) :
    s'.sent c = if x.1 = c then s.sent c ++ [x.2] else s.sent c := by
  rw [St.sent, ha, St.sent]
  by_cases hx : x.1 = c <;> simp [hx]

structure Inv (s : St P) : Prop where
  ring : Ring s
  calls : Calls s

theorem inv_boot (data : Fin PIPESIZE → Byte) : Inv ({ pipe := { data } } : St P) := by
  refine ⟨⟨rfl, rfl, le_rfl, Nat.zero_le _, rfl, .nil⟩, ?_, ?_, ?_, ?_⟩
  · nofun
  · nofun
  · nofun
  · nofun

variable [DecidableEq P] {pc : Pc}

/-- The process `p` goes on, in the same call or in none. -/
theorem Calls.goto (h : Calls s) (hw : pc.writing = none ∨ pc.writing = (s.pc p).writing)
    (hpc : s'.pc = update s.pc p pc) (hc : s'.calls = s.calls)
    (ha : s'.accepted = s.accepted) : Calls s' := by
  have hold : ∀ q w i, (s'.pc q).writing = some (w, i) → (s.pc q).writing = some (w, i) := by
    intro q w i hq
    rw [hpc] at hq
    by_cases hqp : q = p
    · rw [hqp, update_self] at hq
      rcases hw with hw | hw
      · rw [hw] at hq
        cases hq
      · rw [hqp, ← hw, hq]
    · rwa [update_of_ne hqp] at hq
  have hsent : ∀ c, s'.sent c = s.sent c := fun c => by rw [St.sent, ha, St.sent]
  refine ⟨fun c src hsrc => ?_, fun x hx => ?_, fun q w i hq => ?_, fun q r w i w' i' hq hr => ?_⟩
  · rw [hsent]
    exact h.order c src (hc ▸ hsrc)
  · rw [hc]
    exact h.known x (ha ▸ hx)
  · rw [hc, hsent]
    exact h.active q w i (hold q w i hq)
  · exact h.distinct q r w i w' i' (hold q w i hq) (hold r w' i' hr)

/-- A new call. -/
theorem Calls.call {src : Nat → Byte} {n : Int} (h : Calls s)
    (hpc : s'.pc = update s.pc p (.write ⟨s.calls.length, src, n⟩ 0))
    (hc : s'.calls = s.calls ++ [src]) (ha : s'.accepted = s.accepted) : Calls s' := by
  have hsent : ∀ c, s'.sent c = s.sent c := fun c => by rw [St.sent, ha, St.sent]
  have hnew : s.sent s.calls.length = [] := by
    rw [St.sent, map_eq_nil_iff, filter_eq_nil_iff]
    intro x hx
    have := h.known x hx
    simp only [decide_eq_true_eq]
    omega
  have hlt : ∀ q w i, (s.pc q).writing = some (w, i) → w.id < s.calls.length := by
    intro q w i hq
    exact (List.getElem?_eq_some_iff.mp (h.active q w i hq).1).1
  -- a process is in the new call, or in an old one
  have hcases : ∀ q w i, (s'.pc q).writing = some (w, i) →
      q = p ∧ w = ⟨s.calls.length, src, n⟩ ∧ i = 0 ∨ (s.pc q).writing = some (w, i) := by
    intro q w i hq
    rw [hpc] at hq
    by_cases hqp : q = p
    · rw [hqp, update_self] at hq
      cases hq
      exact .inl ⟨hqp, rfl, rfl⟩
    · rw [update_of_ne hqp] at hq
      exact .inr hq
  refine ⟨fun c src' hsrc => ?_, fun x hx => ?_, fun q w i hq => ?_,
    fun q r w i w' i' hq hr hid => ?_⟩
  · rw [hsent]
    rw [hc] at hsrc
    by_cases hlt' : c < s.calls.length
    · rw [getElem?_append_left hlt'] at hsrc
      exact h.order c src' hsrc
    · have he : c = s.calls.length := by
        have := (List.getElem?_eq_some_iff.mp hsrc).1
        rw [length_append, length_singleton] at this
        omega
      exact ⟨0, by rw [he, hnew]; rfl⟩
  · rw [hc, length_append]
    exact Nat.lt_add_right _ (h.known x (ha ▸ hx))
  · rw [hsent, hc]
    rcases hcases q w i hq with ⟨-, rfl, rfl⟩ | hq
    · exact ⟨getElem?_concat_length .., hnew⟩
    · rw [getElem?_append_left (hlt q w i hq)]
      exact h.active q w i hq
  · rcases hcases q w i hq with ⟨rfl, rfl, -⟩ | hq <;>
      rcases hcases r w' i' hr with ⟨rfl, rfl, -⟩ | hr
    · rfl
    · exact absurd hid.symm (ne_of_lt (hlt r w' i' hr))
    · exact absurd hid (ne_of_lt (hlt q w i hq))
    · exact h.distinct q r w i w' i' hq hr hid

/-- The call of the process `p` sends its next byte. -/
theorem Calls.send (h : Calls s) (hp : s.pc p = .write w i)
    (hpc : s'.pc = update s.pc p (.write w (i + 1))) (hc : s'.calls = s.calls)
    (ha : s'.accepted = s.accepted ++ [(w.id, w.src i)]) : Calls s' := by
  have hw : (s.pc p).writing = some (w, i) := by rw [hp]; rfl
  obtain ⟨hsrc, hsent⟩ := h.active p w i hw
  have hown : s'.sent w.id = (range (i + 1)).map w.src := by
    rw [sent_append ha, if_pos rfl, hsent, range_succ, map_append]
    rfl
  have hother : ∀ c, w.id ≠ c → s'.sent c = s.sent c := fun c hne => by
    rw [sent_append ha, if_neg hne]
  have hcases : ∀ q w' i', (s'.pc q).writing = some (w', i') →
      q = p ∧ w' = w ∧ i' = i + 1 ∨ q ≠ p ∧ (s.pc q).writing = some (w', i') := by
    intro q w' i' hq
    rw [hpc] at hq
    by_cases hqp : q = p
    · rw [hqp, update_self] at hq
      cases hq
      exact .inl ⟨hqp, rfl, rfl⟩
    · rw [update_of_ne hqp] at hq
      exact .inr ⟨hqp, hq⟩
  refine ⟨fun c src hsrc' => ?_, fun x hx => ?_, fun q w' i' hq => ?_,
    fun q r w1 i1 w2 i2 hq hr hid => ?_⟩
  · rw [hc] at hsrc'
    by_cases hwc : w.id = c
    · rw [← hwc, hsrc] at hsrc'
      cases hsrc'
      exact ⟨i + 1, hwc ▸ hown⟩
    · rw [hother c hwc]
      exact h.order c src hsrc'
  · rw [hc]
    rcases mem_append.mp (ha ▸ hx) with hx | hx
    · exact h.known x hx
    · rw [mem_singleton.mp hx]
      exact (List.getElem?_eq_some_iff.mp hsrc).1
  · rw [hc]
    rcases hcases q w' i' hq with ⟨-, rfl, rfl⟩ | ⟨hne, hq⟩
    · exact ⟨hsrc, hown⟩
    · have hid : w.id ≠ w'.id := fun he => hne (h.distinct p q w i w' i' hw hq he).symm
      rw [hother _ hid]
      exact h.active q w' i' hq
  · rcases hcases q w1 i1 hq with ⟨rfl, rfl, -⟩ | ⟨-, hq⟩ <;>
      rcases hcases r w2 i2 hr with ⟨rfl, rfl, -⟩ | ⟨-, hr⟩
    · rfl
    · exact h.distinct q r _ i _ i2 hw hr hid
    · exact h.distinct q r _ i1 _ i hq hw hid
    · exact h.distinct q r _ i1 _ i2 hq hr hid

/-! ## Runs -/

/-- A step that changes neither the bytes nor the calls. -/
theorem Inv.goto (h : Inv s) (hw : pc.writing = none ∨ pc.writing = (s.pc p).writing)
    (hp : s'.pipe.nread = s.pipe.nread ∧ s'.pipe.nwrite = s.pipe.nwrite ∧
      s'.pipe.data = s.pipe.data)
    (hpc : s'.pc = update s.pc p pc) (hc : s'.calls = s.calls)
    (ha : s'.accepted = s.accepted) (hd : s'.delivered = s.delivered) : Inv s' :=
  ⟨h.ring.congr hp ha hd, h.calls.goto hw hpc hc ha⟩

theorem acquire_eq_some (h : s.acquire p pc = some s') :
    s' = { s.goto p pc with lock := some p } := by
  unfold St.acquire at h
  split at h
  · cases h
    rfl
  · cases h

theorem Inv.writeStep {killed : Bool} (h : Inv s) (hp : s.pc p = .write w i) :
    Inv (writeStep s p killed w i) := by
  unfold Pipes.writeStep
  split
  · split
    · exact h.goto (.inl rfl) ⟨rfl, rfl, rfl⟩ rfl rfl rfl rfl
    · split
      · exact h.goto (.inr (by rw [hp]; rfl)) ⟨rfl, rfl, rfl⟩ rfl rfl rfl rfl
      · next hfull =>
        refine ⟨h.ring.push ?_ ⟨rfl, rfl, rfl⟩ rfl rfl, h.calls.send hp rfl rfl rfl⟩
        exact fun he => hfull (h.ring.full_iff.mpr he)
  · exact h.goto (.inl rfl) ⟨rfl, rfl, rfl⟩ rfl rfl rfl rfl

theorem Inv.readStep {killed : Bool} {n : Int} (h : Inv s) : Inv (readStep s p killed n) := by
  unfold Pipes.readStep
  split
  · split <;> exact h.goto (.inl rfl) ⟨rfl, rfl, rfl⟩ rfl rfl rfl rfl
  · exact h.goto (.inl rfl) ⟨rfl, rfl, rfl⟩ rfl rfl rfl rfl

theorem Inv.copyStep {n : Int} (h : Inv s) : Inv (copyStep s p n i) := by
  unfold Pipes.copyStep
  split
  · split
    · exact h.goto (.inl rfl) ⟨rfl, rfl, rfl⟩ rfl rfl rfl rfl
    · next hne =>
      refine ⟨h.ring.pop ?_ ⟨rfl, rfl, rfl⟩ rfl rfl, h.calls.goto (.inl rfl) rfl rfl rfl⟩
      exact fun he => hne (h.ring.empty_iff.mpr he)
  · exact h.goto (.inl rfl) ⟨rfl, rfl, rfl⟩ rfl rfl rfl rfl

theorem Inv.step {a : Act} (h : Inv s) (hn : step s p a = some s') : Inv s' := by
  cases a with
  | pipewrite src n =>
    unfold Pipes.step at hn
    dsimp only at hn
    split at hn
    · obtain rfl := acquire_eq_some hn
      exact ⟨h.ring.congr ⟨rfl, rfl, rfl⟩ rfl rfl, h.calls.call rfl rfl rfl⟩
    · cases hn
  | piperead n =>
    unfold Pipes.step at hn
    dsimp only at hn
    split at hn
    · obtain rfl := acquire_eq_some hn
      exact h.goto (.inl rfl) ⟨rfl, rfl, rfl⟩ rfl rfl rfl rfl
    · cases hn
  | close writable =>
    unfold Pipes.step at hn
    dsimp only at hn
    split at hn
    · next hpc =>
      split at hn
      · have hself : s.pc = update s.pc p (s.pc p) := (update_eq_self ..).symm
        split at hn <;> cases hn <;>
          exact h.goto (.inr rfl) ⟨rfl, rfl, rfl⟩ hself rfl rfl rfl
      · cases hn
    · cases hn
  | step killed =>
    unfold Pipes.step at hn
    dsimp only at hn
    split at hn
    · cases hn
    · next hpc =>
      cases hn
      exact h.writeStep hpc
    · next hpc =>
      obtain rfl := acquire_eq_some hn
      exact h.goto (.inr (by rw [hpc]; rfl)) ⟨rfl, rfl, rfl⟩ rfl rfl rfl rfl
    · cases hn
      exact h.readStep
    · obtain rfl := acquire_eq_some hn
      exact h.goto (.inl rfl) ⟨rfl, rfl, rfl⟩ rfl rfl rfl rfl
    · cases hn
      exact h.copyStep

/-- A new pipe is a FIFO queue, whatever calls of `pipewrite` and `piperead` run on it. -/
theorem pipe_fifo (data : Fin PIPESIZE → Byte) {ls : List (Lbl P)} {s : St P}
    (hr : machine.run { pipe := { data } } ls = some s) : Fifo s := by
  have h := Machine.run_inv_all Inv.step (inv_boot data) hr
  exact h.ring.fifo h.calls

end Inv

/-- One process waits for a byte, the other one writes two. -/
def sleepingReader : List (Lbl Bool) :=
  [⟨true, .piperead 5⟩, ⟨true, .step false⟩,
    ⟨false, .pipewrite (fun i => BitVec.ofNat 8 (7 + i)) 2⟩,
    ⟨false, .step false⟩, ⟨false, .step false⟩, ⟨false, .step false⟩, ⟨true, .step false⟩,
    ⟨true, .step false⟩, ⟨true, .step false⟩]

theorem pipe_fifo_sleepingReader : ∃ s,
    machine.run { pipe := { data := fun _ => 0 } } sleepingReader = some s ∧
      s.bytes = [7, 8] ∧ s.delivered = [7] ∧ Fifo s := by
  have h : (machine.run { pipe := { data := fun _ => 0 } } sleepingReader).map
      (fun s => (s.bytes, s.delivered)) = some ([7, 8], [7]) := by
    decide +kernel
  obtain ⟨s, hs, he⟩ := Option.map_eq_some_iff.mp h
  obtain ⟨hb, hd⟩ := Prod.mk.inj he
  exact ⟨s, hs, hb, hd, pipe_fifo _ hs⟩

end Xv6.Pipes
