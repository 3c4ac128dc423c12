import Xv6Rcu.Dev.Pipe

/-!
# Reads from a pipe that fail

The calls on a pipe one after another, where `copyout` may fail: `piperead` takes a byte from the
pipe before it stores it.

- `contents`: the bytes in a pipe.
- `Fits`: a read can store all the bytes that it is to deliver.
- `lossless_iff`: the reads lose no byte exactly if all of them fit.
-/

namespace Xv6.Pipes

open Lib Function List
open BitVec (ofNat)

/-- Whether `copyout` can store a byte at an address. -/
abbrev User := BitVec 64 → Bool

/-- The second loop of `piperead`, with `k` rounds to go: its result, and the bytes it stores. -/
def copyLoop (user : User) (addr : BitVec 64) : Nat → Nat → Pipe → Nat × Pipe × List Byte
  | 0, i, pi => (i, pi, [])
  | k + 1, i, pi =>
    if pi.nread = pi.nwrite then (i, pi, [])
    else
      let ch := pi.data (cell PIPESIZE pi.nread.toNat)
      let pi := { pi with nread := pi.nread + 1 }
      if user (addr + ofNat 64 i) then
        let (r, pi, out) := copyLoop user addr k (i + 1) pi
        (r, pi, ch :: out)
      else (i, pi, [])

/-- `piperead`. `none`: it sleeps, or it is killed and leaves the pipe as it is. -/
def piperead (user : User) (pi : Pipe) (addr : BitVec 64) (n : Int) :
    Option (Nat × Pipe × List Byte) :=
  if pi.nread = pi.nwrite ∧ pi.writeopen = true then none
  else some (copyLoop user addr n.toNat 0 pi)

/-- A byte of `pipewrite`. `none`: the pipe is full. -/
def accept (pi : Pipe) (ch : Byte) : Option Pipe :=
  if pi.nwrite = pi.nread + ofNat 32 PIPESIZE then none
  else some { pi with
    data := Function.update pi.data (cell PIPESIZE pi.nwrite.toNat) ch, nwrite := pi.nwrite + 1 }

/-- A pipe, the bytes that were written, and those that were stored in the user memory. -/
structure Hist where
  pipe : Pipe := {}
  written : List Byte := []
  delivered : List Byte := []

inductive Call where
  | write (ch : Byte)
  | read (user : User) (addr : BitVec 64) (n : Int)
  /-- `pipeclose` of the end for writing. -/
  | close

def call (s : Hist) : Call → Option Hist
  | .write ch => (accept s.pipe ch).map fun pi =>
      { s with pipe := pi, written := s.written ++ [ch] }
  | .read user addr n => (piperead user s.pipe addr n).map fun (_, pi, out) =>
      { s with pipe := pi, delivered := s.delivered ++ out }
  | .close => some { s with pipe := { s.pipe with writeopen := false } }

def calls : Machine Hist Call := ⟨call⟩

/-- The bytes in the pipe. -/
def contents (pi : Pipe) : List Byte := (List.range (pi.nwrite - pi.nread).toNat).map fun k =>
  pi.data (cell PIPESIZE (pi.nread.toNat + k))

/-- `copyout` can store each byte that a read is to deliver. -/
def Fits (s : Hist) : Call → Prop
  | .read user addr n =>
    ∀ i < min n.toNat (contents s.pipe).length, user (addr + ofNat 64 i) = true
  | _ => True

instance decidableFits (s : Hist) : ∀ c, Decidable (Fits s c)
  | .read user addr n => inferInstanceAs (Decidable
      (∀ i < min n.toNat (contents s.pipe).length, user (addr + ofNat 64 i) = true))
  | .write _ | .close => isTrue trivial

variable {pi pi' : Pipe} {s s' : Hist} {c : Call} {cs : List Call}

theorem contents_nil (h : pi.nread = pi.nwrite) : contents pi = [] := by simp [contents, h]

theorem contents_pop (h : ¬ pi.nread = pi.nwrite) : contents pi =
    pi.data (cell PIPESIZE pi.nread.toNat) :: contents { pi with nread := pi.nread + 1 } := by
  have hn : (pi.nwrite - pi.nread).toNat = (pi.nwrite - (pi.nread + 1)).toNat + 1 := by bv_omega
  -- the counter may wrap
  have hk (k : Nat) : cell PIPESIZE (pi.nread.toNat + (k + 1)) =
      cell PIPESIZE ((pi.nread + 1).toNat + k) := Fin.ext <| by
    show (pi.nread.toNat + (k + 1)) % 512 = ((pi.nread.toNat + 1) % 2 ^ 32 + k) % 512
    omega
  simp [contents, hn, range_succ_eq_map, hk]

theorem contents_accept {ch : Byte} (h : accept pi ch = some pi')
    (hv : (contents pi).length ≤ PIPESIZE) :
    contents pi' = contents pi ++ [ch] ∧ (contents pi).length < PIPESIZE := by
  unfold accept at h
  split at h
  · cases h
  · next hfull =>
    cases h
    rw [contents, length_map, length_range] at hv
    have hlt : (pi.nwrite - pi.nread).toNat < PIPESIZE := by
      bv_omega
    have hn : (pi.nwrite + 1 - pi.nread).toNat = (pi.nwrite - pi.nread).toNat + 1 := by
      simp only [PIPESIZE] at hlt
      bv_omega
    have hw : cell PIPESIZE (pi.nread.toNat + (pi.nwrite - pi.nread).toNat) =
        cell PIPESIZE pi.nwrite.toNat := Fin.ext <| by
      simp only [cell, Fin.ofNat, PIPESIZE]
      bv_omega
    refine ⟨?_, by rwa [contents, length_map, length_range]⟩
    simp only [contents, hn, range_succ, map_append, map_cons, hw, update_self]
    refine congrArg (· ++ [ch]) (map_congr_left fun k hk => update_of_ne ?_ ..)
    have := mem_range.mp hk
    exact hw ▸ cell_ne (by omega) (by omega)

/-- What a call stores of the bytes `bs`, and what it leaves in the pipe: one that does not fit
takes a byte that it cannot store. -/
structure Copied (fits : Prop) (bs out left : List Byte) : Prop where
  eq : out = bs.take out.length
  rest : fits ∧ left = bs.drop out.length ∨
    ¬ fits ∧ out.length < bs.length ∧ left = bs.drop (out.length + 1)

theorem copyLoop_spec (user : User) (addr : BitVec 64) (k i : Nat) (pi : Pipe) :
    ∃ pi' out, copyLoop user addr k i pi = (i + out.length, pi', out) ∧
      Copied (∀ j < min k (contents pi).length, user (addr + ofNat 64 (i + j)) = true)
        (contents pi) out (contents pi') := by
  induction k generalizing i pi with
  | zero => exact ⟨pi, [], rfl, rfl, .inl ⟨by simp, rfl⟩⟩
  | succ k ih =>
    rw [copyLoop]
    split
    · next he =>
      rw [contents_nil he]
      exact ⟨pi, [], rfl, rfl, .inl ⟨nofun, contents_nil he⟩⟩
    · next hne =>
      rw [contents_pop hne, length_cons, Nat.add_min_add_right]
      simp only [Nat.forall_lt_succ_left]
      split
      · next hu =>
        obtain ⟨pi', out, hrun, ho, hl⟩ := ih (i + 1) { pi with nread := pi.nread + 1 }
        refine ⟨pi', pi.data (cell PIPESIZE pi.nread.toNat) :: out, ?_, congrArg _ ho, ?_⟩
        · rw [hrun, Nat.add_right_comm]
          rfl
        · simpa [hu, Nat.add_right_comm i, ← add_assoc] using hl
      · next hu =>
        exact ⟨_, [], rfl, rfl, .inr ⟨fun h => hu h.1, by simp, rfl⟩⟩

theorem piperead_spec {user : User} {addr : BitVec 64} {n : Int} {r : Nat} {out : List Byte}
    (h : piperead user pi addr n = some (r, pi', out)) : out.length = r ∧
    Copied (∀ i < min n.toNat (contents pi).length, user (addr + ofNat 64 i) = true)
      (contents pi) out (contents pi') := by
  obtain ⟨pi1, out1, hrun, hc⟩ := copyLoop_spec user addr n.toNat 0 pi
  unfold piperead at h
  split at h
  · cases h
  · rw [hrun] at h
    cases h
    simp only [zero_add] at hc
    exact ⟨(zero_add _).symm, hc⟩

/-- What was stored, and then what is in the pipe. -/
def Hist.bytes (s : Hist) : List Byte := s.delivered ++ contents s.pipe

/-- What calls do to the bytes: if they do not all fit, some are lost. -/
structure Moved (fits : Prop) (s s' : Hist) : Prop where
  valid : (contents s'.pipe).length ≤ PIPESIZE
  bytes : (fits ∧ ∃ new, s'.written = s.written ++ new ∧ s'.bytes = s.bytes ++ new) ∨
    ¬ fits ∧ s'.bytes.length + s.written.length < s.bytes.length + s'.written.length

theorem Moved.trans {fits fits' : Prop} {s1 : Hist} (h : Moved fits s s1)
    (h' : Moved fits' s1 s') : Moved (fits ∧ fits') s s' := by
  refine ⟨h'.valid, ?_⟩
  rcases h.bytes with ⟨hf, new, hw, hb⟩ | ⟨hf, hlt⟩ <;>
    rcases h'.bytes with ⟨hf', new', hw', hb'⟩ | ⟨hf', hlt'⟩
  · exact .inl ⟨⟨hf, hf'⟩, new ++ new', by simp [hw', hw], by simp [hb', hb]⟩
  · simp only [hw, hb, length_append] at hlt'
    exact .inr ⟨fun hn => hf' hn.2, by omega⟩
  · simp only [hw', hb', length_append]
    exact .inr ⟨fun hn => hf hn.1, by omega⟩
  · exact .inr ⟨fun hn => hf hn.1, by omega⟩

theorem call_moved (hv : (contents s.pipe).length ≤ PIPESIZE) (h : call s c = some s') :
    Moved (Fits s c) s s' := by
  cases c with
  | write ch =>
    obtain ⟨pi, hpi, rfl⟩ := Option.map_eq_some_iff.mp h
    obtain ⟨he, hlt⟩ := contents_accept hpi hv
    refine ⟨by simpa [he] using Nat.succ_le_of_lt hlt, .inl ⟨trivial, [ch], rfl, ?_⟩⟩
    simp [Hist.bytes, he]
  | read user addr n =>
    obtain ⟨⟨r, pi, out⟩, hpi, rfl⟩ := Option.map_eq_some_iff.mp h
    obtain ⟨-, ho, ⟨hf, hl⟩ | ⟨hf, hlt, hl⟩⟩ := piperead_spec hpi
    · refine ⟨by simp [hl]; omega, .inl ⟨hf, [], (append_nil _).symm, ?_⟩⟩
      have hall : out ++ contents pi = contents s.pipe := by
        rw [hl, ho, length_take_of_le (by rw [ho]; exact length_take_le' ..), take_append_drop]
      simp [Hist.bytes, hall]
    · refine ⟨by simp [hl]; omega, .inr ⟨hf, ?_⟩⟩
      simp [Hist.bytes, hl]
      omega
  | close =>
    cases h
    exact ⟨hv, .inl ⟨trivial, [], (append_nil _).symm, (append_nil _).symm⟩⟩

theorem run_moved (hv : (contents s.pipe).length ≤ PIPESIZE) (h : calls.run s cs = some s') :
    Moved (calls.Meets Fits s cs) s s' := by
  induction cs generalizing s with
  | nil =>
    cases h
    exact ⟨hv, .inl ⟨trivial, [], (append_nil _).symm, (append_nil _).symm⟩⟩
  | cons c cs ih =>
    obtain ⟨s1, hn, hr⟩ := Machine.run_cons.mp h
    rw [Machine.meets_cons hn]
    have hc := call_moved hv hn
    exact hc.trans (ih hc.valid hr)

/-- A read leaves the bytes that it does not store exactly if it fits, and the bytes that were
stored and those in the pipe are the bytes that were written exactly if all reads so far fit. -/
theorem lossless_iff (data : Fin PIPESIZE → Byte) (cs : List Call) {s : Hist}
    (h : calls.run { pipe := { data } } cs = some s) :
    (∀ user pi pi' addr n r out, piperead user pi addr n = some (r, pi', out) →
      out.length = r ∧ out = (contents pi).take r ∧ (contents pi' = (contents pi).drop r ↔
        ∀ i < min n.toNat (contents pi).length, user (addr + ofNat 64 i) = true)) ∧
    (s.delivered ++ contents s.pipe = s.written ↔
      calls.Meets Fits { pipe := { data } } cs) := by
  refine ⟨fun user pi pi' addr n r out h => ?_, ?_⟩
  · obtain ⟨rfl, ho, hl⟩ := piperead_spec h
    refine ⟨rfl, ho, ?_⟩
    rcases hl with ⟨hf, hl⟩ | ⟨hf, hlt, hl⟩
    · exact iff_of_true hl hf
    · refine iff_of_false (fun he => ?_) hf
      have := congrArg length (he.symm.trans hl)
      simp only [length_drop] at this
      omega
  · have h0 : contents { data } = [] := contents_nil rfl
    rcases (run_moved (by rw [h0]; exact Nat.zero_le _) h).bytes with ⟨hf, new, hw, hb⟩ | ⟨hf, hlt⟩
    · rw [Hist.bytes, Hist.bytes, h0] at hb
      exact iff_of_true (hb.trans hw.symm) hf
    · rw [Hist.bytes, Hist.bytes, h0] at hlt
      exact iff_of_false (fun he => by simp [he] at hlt) hf

/-- The bytes at and above this address cannot be stored. -/
def below (a : BitVec 64) : User := fun v => v < a

def twoReads : List Call :=
  [.write 1, .write 2, .read (below 2) 0 1, .write 3, .read (below 2) 0 3]

theorem lossless_iff_twoReads :
    ∃ s, calls.run {} twoReads = some s ∧ s.delivered ++ contents s.pipe = s.written := by
  have h : ∃ s, calls.run {} twoReads = some s := ⟨_, rfl⟩
  exact h.imp fun s hs => ⟨hs, (lossless_iff (fun _ => 0) twoReads hs).2.mpr (by decide)⟩

/-- A read of three bytes where one can be stored: the second one is lost. -/
theorem piperead_loses : ∃ s,
    calls.run {} [.write 1, .write 2, .write 3, .read (below 1) 0 3] = some s ∧
    s.delivered = [1] ∧ contents s.pipe = [3] ∧ s.written = [1, 2, 3] :=
  ⟨_, rfl, by decide, by decide, rfl⟩

end Xv6.Pipes
