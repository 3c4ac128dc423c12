import Xv6Rcu.Lib.Fifo
import Xv6Rcu.Lib.Machine
import Mathlib.Data.List.Induction

/-!
# The console

`consoleintr` and `consoleread` of `console.c` refine a line editor on lists. Both run under
`cons.lock`: a step is a call of `consoleintr`, or a stretch of `consoleread` from the call or a
wakeup to the next sleep or the return. The copies to the user memory succeed.

- `terminal`: the runs of any number of processes that read from a device and a keyboard that types.
- `code`: the device of the source, a ring buffer with three indices.
- `editor`: the line editor, two lists.
- `Refines`: what a state of the one shows of the other.
-/

namespace Xv6.Console

open Lib Function List
open BitVec (ofNat ofNat_add)

abbrev Byte := BitVec 8

/-- `C(x)`. -/
def ctrl (x : Char) : Byte := ofNat 8 (x.toNat - '@'.toNat)

def NL : Byte := 10
def CR : Byte := 13
def DEL : Byte := 0x7f

def INPUT_BUF : Nat := 128

instance : NeZero INPUT_BUF := ⟨by decide⟩

/-! ## Devices and their runs -/

/-- A read that sleeps: its count, what is left of it, and the bytes that were copied out. -/
structure Call where
  target : Nat
  n : Nat
  out : List Byte

/-- How a stretch of a read ends. -/
inductive Outcome where
  | returns (val : Int) (out : List Byte)
  | sleeps (call : Call)

/-- What the keyboard and the reads do to a device. -/
structure Discipline (κ : Type) where
  intr : Byte → κ → κ
  read : Bool → Call → κ → κ × Outcome

structure Ret (P : Type) where
  p : P
  val : Int
  out : List Byte
  deriving DecidableEq

structure St (κ P : Type) where
  dev : κ
  reading : P → Option Call := fun _ => none
  /-- The reads that have returned, in order. -/
  returned : List (Ret P) := []

inductive Lbl (P : Type) where
  | char (c : Byte)
  | read (p : P) (n : Nat) (killed : Bool)
  | wake (p : P) (killed : Bool)

section Runs
variable {κ P : Type} [DecidableEq P]

/-- A stretch of the call `call` of the process `p`. -/
def stretch (D : Discipline κ) (s : St κ P) (p : P) (killed : Bool) (call : Call) : St κ P :=
  let r := D.read killed call s.dev
  match r.2 with
  | .returns val out =>
    { dev := r.1
      reading := Function.update s.reading p none
      returned := s.returned ++ [⟨p, val, out⟩] }
  | .sleeps call =>
    { s with
      dev := r.1
      reading := Function.update s.reading p (some call) }

def step (D : Discipline κ) (s : St κ P) : Lbl P → Option (St κ P)
  | .char c => some { s with dev := D.intr c s.dev }
  | .read p n killed =>
    match s.reading p with
    | none => some (stretch D s p killed ⟨n, n, []⟩)
    | some _ => none
  | .wake p killed =>
    match s.reading p with
    | none => none
    | some call => some (stretch D s p killed call)

def terminal (D : Discipline κ) : Machine (St κ P) (Lbl P) where
  next := step D

end Runs

/-! ## The code -/

/-- `cons`, without its lock. -/
structure Cons where
  buf : Fin INPUT_BUF → Byte
  r : BitVec 32 := 0
  w : BitVec 32 := 0
  e : BitVec 32 := 0

/-- The loop of `consoleintr` for `C('U')`. -/
def killLine : Nat → Cons → Cons
  | 0, c => c
  | fuel + 1, c =>
    if c.e ≠ c.w ∧ c.buf (cell INPUT_BUF (c.e - 1).toNat) ≠ NL then
      killLine fuel { c with e := c.e - 1 }
    else c

/-- The default case of `consoleintr`. -/
def store (ch : Byte) (c : Cons) : Cons :=
  if ch ≠ 0 ∧ (c.e - c.r).toNat < INPUT_BUF then
    let ch := if ch = CR then NL else ch
    let c := { c with
      buf := Function.update c.buf (cell INPUT_BUF c.e.toNat) ch
      e := c.e + 1 }
    if ch = NL ∨ ch = ctrl 'D' ∨ c.e = c.r + ofNat 32 INPUT_BUF then { c with w := c.e }
    else c
  else c

def consoleintr (ch : Byte) (c : Cons) : Cons :=
  if ch = ctrl 'P' then c
  else if ch = ctrl 'U' then killLine (c.e - c.w).toNat c
  else if ch = ctrl 'H' ∨ ch = DEL then
    if c.e ≠ c.w then { c with e := c.e - 1 } else c
  else store ch c

/-- The loop of `consoleread`, with `n` bytes left to read. -/
def readLoop (killed : Bool) (target : Nat) : Nat → List Byte → Cons → Cons × Outcome
  | 0, out, c => (c, .returns target out)
  | n + 1, out, c =>
    if c.r = c.w then
      (c, if killed then .returns (-1) out else .sleeps ⟨target, n + 1, out⟩)
    else
      let ch := c.buf (cell INPUT_BUF c.r.toNat)
      let c := { c with r := c.r + 1 }
      if ch = ctrl 'D' then
        -- saved for next time, if there is something to return now
        (if n + 1 < target then { c with r := c.r - 1 } else c, .returns (target - (n + 1)) out)
      else if ch = NL then (c, .returns (target - n) (out ++ [ch]))
      else readLoop killed target n (out ++ [ch]) c

def consoleread (killed : Bool) (call : Call) (c : Cons) : Cons × Outcome :=
  readLoop killed call.target call.n call.out c

def code : Discipline Cons := ⟨consoleintr, consoleread⟩

/-! ## The line editor -/

/-- The committed bytes that were not read, and the current line. -/
structure Editor where
  committed : List Byte := []
  line : List Byte := []

/-- A character is added to the current line. A line is committed by NL, `^D` and a full buffer. -/
def Editor.insert (ed : Editor) (ch : Byte) : Editor :=
  if ch = NL ∨ ch = ctrl 'D' ∨ ed.committed.length + ed.line.length + 1 = INPUT_BUF then
    { committed := ed.committed ++ (ed.line ++ [ch]) }
  else { ed with line := ed.line ++ [ch] }

/-- A character is typed. -/
def Editor.type (ch : Byte) (ed : Editor) : Editor :=
  if ch = ctrl 'P' ∨ ch = 0 then ed
  else if ch = ctrl 'U' then { ed with line := [] }
  else if ch = ctrl 'H' ∨ ch = DEL then { ed with line := ed.line.dropLast }
  else if ed.committed.length + ed.line.length = INPUT_BUF then ed
  else ed.insert (if ch = CR then NL else ch)

/-- A read of `count` bytes that has got `got` goes on with the bytes `q`: what it has got then,
whether it is at its end, and what is left of `q`. -/
def takeLine (count : Nat) : List Byte → List Byte → List Byte × Bool × List Byte
  | got, [] => (got, got.length = count, [])
  | got, ch :: q =>
    if got.length = count then (got, true, ch :: q)
    else if ch = ctrl 'D' then (got, true, if got = [] then q else ch :: q)
    else if ch = NL then (got ++ [ch], true, q)
    else takeLine count (got ++ [ch]) q

def Editor.read (killed : Bool) (call : Call) (ed : Editor) : Editor × Outcome :=
  let (got, done, q) := takeLine call.target call.out ed.committed
  ({ ed with committed := q },
    if done then .returns got.length got
    else if killed then .returns (-1) got
    else .sleeps ⟨call.target, call.target - got.length, got⟩)

def editor : Discipline Editor := ⟨Editor.type, Editor.read⟩

/-! ## The ring buffer -/

/-- The bytes of the buffer from the index `lo` to the index `hi`. -/
def Cons.slice (c : Cons) (lo hi : BitVec 32) : List Byte :=
  (List.range (hi - lo).toNat).map fun k => c.buf (cell INPUT_BUF (lo + ofNat 32 k).toNat)

/-- The committed bytes that were not read. -/
def Cons.committed (c : Cons) : List Byte := c.slice c.r c.w

/-- The current line. -/
def Cons.line (c : Cons) : List Byte := c.slice c.w c.e

theorem input_buf_dvd : INPUT_BUF ∣ 2 ^ 32 := by decide

/-- The indices and the buffer after the bytes `hist` were read: `q` are the committed bytes and
`line` is the current line. -/
structure Window (c : Cons) (hist q line : List Byte) : Prop where
  r : c.r = ofNat 32 hist.length
  w : c.w = ofNat 32 (hist ++ q).length
  e : c.e = ofNat 32 (hist ++ q ++ line).length
  bound : q.length + line.length ≤ INPUT_BUF
  buffered : Buffered c.buf (hist ++ q ++ line) hist.length

namespace Window

variable {c : Cons} {hist q line : List Byte} {x : Byte}

/-- A difference of two counters that are at most a buffer apart. -/
theorem sub_eq {j k : Nat} (hjk : j ≤ k) (hk : k - j ≤ INPUT_BUF) :
    (ofNat 32 k - ofNat 32 j).toNat = k - j :=
  counter_sub hjk (lt_of_le_of_lt hk (by decide))

theorem slice_eq {ys zs : List Byte} {buf : Fin INPUT_BUF → Byte} {xs : List Byte} {m : Nat}
    (hb : Buffered buf xs m) (hxs : ys ++ zs <+: xs) (hm : m ≤ ys.length)
    (hz : zs.length ≤ INPUT_BUF) (c : Cons) (hc : c.buf = buf) :
    c.slice (ofNat 32 ys.length) (ofNat 32 (ys ++ zs).length) = zs := by
  rw [Cons.slice, sub_eq (by simp) (by simpa using hz)]
  refine ext_getElem (by simp) fun k h1 h2 => ?_
  rw [getElem_map, getElem_range, ← ofNat_add, counter_mod input_buf_dvd, hc]
  refine hb _ _ (by omega) ?_
  obtain ⟨ts, rfl⟩ := hxs
  rw [getElem?_append_left (by simp; omega), getElem?_append_right (by omega),
    Nat.add_sub_cancel_left, getElem?_eq_getElem h2]

section
variable (h : Window c hist q line)
include h

theorem committed_eq : c.committed = q := by
  have := h.bound
  rw [Cons.committed, h.r, h.w]
  exact slice_eq h.buffered (prefix_append ..) le_rfl (by omega) c rfl

theorem line_eq : c.line = line := by
  have := h.bound
  rw [Cons.line, h.w, h.e]
  exact slice_eq h.buffered (prefix_refl _) (by simp) (by omega) c rfl

theorem committed_length : (c.w - c.r).toNat = q.length := by
  have := h.bound
  rw [h.w, h.r, sub_eq (by simp) (by simp; omega), length_append,
    Nat.add_sub_cancel_left]

theorem line_length : (c.e - c.w).toNat = line.length := by
  have := h.bound
  rw [h.e, h.w, sub_eq (by simp) (by simp; omega), length_append,
    Nat.add_sub_cancel_left]

theorem unread_length : (c.e - c.r).toNat = q.length + line.length := by
  have := h.bound
  rw [h.e, h.r, sub_eq (by simp) (by simp; omega), append_assoc, length_append,
    Nat.add_sub_cancel_left, length_append]

theorem read_all_iff : c.r = c.w ↔ q = [] := by
  have hb := h.bound
  rw [h.r, h.w, eq_comm, counter_eq_iff (by simp), ← length_eq_zero_iff]
  · rw [length_append, Nat.add_eq_left]
  · simp only [length_append, INPUT_BUF] at *
    omega

theorem line_nil_iff : c.e = c.w ↔ line = [] := by
  have hb := h.bound
  rw [h.e, h.w, counter_eq_iff (by simp), ← length_eq_zero_iff]
  · rw [length_append, Nat.add_eq_left]
  · simp only [length_append, INPUT_BUF] at *
    omega

theorem full_iff : c.e = c.r + ofNat 32 INPUT_BUF ↔ q.length + line.length = INPUT_BUF := by
  have hb := h.bound
  rw [h.e, h.r, ← ofNat_add, eq_comm, counter_eq_iff (by simp; omega), eq_comm]
  · simp
  · simp only [length_append, INPUT_BUF] at *
    omega

omit h in
theorem length_snoc :
    (hist ++ q ++ (line ++ [x])).length = (hist ++ q ++ line).length + 1 := by
  rw [← append_assoc, length_append, length_singleton]

/-- A byte is typed. -/
theorem push (hroom : q.length + line.length < INPUT_BUF) (x : Byte) :
    Window { c with
      buf := update c.buf (cell INPUT_BUF c.e.toNat) x
      e := c.e + 1 } hist q (line ++ [x]) := by
  refine ⟨h.r, h.w, ?_, by simp; omega, ?_⟩
  · rw [length_snoc, h.e, counter_succ]
  · rw [h.e, counter_mod input_buf_dvd, ← append_assoc]
    exact h.buffered.push (by simp; omega) x

/-- The current line is committed. -/
theorem commit : Window { c with w := c.e } hist (q ++ line) [] := by
  refine ⟨h.r, ?_, ?_, by simpa using h.bound, ?_⟩
  · rw [← append_assoc]
    exact h.e
  · rw [← append_assoc, append_nil]
    exact h.e
  · rw [← append_assoc, append_nil]
    exact h.buffered

end

/-- The last byte of the current line is erased. -/
theorem erase (h : Window c hist q (line ++ [x])) :
    Window { c with e := c.e - 1 } hist q line := by
  refine ⟨h.r, h.w, ?_, ?_, ?_⟩
  · rw [h.e, length_snoc, ← counter_succ, BitVec.add_sub_cancel]
  · have := h.bound
    rw [length_append] at this
    omega
  · have := h.buffered.take (hist ++ q ++ line).length
    rwa [← append_assoc, take_left] at this

theorem last (h : Window c hist q (line ++ [x])) :
    c.buf (cell INPUT_BUF (c.e - 1).toNat) = x := by
  have he : c.e - 1 = ofNat 32 (hist ++ q ++ line).length := h.erase.e
  rw [he, counter_mod input_buf_dvd]
  refine h.buffered _ _ (by simp) ?_
  rw [← append_assoc, getElem?_concat_length]

/-- The next byte is read. -/
theorem pop (h : Window c hist (x :: q) line) :
    c.buf (cell INPUT_BUF c.r.toNat) = x ∧
      Window { c with r := c.r + 1 } (hist ++ [x]) q line := by
  have hxs : hist ++ [x] ++ q = hist ++ x :: q := by simp
  refine ⟨?_, ?_, ?_, ?_, ?_, ?_⟩
  · rw [h.r, counter_mod input_buf_dvd]
    refine h.buffered _ _ le_rfl ?_
    rw [append_assoc, getElem?_append_right le_rfl, Nat.sub_self]
    rfl
  · rw [h.r, counter_succ, length_append, length_singleton]
  · rw [hxs]
    exact h.w
  · rw [hxs]
    exact h.e
  · have := h.bound
    rw [length_cons] at this
    omega
  · rw [hxs, length_append]
    exact h.buffered.drop

end Window

/-! ## Refinement -/

/-- The ring buffer holds what the editor holds. -/
structure Shows (c : Cons) (ed : Editor) : Prop where
  window : ∃ hist, Window c hist ed.committed ed.line
  open_line : NL ∉ ed.line

section Intr
variable {c : Cons} {hist q line : List Byte} {ch : Byte} {ed : Editor}

/-- `C('U')` erases the current line, since it has no NL. -/
theorem killLine_window (h : Window c hist q line) (hnl : NL ∉ line) :
    Window (killLine line.length c) hist q [] := by
  induction line using reverseRecOn generalizing c with
  | nil => exact h
  | append_singleton line x ih =>
    have hx : x ≠ NL := fun hx => hnl (by simp [hx])
    have hne : c.e ≠ c.w := fun he => by simpa using h.line_nil_iff.mp he
    rw [length_append, length_singleton, killLine, if_pos ⟨hne, by rwa [h.last]⟩]
    exact ih h.erase fun hm => hnl (mem_append_left _ hm)

theorem killLine_shows (h : Shows c ed) :
    Shows (killLine (c.e - c.w).toNat c) { ed with line := [] } := by
  obtain ⟨hist, hw⟩ := h.window
  rw [hw.line_length]
  exact ⟨⟨hist, killLine_window hw h.open_line⟩, not_mem_nil⟩

theorem backspace_shows (h : Shows c ed) :
    Shows (if c.e ≠ c.w then { c with e := c.e - 1 } else c)
      { ed with line := ed.line.dropLast } := by
  obtain ⟨hist, hw⟩ := h.window
  have hnl := h.open_line
  obtain ⟨q, line⟩ := ed
  rcases eq_nil_or_concat line with rfl | ⟨line, x, rfl⟩
  · rw [if_neg (not_not_intro (hw.line_nil_iff.mpr rfl))]
    exact h
  · have hne : c.e ≠ c.w := fun he => by simpa using hw.line_nil_iff.mp he
    rw [concat_eq_append] at hw hnl
    rw [if_pos hne, concat_eq_append, dropLast_concat]
    exact ⟨⟨hist, hw.erase⟩, fun hm => hnl (mem_append_left _ hm)⟩

theorem store_shows (h : Shows c ed) (h0 : ch ≠ 0) :
    Shows (store ch c) (if ed.committed.length + ed.line.length = INPUT_BUF then ed
      else ed.insert (if ch = CR then NL else ch)) := by
  obtain ⟨hist, hw⟩ := h.window
  have hb := hw.bound
  unfold store
  by_cases hfull : ed.committed.length + ed.line.length = INPUT_BUF
  · rw [if_neg (by rw [hw.unread_length, hfull]; simp), if_pos hfull]
    exact h
  · have hlt : ed.committed.length + ed.line.length < INPUT_BUF := by omega
    rw [if_pos ⟨h0, by rwa [hw.unread_length]⟩, if_neg hfull]
    generalize (if ch = CR then NL else ch) = x
    have hp := hw.push hlt x
    have hiff := hp.full_iff
    rw [length_append] at hiff
    unfold Editor.insert
    by_cases hend : x = NL ∨ x = ctrl 'D' ∨ ed.committed.length + ed.line.length + 1 = INPUT_BUF
    · rw [if_pos (hend.imp_right (Or.imp_right hiff.mpr)), if_pos hend]
      exact ⟨⟨hist, hp.commit⟩, not_mem_nil⟩
    · rw [if_neg fun h' => hend (h'.imp_right (Or.imp_right hiff.mp)), if_neg hend]
      refine ⟨⟨hist, hp⟩, fun hm => ?_⟩
      rcases mem_append.mp hm with hm | hm
      · exact h.open_line hm
      · exact hend (.inl (mem_singleton.mp hm).symm)

theorem consoleintr_shows (h : Shows c ed) (ch : Byte) :
    Shows (consoleintr ch c) (Editor.type ch ed) := by
  unfold consoleintr Editor.type
  by_cases hP : ch = ctrl 'P'
  · rw [if_pos hP, if_pos (.inl hP)]
    exact h
  rw [if_neg hP]
  by_cases h0 : ch = 0
  · subst h0
    exact h
  rw [if_neg (not_or.mpr ⟨hP, h0⟩)]
  by_cases hU : ch = ctrl 'U'
  · rw [if_pos hU, if_pos hU]
    exact killLine_shows h
  rw [if_neg hU, if_neg hU]
  by_cases hH : ch = ctrl 'H' ∨ ch = DEL
  · rw [if_pos hH, if_pos hH]
    exact backspace_shows h
  rw [if_neg hH, if_neg hH]
  exact store_shows h h0

end Intr

section Read
variable {c : Cons} {hist q line : List Byte} {killed : Bool} {target : Nat} {out : List Byte}

/-- What a read that has got `got` returns at its end, or if there is nothing more to take. -/
def endOf (killed : Bool) (target : Nat) (got : List Byte) : Bool → Outcome
  | true => .returns got.length got
  | false => if killed then .returns (-1) got else .sleeps ⟨target, target - got.length, got⟩

/-- The result of a stretch of a read on the committed bytes `q` is that of the editor. -/
structure Reads (killed : Bool) (target : Nat) (out q line : List Byte) (r : Cons × Outcome) :
    Prop where
  window : ∃ hist, Window r.1 hist (takeLine target out q).2.2 line
  outcome : r.2 = (Editor.read killed ⟨target, target - out.length, out⟩ ⟨q, line⟩).2

theorem reads_of_takeLine {got q' : List Byte} {done : Bool} {r : Cons × Outcome}
    (ht : takeLine target out q = (got, done, q')) (hw : Window r.1 hist q' line)
    (ho : r.2 = endOf killed target got done) : Reads killed target out q line r := by
  refine ⟨⟨hist, by rw [ht]; exact hw⟩, ?_⟩
  rw [ho, Editor.read, ht]
  cases done <;> rfl

theorem takeLine_full (h : out.length = target) (q : List Byte) :
    takeLine target out q = (out, true, q) := by
  cases q with
  | nil => rw [takeLine, decide_eq_true h]
  | cons x q => rw [takeLine, if_pos h]

theorem takeLine_length (h : out.length ≤ target) :
    (takeLine target out q).1.length ≤ target := by
  induction q generalizing out with
  | nil => exact h
  | cons x q ih =>
    rw [takeLine]
    split
    · exact h
    · split
      · exact h
      · split
        · simp
          omega
        · exact ih (by simp; omega)

theorem takeLine_suffix : (takeLine target out q).2.2 <:+ q := by
  induction q generalizing out with
  | nil => exact suffix_refl _
  | cons x q ih =>
    rw [takeLine]
    split
    · exact suffix_refl _
    · split
      · split
        · exact suffix_cons ..
        · exact suffix_refl _
      · split
        · exact suffix_cons ..
        · exact ih.trans (suffix_cons ..)

theorem readLoop_reads :
    ∀ {n : Nat} {out q hist : List Byte} {c : Cons}, Window c hist q line →
      n + out.length = target → Reads killed target out q line (readLoop killed target n out c)
  | 0, out, q, hist, c, h, hn => by
    rw [Nat.zero_add] at hn
    exact reads_of_takeLine (takeLine_full hn q) h (by rw [readLoop, ← hn, endOf])
  | n + 1, out, [], hist, c, h, hn => by
    have ht : takeLine target out [] = (out, false, []) := by
      rw [takeLine, decide_eq_false (by omega)]
    have hleft : n + 1 = target - out.length := by omega
    rw [readLoop, if_pos (h.read_all_iff.mpr rfl)]
    exact reads_of_takeLine ht h (by rw [endOf, hleft])
  | n + 1, out, x :: q, hist, c, h, hn => by
    have hlen : out.length ≠ target := by omega
    have hne : c.r ≠ c.w := fun he => cons_ne_nil _ _ (h.read_all_iff.mp he)
    obtain ⟨hx, hpop⟩ := h.pop
    rw [readLoop, if_neg hne]
    rw [hx]
    by_cases hD : x = ctrl 'D'
    · have ht : takeLine target out (x :: q) = (out, true, if out = [] then q else x :: q) := by
        rw [takeLine, if_neg hlen, if_pos hD]
      have hval : ((target : Int) - (n + 1)) = out.length := by omega
      rw [if_pos hD, hval]
      by_cases hout : out = []
      · -- the `^D` is the whole result
        rw [if_pos hout] at ht
        rw [if_neg (by subst hout; simp at hn; omega)]
        exact reads_of_takeLine ht hpop rfl
      · -- the `^D` stays for the next read
        have := length_pos_iff.mpr hout
        rw [if_neg hout] at ht
        rw [if_pos (by omega), BitVec.add_sub_cancel]
        exact reads_of_takeLine ht h rfl
    rw [if_neg hD]
    by_cases hN : x = NL
    · have ht : takeLine target out (x :: q) = (out ++ [x], true, q) := by
        rw [takeLine, if_neg hlen, if_neg hD, if_pos hN]
      have hval : ((target : Int) - n) = (out ++ [x]).length := by
        rw [length_append, length_singleton]
        omega
      rw [if_pos hN, hval]
      exact reads_of_takeLine ht hpop rfl
    · have ht : takeLine target out (x :: q) = takeLine target (out ++ [x]) q := by
        rw [takeLine, if_neg hlen, if_neg hD, if_neg hN]
      have ih := readLoop_reads hpop (show n + (out ++ [x]).length = target by simp; omega)
      rw [if_neg hN]
      refine ⟨ht ▸ ih.window, ?_⟩
      rw [ih.outcome]
      simp [Editor.read, ht]

end Read

/-- A read in progress counts what is left. -/
def Call.Ok (call : Call) : Prop := call.n + call.out.length = call.target

/-- A stretch of `consoleread` does what the editor does. -/
theorem consoleread_shows {c : Cons} {ed : Editor} {call : Call} (h : Shows c ed) (hc : call.Ok)
    (killed : Bool) :
    Shows (consoleread killed call c).1 (Editor.read killed call ed).1 ∧
      (consoleread killed call c).2 = (Editor.read killed call ed).2 := by
  obtain ⟨hist, hw⟩ := h.window
  have hr : Reads killed call.target call.out _ _ (consoleread killed call c) :=
    readLoop_reads hw hc
  obtain ⟨hwin, hout⟩ := hr
  exact ⟨⟨hwin, h.open_line⟩, hout⟩

/-- A read of the editor that sleeps is in progress. -/
theorem editor_read_ok {call call' : Call} (hc : call.Ok) (ed : Editor) (killed : Bool)
    (h : (Editor.read killed call ed).2 = .sleeps call') : call'.Ok := by
  have hlen : (takeLine call.target call.out ed.committed).1.length ≤ call.target :=
    takeLine_length (Nat.le.intro ((add_comm ..).trans hc))
  simp only [Editor.read] at h
  split at h
  · cases h
  · split at h
    · cases h
    · cases h
      exact Nat.sub_add_cancel hlen

/-- What the code shows of the editor: the reads that have returned and what they have returned,
those that sleep, and the bytes of the buffer. -/
structure Refines {P : Type} (s : St Cons P) (t : St Editor P) : Prop where
  returned : s.returned = t.returned
  reading : s.reading = t.reading
  committed : s.dev.committed = t.dev.committed
  line : s.dev.line = t.dev.line
  w_le : (s.dev.w - s.dev.r).toNat ≤ (s.dev.e - s.dev.r).toNat
  e_le : (s.dev.e - s.dev.r).toNat ≤ INPUT_BUF

/-- A character that is typed changes no committed byte. A read takes the first ones and changes no
other. -/
def Kept {P : Type} (s s' : St Cons P) : Lbl P → Prop
  | .char _ => s.dev.committed <+: s'.dev.committed
  | .read .. | .wake .. => s'.dev.committed <:+ s.dev.committed ∧ s'.dev.line = s.dev.line

section Sim
variable {P : Type} {s s' : St Cons P} {t t' : St Editor P} {l : Lbl P}

structure Sim (s : St Cons P) (t : St Editor P) : Prop where
  dev : Shows s.dev t.dev
  reading : s.reading = t.reading
  returned : s.returned = t.returned
  calls : ∀ p call, s.reading p = some call → call.Ok

theorem Sim.refines (h : Sim s t) : Refines s t := by
  obtain ⟨hist, hw⟩ := h.dev.window
  refine ⟨h.returned, h.reading, hw.committed_eq, hw.line_eq, ?_, ?_⟩
  · rw [hw.committed_length, hw.unread_length]
    exact Nat.le_add_right ..
  · rw [hw.unread_length]
    exact hw.bound

theorem type_prefix (ch : Byte) (ed : Editor) :
    ed.committed <+: (Editor.type ch ed).committed := by
  unfold Editor.type Editor.insert
  repeat' split
  all_goals first | exact prefix_refl _ | exact prefix_append ..

variable [DecidableEq P] {p : P} {killed : Bool} {call : Call}

theorem Sim.stretch (h : Sim s t) (hc : call.Ok) :
    Sim (stretch code s p killed call) (stretch editor t p killed call) := by
  obtain ⟨hs, ho⟩ := consoleread_shows h.dev hc killed
  have hok : ∀ call' : Call, _ → call'.Ok := fun call' => editor_read_ok hc t.dev killed
  unfold Console.stretch
  dsimp only [code, editor]
  rw [ho]
  revert hok
  cases (Editor.read killed call t.dev).2 with
  | returns val out =>
    intro _
    refine ⟨hs, congrArg (update · p none) h.reading, congrArg (· ++ _) h.returned, ?_⟩
    intro q call' hq
    by_cases hqp : q = p
    · simp [hqp] at hq
    · exact h.calls q call' (by simpa [hqp] using hq)
  | sleeps call1 =>
    intro hok
    refine ⟨hs, congrArg (update · p _) h.reading, h.returned, ?_⟩
    intro q call' hq
    by_cases hqp : q = p
    · have he : call1 = call' := by simpa [hqp] using hq
      exact he ▸ hok _ rfl
    · exact h.calls q call' (by simpa [hqp] using hq)

theorem sim_step (h : Sim s t) (hn : (terminal code).next s l = some s') :
    ∃ t', (terminal editor).next t l = some t' ∧ Sim s' t' := by
  cases l with
  | char ch =>
    cases hn
    exact ⟨_, rfl, consoleintr_shows h.dev ch, h.reading, h.returned, h.calls⟩
  | read p n killed =>
    simp only [terminal, step] at hn ⊢
    rw [← h.reading]
    split at hn
    · cases hn
      exact ⟨_, rfl, h.stretch rfl⟩
    · cases hn
  | wake p killed =>
    simp only [terminal, step] at hn ⊢
    rw [← h.reading]
    split at hn
    · cases hn
    · next call hp =>
      cases hn
      exact ⟨_, rfl, h.stretch (h.calls p call hp)⟩

/-- What the editor keeps. -/
theorem stretch_committed (t : St Editor P) :
    (stretch editor t p killed call).dev.committed <:+ t.dev.committed ∧
      (stretch editor t p killed call).dev.line = t.dev.line := by
  unfold stretch
  dsimp only
  split <;> exact ⟨takeLine_suffix, rfl⟩

theorem sim_kept (h : Sim s t) (hn : (terminal code).next s l = some s') : Kept s s' l := by
  obtain ⟨t', hn', h'⟩ := sim_step h hn
  have hr := h.refines
  have hr' := h'.refines
  cases l with
  | char ch =>
    cases hn'
    rw [Kept, hr.committed, hr'.committed]
    exact type_prefix ch t.dev
  | read p n killed =>
    rw [Kept, hr.committed, hr'.committed, hr.line, hr'.line]
    simp only [terminal, step] at hn'
    split at hn'
    · cases hn'
      exact stretch_committed t
    · cases hn'
  | wake p killed =>
    rw [Kept, hr.committed, hr'.committed, hr.line, hr'.line]
    simp only [terminal, step] at hn'
    split at hn'
    · cases hn'
    · cases hn'
      exact stretch_committed t

/-- **The console is a line editor.** Every run of the code is a run of the editor, with the same
results of the reads, and the committed bytes are kept. -/
theorem console_refines_editor {buf : Fin INPUT_BUF → Byte} {ls : List (Lbl P)} {s : St Cons P}
    (hr : (terminal code).run { dev := { buf } } ls = some s) :
    (∃ t, (terminal editor).run { dev := {} } ls = some t ∧ Refines s t) ∧
      ∀ l s', (terminal code).next s l = some s' → Kept s s' l := by
  have h0 : Sim ({ dev := { buf } } : St Cons P) { dev := {} } := by
    refine ⟨⟨⟨[], rfl, rfl, rfl, Nat.zero_le _, .nil⟩, not_mem_nil⟩, rfl, rfl, ?_⟩
    nofun
  obtain ⟨t, ht, h⟩ := Machine.run_sim sim_step h0 hr
  exact ⟨⟨t, ht, h.refines⟩, fun l s' hn => sim_kept h hn⟩

end Sim

/-- A read sleeps while `ab`, DEL and `^D` are typed. It returns `a`, and the next one is at the end
of file. CR is read as NL. -/
def typedLine : List (Lbl Bool) :=
  [.read false 3 false, .char 97, .char 98, .char DEL, .char (ctrl 'D'), .wake false false,
    .read false 3 false, .char CR, .read true 1 false]

theorem console_refines_editor_typedLine :
    ∃ t, (terminal editor).run ({ dev := {} } : St Editor Bool) typedLine = some t ∧
      t.returned = [⟨false, 1, [97]⟩, ⟨false, 0, []⟩, ⟨true, 1, [NL]⟩] := by
  have hrun : ((terminal code).run ({ dev := { buf := fun _ => 0 } } : St Cons Bool)
      typedLine).map (·.returned) =
        some [⟨false, 1, [97]⟩, ⟨false, 0, []⟩, ⟨true, 1, [NL]⟩] := by
    decide +kernel
  obtain ⟨s, hs, hret⟩ := Option.map_eq_some_iff.mp hrun
  obtain ⟨⟨t, ht, href⟩, -⟩ := console_refines_editor hs
  exact ⟨t, ht, by rw [← href.returned, hret]⟩

end Xv6.Console
