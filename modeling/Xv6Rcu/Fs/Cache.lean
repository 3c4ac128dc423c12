import Xv6Rcu.Lib.Machine
import Xv6Rcu.Lib.Owner
import Xv6Rcu.Lib.Ring
import Xv6Rcu.Fs.Bio

/-!
# The buffer cache and its users

`bio.c` with its `prev` and `next` links, for any number of **uses** in any interleaving. A use is
one `bread` with the `brelse` that ends it: it finds its buffer under `bcache.lock`, waits for the
buffer's sleep lock, fills the buffer, holds it, and gives it back in two steps (`releasesleep`,
then the rest of `brelse` under `bcache.lock`). The user may pin a buffer that it holds, and anyone
may undo a pin.

- `Sound`: what holds in every reachable state (`cache_sound`).
- Initially all buffers have the identity `(0, 0)`. `Inv.fresh` says why this does no harm: of two
  buffers with one identity, the one that comes later in the list is neither valid nor in use.
- `Inv.order`: the list is in the order of the last releases. `bunpin` does not move a buffer, also
  if it drops the last reference.
-/

namespace Xv6.Cache

open Lib Function List

/-! ## The machine -/

structure Buf (n : Nat) where
  valid : Bool := false
  dev : BitVec 32 := 0
  blockno : BitVec 32 := 0
  refcnt : Nat := 0
  /-- The holder of the sleep lock. -/
  lock : Option (Fin n) := none
  deriving DecidableEq

/-- Where a use is. -/
inductive Pc where
  | idle
  /-- In `bget`, waiting for the sleep lock. -/
  | waiting (b : Fin NBUF)
  /-- In `bread`, with the sleep lock. -/
  | locked (b : Fin NBUF)
  /-- `bread` has returned. -/
  | holding (b : Fin NBUF)
  /-- In `brelse`, after `releasesleep`. -/
  | releasing (b : Fin NBUF)
  deriving DecidableEq

/-- The cache and its uses. `pins` counts the pins of a buffer that have not been undone. `released`
is the time of the last `brelse` that left the buffer without references, 0 if there was none. -/
structure St (n : Nat) where
  links : Lib.Ring (Fin NBUF)
  buf : Fin NBUF → Buf n := fun _ => {}
  pc : Fin n → Pc := fun _ => .idle
  pins : Fin NBUF → Nat := fun _ => 0
  released : Fin NBUF → Nat := fun _ => 0
  time : Nat := 0

/-- `binit`: each buffer of the array is inserted after the head. -/
def binit (n : Nat) : St n where
  links := (List.finRange NBUF).foldl Ring.insertFront Ring.empty

/-- What `bget` finds. -/
inductive Found where
  | cached (b : Fin NBUF)
  | recycled (b : Fin NBUF)
  /-- panic("bget: no buffers") -/
  | noBuffers
  deriving DecidableEq

variable {n : Nat}

/-- The test of the first loop of `bget`. -/
def St.hits (s : St n) (dev blockno : BitVec 32) (b : Fin NBUF) : Bool :=
  decide ((s.buf b).dev = dev ∧ (s.buf b).blockno = blockno)

/-- The test of the second loop. -/
def St.unused (s : St n) (b : Fin NBUF) : Bool := decide ((s.buf b).refcnt = 0)

/-- The two loops of `bget`, `none` if one does not end. -/
def bget (s : St n) (dev blockno : BitVec 32) : Option Found :=
  match Ring.find s.links.next (s.hits dev blockno) NBUF (s.links.next none) with
  | none => none
  | some (some b) => some (.cached b)
  | some none =>
    match Ring.find s.links.prev s.unused NBUF (s.links.prev none) with
    | none => none
    | some (some b) => some (.recycled b)
    | some none => some .noBuffers

def St.goto (s : St n) (u : Fin n) (pc : Pc) : St n := { s with pc := update s.pc u pc }

def St.setBuf (s : St n) (b : Fin NBUF) (x : Buf n) : St n :=
  { s with buf := update s.buf b x }

section
variable (s : St n) (u : Fin n) (pc : Pc) (b : Fin NBUF) (x : Buf n)

@[simp] theorem goto_buf : (s.goto u pc).buf = s.buf := rfl

@[simp] theorem goto_pc : (s.goto u pc).pc = update s.pc u pc := rfl

@[simp] theorem setBuf_buf : (s.setBuf b x).buf = update s.buf b x := rfl

end

inductive Act where
  | bget (dev blockno : BitVec 32)
  | acquiresleep
  /-- The disk read of `bread`, if the buffer is not valid. -/
  | fill
  | bpin
  | bunpin (b : Fin NBUF)
  | releasesleep
  /-- The rest of `brelse`. -/
  | drop
  deriving DecidableEq

structure Lbl (n : Nat) where
  use : Fin n
  act : Act
  deriving DecidableEq

/-- One step of the use `u`. -/
def step (s : St n) (u : Fin n) : Pc → Act → Option (St n)
  | .idle, .bget dev blockno =>
    match bget s dev blockno with
    | some (.cached b) =>
      some ((s.setBuf b { s.buf b with refcnt := (s.buf b).refcnt + 1 }).goto u (.waiting b))
    | some (.recycled b) =>
      some ((s.setBuf b { s.buf b with dev, blockno, valid := false, refcnt := 1 }).goto u
        (.waiting b))
    | _ => none
  | .waiting b, .acquiresleep =>
    if (s.buf b).lock = none then
      some ((s.setBuf b { s.buf b with lock := some u }).goto u (.locked b))
    else none
  | .locked b, .fill => some ((s.setBuf b { s.buf b with valid := true }).goto u (.holding b))
  | .holding b, .bpin =>
    some { s.setBuf b { s.buf b with refcnt := (s.buf b).refcnt + 1 } with
      pins := update s.pins b (s.pins b + 1) }
  -- a caller undoes a pin only if there is one
  | _, .bunpin b =>
    if s.pins b = 0 then none
    else some { s.setBuf b { s.buf b with refcnt := (s.buf b).refcnt - 1 } with
      pins := update s.pins b (s.pins b - 1) }
  | .holding b, .releasesleep =>
    some ((s.setBuf b { s.buf b with lock := none }).goto u (.releasing b))
  | .releasing b, .drop =>
    let x := { s.buf b with refcnt := (s.buf b).refcnt - 1 }
    let s' := (s.setBuf b x).goto u .idle
    if x.refcnt = 0 then
      some { s' with
        links := (s.links.unlink b).insertFront b
        released := update s.released b (s.time + 1)
        time := s.time + 1 }
    else some s'
  | _, _ => none

def machine : Machine (St n) (Lbl n) where
  next s l := step s l.use (s.pc l.use) l.act

/-! ## The properties -/

/-- The buffer that a use refers to. -/
def Pc.buf : Pc → Option (Fin NBUF)
  | .idle => none
  | .waiting b | .locked b | .holding b | .releasing b => some b

/-- The buffer whose sleep lock a use has. -/
def Pc.held : Pc → Option (Fin NBUF)
  | .locked b | .holding b => some b
  | _ => none

/-- The buffer is valid or in use. -/
def Buf.Active (x : Buf n) : Prop := x.valid = true ∨ 0 < x.refcnt

/-- The buffers have the same identity. -/
def Buf.Same (x y : Buf n) : Prop := x.dev = y.dev ∧ x.blockno = y.blockno

structure Sound (s : St n) : Prop where
  /-- The links form one circle through the head and every buffer. -/
  ring : ∃ xs, s.links.Holds xs ∧ ∀ b, b ∈ xs
  /-- The references are those of the uses (holders and waiters) and the pins. -/
  refcnt : ∀ b, (s.buf b).refcnt =
    (Finset.univ.filter fun u => (s.pc u).buf = some b).card + s.pins b
  unique : ∀ b c, b ≠ c → (s.buf b).Active → (s.buf c).Active → ¬ (s.buf b).Same (s.buf c)
  /-- `bget` recycles the unused buffer that was released least recently, never released ones
  first. -/
  lru : ∀ dev blockno b, bget s dev blockno = some (.recycled b) → (s.buf b).refcnt = 0 ∧
    ∀ c, c ≠ b → (s.buf c).refcnt = 0 → s.released b = 0 ∨ s.released b < s.released c
  /-- Only one use at a time has a buffer. -/
  exclusive : Exclusive Pc.held s.pc
  /-- The loops of `bget` end. -/
  ends : ∀ dev blockno, bget s dev blockno ≠ none

/-! ## The invariant -/

/-- Whether the use refers to the buffer, as a number. -/
def Pc.refs (b : Fin NBUF) (pc : Pc) : Nat := if pc.buf = some b then 1 else 0

/-- `x` may come before `y`: `y` is not an active buffer with the identity of `x`. -/
def Fresh (x y : Buf n) : Prop := x.Same y → ¬ y.Active

structure Inv (s : St n) (xs : List (Fin NBUF)) : Prop where
  holds : s.links.Holds xs
  all : ∀ b, b ∈ xs
  refcnt : ∀ b, (s.buf b).refcnt = (∑ u, (s.pc u).refs b) + s.pins b
  fresh : xs.Pairwise fun b c => Fresh (s.buf b) (s.buf c)
  order : xs.Pairwise fun b c => s.released c = 0 ∨ s.released c < s.released b
  time : ∀ b, s.released b ≤ s.time
  locks : ∀ u b, (s.pc u).held = some b → (s.buf b).lock = some u

/-- Of two members of a list, one comes before the other. -/
theorem pairwise_or {R : Fin NBUF → Fin NBUF → Prop} {xs : List (Fin NBUF)} (h : xs.Pairwise R)
    {b c : Fin NBUF} (hb : b ∈ xs) (hc : c ∈ xs) (hne : b ≠ c) : R b c ∨ R c b := by
  have hor : xs.Pairwise fun b c => R b c ∨ R c b := h.imp .inl
  have : Std.Symm fun b c => R b c ∨ R c b := ⟨fun _ _ => Or.symm⟩
  exact hor.forall hb hc hne

theorem foldl_insertFront (bs : List (Fin NBUF)) {xs : List (Fin NBUF)} {r : Lib.Ring (Fin NBUF)}
    (h : r.Holds xs) (hnd : (bs ++ xs).Nodup) :
    (bs.foldl Ring.insertFront r).Holds (bs.reverse ++ xs) := by
  induction bs generalizing r xs with
  | nil => exact h
  | cons b bs ih =>
    obtain ⟨hb, hnd⟩ := nodup_cons.mp hnd
    rw [reverse_cons, append_assoc]
    refine ih (h.insertFront fun hm => hb (mem_append_right _ hm)) ?_
    exact nodup_middle.mpr (nodup_cons.mpr ⟨hb, hnd⟩)

theorem inv_binit : Inv (binit n) (List.finRange NBUF).reverse where
  holds := by
    have h := foldl_insertFront (finRange NBUF) Ring.holds_empty
      (by simpa using nodup_finRange NBUF)
    rwa [append_nil] at h
  all := by simp
  refcnt := by simp [binit, Pc.refs, Pc.buf]
  fresh := pairwise_of_forall fun _ _ _ => by simp [binit, Buf.Active]
  order := pairwise_of_forall fun _ _ => .inl rfl
  time := fun _ => le_rfl
  locks := fun _ _ hh => nomatch hh

namespace Inv

variable {s s' : St n} {xs : List (Fin NBUF)} {u : Fin n} {b : Fin NBUF} {x : Buf n}

/-! What `bget` finds, as a search of the list. -/

theorem length_le (h : Inv s xs) : xs.length ≤ NBUF := by
  have hle := h.holds.nodup.length_le_card
  simpa using hle

theorem bget_eq (h : Inv s xs) (dev blockno : BitVec 32) : bget s dev blockno =
    match xs.find? (s.hits dev blockno) with
    | some b => some (.cached b)
    | none =>
      match xs.reverse.find? s.unused with
      | some b => some (.recycled b)
      | none => some .noBuffers := by
  unfold bget
  rw [h.holds.find_next _ h.length_le, h.holds.find_prev _ h.length_le]
  cases xs.find? (s.hits dev blockno) with
  | some b => rfl
  | none => cases xs.reverse.find? s.unused <;> rfl

/-- A cached buffer comes first of those with its identity. -/
theorem of_cached (h : Inv s xs) {dev blockno : BitVec 32}
    (hb : bget s dev blockno = some (.cached b)) :
    ((s.buf b).dev = dev ∧ (s.buf b).blockno = blockno) ∧
      ∃ ys zs, xs = ys ++ b :: zs ∧ ∀ c ∈ ys, ¬ (s.buf c).Same (s.buf b) := by
  rw [h.bget_eq] at hb
  split at hb
  case h_1 b' hf =>
    cases hb
    obtain ⟨hhit, ys, zs, rfl, hys⟩ := find?_eq_some_iff_append.mp hf
    have hid := of_decide_eq_true hhit
    refine ⟨hid, ys, zs, rfl, fun c hc hsame => ?_⟩
    have hno := hys c hc
    simp only [St.hits, Bool.not_eq_eq_eq_not, Bool.not_true, decide_eq_false_iff_not] at hno
    exact hno ⟨hsame.1.trans hid.1, hsame.2.trans hid.2⟩
  case h_2 => split at hb <;> cases hb

/-- A recycled buffer is the last unused one of the list, and no buffer has the identity. -/
theorem of_recycled (h : Inv s xs) {dev blockno : BitVec 32}
    (hb : bget s dev blockno = some (.recycled b)) : (s.buf b).refcnt = 0 ∧
      (∀ c, ¬ ((s.buf c).dev = dev ∧ (s.buf c).blockno = blockno)) ∧
      ∃ ys zs, xs = ys ++ b :: zs ∧ ∀ c ∈ zs, (s.buf c).refcnt ≠ 0 := by
  rw [h.bget_eq] at hb
  split at hb
  case h_1 => cases hb
  case h_2 hmiss =>
    split at hb
    case h_2 => cases hb
    case h_1 b' hf =>
      cases hb
      obtain ⟨hunused, zs, ys, hxs, hzs⟩ := find?_eq_some_iff_append.mp hf
      refine ⟨of_decide_eq_true hunused, fun c hc => ?_, ys.reverse, zs.reverse, ?_,
          fun c hc h0 => ?_⟩
      · exact find?_eq_none.mp hmiss c (h.all c) (decide_eq_true hc)
      · rw [← reverse_reverse xs, hxs]
        simp
      · have hno := hzs c (mem_reverse.mp hc)
        simp [St.unused, h0] at hno

/-! A step at the buffer `b`, which gets the contents `x`. -/

section
variable (h : Inv s xs)
include h

theorem fresh_update {ys zs : List (Fin NBUF)} (hxs : xs = ys ++ b :: zs)
    (hys : ∀ c ∈ ys, Fresh (s.buf c) x) (hzs : ∀ c ∈ zs, Fresh x (s.buf c)) :
    xs.Pairwise fun c d =>
      Fresh (update s.buf b x c) (update s.buf b x d) := by
  subst hxs
  have hnd := nodup_middle.mp h.holds.nodup
  have hne : ∀ c ∈ ys ++ zs, update s.buf b x c = s.buf c := by
    intro c hc
    refine update_of_ne ?_ _ _
    rintro rfl
    exact (nodup_cons.mp hnd).1 hc
  have hold := h.fresh
  rw [pairwise_append, pairwise_cons] at hold ⊢
  obtain ⟨h1, ⟨-, h2⟩, h3⟩ := hold
  refine ⟨h1.imp_of_mem fun hc hd hf => ?_, ⟨fun d hd => ?_, h2.imp_of_mem fun hc hd hf => ?_⟩,
    fun c hc d hd => ?_⟩
  · rwa [hne _ (mem_append_left _ hc), hne _ (mem_append_left _ hd)]
  · rw [update_self, hne d (mem_append_right _ hd)]
    exact hzs d hd
  · rwa [hne _ (mem_append_right _ hc), hne _ (mem_append_right _ hd)]
  · rw [hne c (mem_append_left _ hc)]
    rcases mem_cons.mp hd with rfl | hd
    · rw [update_self]
      exact hys c hc
    · rw [hne d (mem_append_right _ hd)]
      exact h3 c hc d (mem_cons_of_mem _ hd)

/-- The buffers before `b` and after it. -/
theorem sides {ys zs : List (Fin NBUF)} (hxs : xs = ys ++ b :: zs) :
    (∀ c ∈ ys, Fresh (s.buf c) (s.buf b)) ∧ ∀ c ∈ zs, Fresh (s.buf b) (s.buf c) := by
  have hold := h.fresh
  rw [hxs, pairwise_append, pairwise_cons] at hold
  exact ⟨fun c hc => hold.2.2 c hc b mem_cons_self, hold.2.1.1⟩

/-- A buffer that keeps its identity and does not become active keeps its place. -/
theorem fresh_keep (hs : x.Same (s.buf b)) (ha : x.Active → (s.buf b).Active) :
    xs.Pairwise fun c d =>
      Fresh (update s.buf b x c) (update s.buf b x d) := by
  obtain ⟨ys, zs, hxs⟩ := append_of_mem (h.all b)
  obtain ⟨hys, hzs⟩ := h.sides hxs
  refine h.fresh_update hxs (fun c hc hsame hact => ?_) fun c hc hsame => ?_
  · exact hys c hc ⟨hsame.1.trans hs.1, hsame.2.trans hs.2⟩ (ha hact)
  · exact hzs c hc ⟨hs.1.symm.trans hsame.1, hs.2.symm.trans hsame.2⟩

/-- The references after `u` moved from its place to `pc`. -/
theorem refs_move (u : Fin n) (pc : Pc) (c : Fin NBUF) :
    (∑ v, (update s.pc u pc v).refs c) + s.pins c + (s.pc u).refs c =
      (s.buf c).refcnt + pc.refs c := by
  have hm := sum_move (Pc.refs c) s.pc u pc
  have hr := h.refcnt c
  omega

/-- Only `u` may come to have a lock, that of `b`. -/
theorem locks_move {pc : Pc} (hu : ∀ c, pc.held = some c → c = b ∧ x.lock = some u)
    (hb : ∀ v, v ≠ u → (s.pc v).held = some b → x.lock = some v) :
    ∀ v c, (update s.pc u pc v).held = some c →
      (update s.buf b x c).lock = some v := by
  intro v c hv
  by_cases hvu : v = u
  · subst hvu
    rw [update_self] at hv
    obtain ⟨rfl, hx⟩ := hu c hv
    rwa [update_self]
  · rw [update_of_ne hvu] at hv
    by_cases hcb : c = b
    · subst hcb
      rw [update_self]
      exact hb v hvu hv
    · rw [update_of_ne hcb]
      exact h.locks v c hv

/-- A step that gives `b` the contents `x` and leaves the list. -/
theorem update {pc : Fin n → Pc} {pins : Fin NBUF → Nat} (hf : xs.Pairwise fun c d =>
      Fresh (update s.buf b x c) (update s.buf b x d))
    (hl : ∀ v c, (pc v).held = some c → (update s.buf b x c).lock = some v)
    (hb : x.refcnt = (∑ v, (pc v).refs b) + pins b)
    (hc : ∀ c, c ≠ b → (s.buf c).refcnt = (∑ v, (pc v).refs c) + pins c) :
    Inv { s.setBuf b x with pc, pins } xs where
  holds := h.holds
  all := h.all
  refcnt := by
    intro c
    by_cases hcb : c = b
    · subst hcb
      rw [show ({ s.setBuf c x with pc, pins } : St n).buf c = x from update_self ..]
      exact hb
    · rw [show ({ s.setBuf b x with pc, pins } : St n).buf c = s.buf c from
        update_of_ne hcb ..]
      exact hc c hcb
  fresh := hf
  order := h.order
  time := h.time
  locks := hl

theorem refcnt_pos (hu : (s.pc u).buf = some b) : 0 < (s.buf b).refcnt := by
  have hle := le_sum_parties (Pc.refs b) s.pc u
  have hone : (s.pc u).refs b = 1 := if_pos hu
  have hr := h.refcnt b
  omega

/-- A step of `u`, which refers to `b` before and after. -/
theorem stay {pc : Pc} (hu : (s.pc u).buf = some b) (hpc : pc.buf = some b)
    (hr : x.refcnt = (s.buf b).refcnt) (hs : x.Same (s.buf b))
    (hl : ∀ v c, (Function.update s.pc u pc v).held = some c →
      (Function.update s.buf b x c).lock = some v) : Inv ((s.setBuf b x).goto u pc) xs := by
  have hrefs : ∀ c, (s.pc u).refs c = pc.refs c := fun c => by simp [Pc.refs, hu, hpc]
  have hpos := h.refcnt_pos hu
  have hmove := h.refs_move u pc
  show Inv { s.setBuf b x with pc := Function.update s.pc u pc, pins := s.pins } xs
  refine h.update (h.fresh_keep hs fun _ => .inr hpos) hl ?_ fun c _ => ?_
  · have := hmove b
    have := hrefs b
    omega
  · have := hmove c
    have := hrefs c
    omega

/-- A use takes the buffer `b`, which gets one more reference. -/
theorem take (hu : s.pc u = .idle) (hr : x.refcnt = (s.buf b).refcnt + 1)
    (hx : x.lock = (s.buf b).lock) (hf : xs.Pairwise fun c d =>
      Fresh (Function.update s.buf b x c) (Function.update s.buf b x d)) :
    Inv ((s.setBuf b x).goto u (.waiting b)) xs := by
  have hmove := h.refs_move u (.waiting b)
  have hidle : ∀ c, (s.pc u).refs c = 0 := fun c => by simp [hu, Pc.refs, Pc.buf]
  show Inv { s.setBuf b x with pc := Function.update s.pc u (.waiting b), pins := s.pins } xs
  refine h.update hf (h.locks_move (fun c hc => nomatch hc) fun v _ hv => ?_) ?_ fun c hc => ?_
  · rw [hx]
    exact h.locks v b hv
  · have hb := hmove b
    have hone : (Pc.waiting b).refs b = 1 := if_pos rfl
    rw [hidle b] at hb
    omega
  · have hb := hmove c
    have hzero : (Pc.waiting b).refs c = 0 := if_neg fun he => hc (Option.some.inj he).symm
    rw [hidle c] at hb
    omega

/-- Pinning a buffer in use, or undoing a pin. -/
theorem pin {r p : Nat} (hrp : r + s.pins b = (s.buf b).refcnt + p) (hpos : 0 < (s.buf b).refcnt) :
    Inv { s.setBuf b { s.buf b with refcnt := r } with
      pins := Function.update s.pins b p } xs := by
  show Inv { s.setBuf b { s.buf b with refcnt := r } with
      pc := s.pc, pins := Function.update s.pins b p } xs
  have hb := h.refcnt b
  refine h.update (h.fresh_keep ⟨rfl, rfl⟩ fun _ => .inr hpos) (fun v c hv => ?_) ?_ fun c hc => ?_
  · have hlock := h.locks v c hv
    by_cases hcb : c = b
    · subst hcb
      rwa [update_self]
    · rwa [update_of_ne hcb]
  · rw [update_self]
    show r = _
    omega
  · rw [update_of_ne hc]
    exact h.refcnt c

/-- A buffer in use, or valid, is the only one with its identity that is. -/
theorem unique {c : Fin NBUF} (hne : b ≠ c) (hb : (s.buf b).Active) (hs : (s.buf b).Same (s.buf c))
    :
    ¬ (s.buf c).Active := by
  rcases pairwise_or h.fresh (h.all b) (h.all c) hne with hf | hf
  · exact hf hs
  · exact absurd hb (hf ⟨hs.1.symm, hs.2.symm⟩)

/-- A use drops its reference to `b`. -/
theorem leave (hu : s.pc u = .releasing b) :
    Inv ((s.setBuf b { s.buf b with refcnt := (s.buf b).refcnt - 1 }).goto u .idle) xs := by
  have hpos := h.refcnt_pos (by rw [hu]; rfl)
  have hmove := h.refs_move u .idle
  have hidle : ∀ c, Pc.idle.refs c = 0 := fun c => if_neg nofun
  show Inv { s.setBuf b { s.buf b with refcnt := (s.buf b).refcnt - 1 } with
      pc := Function.update s.pc u .idle, pins := s.pins } xs
  refine h.update (h.fresh_keep ⟨rfl, rfl⟩ fun _ => .inr hpos)
    (h.locks_move (fun c hc => nomatch hc) fun v _ hv => h.locks v b hv) ?_ fun c hc => ?_
  · have hone : (s.pc u).refs b = 1 := by rw [hu]; exact if_pos rfl
    have hb := hmove b
    have h0 := hidle b
    show (s.buf b).refcnt - 1 = _
    omega
  · have hzero : (s.pc u).refs c = 0 := by
      rw [hu]
      exact if_neg fun he => hc (Option.some.inj he).symm
    have hb := hmove c
    have h0 := hidle c
    omega

/-- The buffer moves to the front of the list. -/
theorem toFront (hb : ∀ c, c ≠ b → (s.buf b).Same (s.buf c) → ¬ (s.buf c).Active) :
    Inv { s with
      links := (s.links.unlink b).insertFront b
      released := Function.update s.released b (s.time + 1)
      time := s.time + 1 } (b :: xs.erase b) := by
  have hne : ∀ c ∈ xs.erase b, c ≠ b := fun c hc => (h.holds.nodup.mem_erase_iff.mp hc).1
  have hsub : (xs.erase b).Sublist xs := erase_sublist
  refine ⟨(h.holds.unlink (h.all b)).insertFront fun hm => hne b hm rfl, fun c => ?_, h.refcnt,
    pairwise_cons.mpr ⟨fun c hc => hb c (hne c hc), h.fresh.sublist hsub⟩,
    pairwise_cons.mpr ⟨fun c hc => ?_, ?_⟩, fun c => ?_, h.locks⟩
  · by_cases hc : c = b
    · exact hc ▸ mem_cons_self
    · exact mem_cons_of_mem _ ((mem_erase_of_ne hc).mpr (h.all c))
  · -- every release so far was before this one
    right
    show Function.update s.released b (s.time + 1) c < Function.update s.released b (s.time + 1) b
    rw [update_self, update_of_ne (hne c hc)]
    exact Nat.lt_succ_of_le (h.time c)
  · refine (h.order.sublist hsub).imp_of_mem fun {c d} hc hd ho => ?_
    show Function.update s.released b (s.time + 1) d = 0 ∨
      Function.update s.released b (s.time + 1) d < Function.update s.released b (s.time + 1) c
    rwa [update_of_ne (hne c hc), update_of_ne (hne d hd)]
  · show Function.update s.released b (s.time + 1) c ≤ s.time + 1
    by_cases hc : c = b
    · rw [hc, update_self]
    · rw [update_of_ne hc]
      exact Nat.le_succ_of_le (h.time c)

end

end Inv

theorem Inv.step {s s' : St n} {xs : List (Fin NBUF)} {l : Lbl n} (h : Inv s xs)
    (hn : machine.next s l = some s') : ∃ xs', Inv s' xs' := by
  obtain ⟨u, act⟩ := l
  change Cache.step s u (s.pc u) act = some s' at hn
  generalize hp : s.pc u = pc at hn
  unfold Cache.step at hn
  split at hn
  case h_1 dev blockno =>
    split at hn
    case h_1 b hb =>
      cases hn
      obtain ⟨-, ys, zs, hxs, hys⟩ := h.of_cached hb
      refine ⟨xs, h.take hp rfl rfl (h.fresh_update hxs (fun c hc hs => absurd hs (hys c hc)) ?_)⟩
      exact (h.sides hxs).2
    case h_2 b hb =>
      cases hn
      obtain ⟨h0, hno, ys, zs, hxs, -⟩ := h.of_recycled hb
      refine ⟨xs, h.take hp (by rw [h0]) rfl (h.fresh_update hxs (fun c _ hs => ?_)
          fun c _ hs => ?_)⟩
      · exact absurd hs (hno c)
      · exact absurd ⟨hs.1.symm, hs.2.symm⟩ (hno c)
    case h_3 => cases hn
  case h_2 b =>
    split at hn
    · next hfree =>
      cases hn
      refine ⟨xs, h.stay (by rw [hp]; rfl) rfl rfl ⟨rfl, rfl⟩ (h.locks_move (fun c hc => ?_) ?_)⟩
      · cases hc
        exact ⟨rfl, rfl⟩
      · intro v _ hv
        rw [h.locks v b hv] at hfree
        cases hfree
    · cases hn
  case h_3 b =>
    cases hn
    have hb : (s.buf b).lock = some u := h.locks u b (by rw [hp]; rfl)
    refine ⟨xs, h.stay (by rw [hp]; rfl) rfl rfl ⟨rfl, rfl⟩ (h.locks_move (fun c hc => ?_) ?_)⟩
    · cases hc
      exact ⟨rfl, hb⟩
    · exact fun v _ hv => h.locks v b hv
  case h_4 b =>
    cases hn
    exact ⟨xs, h.pin (by omega) (h.refcnt_pos (by rw [hp]; rfl))⟩
  case h_5 b =>
    split at hn
    · cases hn
    · next hpos =>
      cases hn
      have hr := h.refcnt b
      exact ⟨xs, h.pin (by omega) (by omega)⟩
  case h_6 b =>
    cases hn
    have hb : (s.buf b).lock = some u := h.locks u b (by rw [hp]; rfl)
    refine ⟨xs, h.stay (by rw [hp]; rfl) rfl rfl ⟨rfl, rfl⟩
      (h.locks_move (fun c hc => nomatch hc) fun v hvu hv => ?_)⟩
    rw [h.locks v b hv] at hb
    exact absurd (Option.some.inj hb) hvu
  case h_7 b =>
    have hleave := h.leave hp
    have hact : (s.buf b).Active := .inr (h.refcnt_pos (by rw [hp]; rfl))
    dsimp only at hn
    split at hn
    · cases hn
      refine ⟨_, hleave.toFront fun c hc hs hca => ?_⟩
      have hs' : (s.buf b).Same (s.buf c) := by
        simpa [Buf.Same, update_of_ne hc] using hs
      have hca' : (s.buf c).Active := by
        simpa [update_of_ne hc] using hca
      exact h.unique hc.symm hact hs' hca'
    · cases hn
      exact ⟨xs, hleave⟩
  case h_8 => cases hn

theorem Inv.sound {s : St n} {xs : List (Fin NBUF)} (h : Inv s xs) : Sound s where
  ring := ⟨xs, h.holds, h.all⟩
  refcnt := fun b => by
    rw [h.refcnt b, Finset.card_filter]
    rfl
  unique := fun b c hne hb hc hs => h.unique hne hb hs hc
  lru := fun dev blockno b hb => by
    obtain ⟨h0, -, ys, zs, rfl, hzs⟩ := h.of_recycled hb
    refine ⟨h0, fun c hne hc => ?_⟩
    -- an unused buffer other than `b` comes before it
    have hcy : c ∈ ys := by
      rcases mem_append.mp (h.all c) with hm | hm
      · exact hm
      · rcases mem_cons.mp hm with rfl | hm
        · exact absurd rfl hne
        · exact absurd hc (hzs c hm)
    exact (pairwise_append.mp h.order).2.2 c hcy b mem_cons_self
  exclusive := fun u v b hu hv => by
    have hb := h.locks u b hu
    rw [h.locks v b hv] at hb
    exact (Option.some.inj hb).symm
  ends := fun dev blockno => by
    rw [h.bget_eq]
    split
    · exact nofun
    · split <;> exact nofun

/-- **The buffer cache.** -/
theorem cache_sound {ls : List (Lbl n)} {s : St n} (hr : machine.run (binit n) ls = some s) :
    Sound s := by
  obtain ⟨xs, h⟩ := Machine.run_inv_all (I := fun s => ∃ xs, Inv s xs)
    (fun ⟨_, h⟩ hn => h.step hn) ⟨_, inv_binit⟩ hr
  exact h.sound

/-- Two uses meet at the block 7, which is pinned in between. A third one recycles another buffer.
-/
def shareRun : List (Lbl 3) :=
  [⟨0, .bget 1 7⟩, ⟨1, .bget 1 7⟩, ⟨0, .acquiresleep⟩, ⟨0, .fill⟩, ⟨0, .bpin⟩, ⟨0, .releasesleep⟩,
    ⟨1, .acquiresleep⟩, ⟨0, .drop⟩, ⟨1, .fill⟩, ⟨1, .releasesleep⟩, ⟨2, .bget 1 8⟩, ⟨1, .drop⟩,
    ⟨2, .bunpin ⟨0, by decide⟩⟩]

theorem cache_sound_shareRun : ∃ s, machine.run (binit 3) shareRun = some s ∧
    s.pc 2 = .waiting ⟨1, by decide⟩ ∧ Sound s := by
  have h : (machine.run (binit 3) shareRun).map (·.pc 2) =
      some (.waiting ⟨1, by decide⟩) := by
    decide +kernel
  obtain ⟨s, hs, h⟩ := Option.map_eq_some_iff.mp h
  exact ⟨s, hs, h, cache_sound hs⟩

/-! ## The steps one by one -/

section Steps
variable {s s' : St n} {u : Fin n}

theorem next_acquiresleep (hn : machine.next s ⟨u, .acquiresleep⟩ = some s') :
    ∃ b, s.pc u = .waiting b ∧
      s' = (s.setBuf b { s.buf b with lock := some u }).goto u (.locked b) := by
  change step s u (s.pc u) .acquiresleep = some s' at hn
  cases hp : s.pc u <;> rw [hp] at hn <;> simp only [step, reduceCtorEq] at hn
  case waiting b =>
    split at hn <;> cases hn
    exact ⟨b, rfl, rfl⟩

theorem next_fill (hn : machine.next s ⟨u, .fill⟩ = some s') : ∃ b, s.pc u = .locked b ∧
    s' = (s.setBuf b { s.buf b with valid := true }).goto u (.holding b) := by
  change step s u (s.pc u) .fill = some s' at hn
  cases hp : s.pc u <;> rw [hp] at hn <;> cases hn
  exact ⟨_, rfl, rfl⟩

theorem next_releasesleep (hn : machine.next s ⟨u, .releasesleep⟩ = some s') :
    ∃ b, s.pc u = .holding b ∧
      s' = (s.setBuf b { s.buf b with lock := none }).goto u (.releasing b) := by
  change step s u (s.pc u) .releasesleep = some s' at hn
  cases hp : s.pc u <;> rw [hp] at hn <;> cases hn
  exact ⟨_, rfl, rfl⟩

theorem next_bpin (hn : machine.next s ⟨u, .bpin⟩ = some s') : ∃ b, s.pc u = .holding b ∧
    s' = { s.setBuf b { s.buf b with refcnt := (s.buf b).refcnt + 1 } with
      pins := update s.pins b (s.pins b + 1) } := by
  change step s u (s.pc u) .bpin = some s' at hn
  cases hp : s.pc u <;> rw [hp] at hn <;> cases hn
  exact ⟨_, rfl, rfl⟩

theorem next_bunpin {b : Fin NBUF} (hn : machine.next s ⟨u, .bunpin b⟩ = some s') :
    s' = { s.setBuf b { s.buf b with refcnt := (s.buf b).refcnt - 1 } with
      pins := update s.pins b (s.pins b - 1) } := by
  change step s u (s.pc u) (.bunpin b) = some s' at hn
  unfold step at hn
  grind

theorem next_drop (hn : machine.next s ⟨u, .drop⟩ = some s') : ∃ b, s.pc u = .releasing b ∧
    s'.buf = update s.buf b { s.buf b with refcnt := (s.buf b).refcnt - 1 } ∧
    s'.pc = update s.pc u .idle ∧ s'.pins = s.pins := by
  change step s u (s.pc u) .drop = some s' at hn
  cases hp : s.pc u <;> rw [hp] at hn <;> simp only [step, reduceCtorEq] at hn
  case releasing b =>
    split at hn <;> cases hn <;> exact ⟨b, rfl, rfl, rfl, rfl⟩

/-- `bget` finds the buffer of the block, or gives an unused buffer to it. -/
theorem next_bget {xs : List (Fin NBUF)} (h : Inv s xs) {dev blockno : BitVec 32}
    (hn : machine.next s ⟨u, .bget dev blockno⟩ = some s') : s.pc u = .idle ∧
      ∃ b x, s' = (s.setBuf b x).goto u (.waiting b) ∧ x.dev = dev ∧ x.blockno = blockno ∧
        (x.Same (s.buf b) ∧ x.valid = (s.buf b).valid ∨
          (s.buf b).refcnt = 0 ∧ x.valid = false) := by
  change step s u (s.pc u) (.bget dev blockno) = some s' at hn
  cases hp : s.pc u <;> rw [hp] at hn <;> simp only [step, reduceCtorEq] at hn
  case idle =>
    refine ⟨rfl, ?_⟩
    split at hn
    case h_1 b hb =>
      cases hn
      obtain ⟨hid, -⟩ := h.of_cached hb
      exact ⟨b, _, rfl, hid.1, hid.2, .inl ⟨⟨rfl, rfl⟩, rfl⟩⟩
    case h_2 b hb =>
      cases hn
      exact ⟨b, _, rfl, rfl, rfl, .inr ⟨(h.of_recycled hb).1, rfl⟩⟩
    case h_3 => cases hn

end Steps

end Xv6.Cache
