import Mathlib.Data.List.Nodup

/-!
# Circular doubly linked lists

The `prev` and `next` links of the nodes `some a` and of a list head `none`.

* `Ring.Holds r xs`: from the head on, the links go through the nodes `xs`, each once, and back to
  the head, in both directions.
* `Ring.insertFront`, `Ring.unlink`: the pointer assignments that insert a node after the head and
  that take one out (`Holds.insertFront`, `Holds.unlink`).
* `Ring.find`: the loop that follows one kind of link until it meets a node with `p` or the head.
  `Holds.find_next` and `Holds.find_prev` read it as a search of `xs` from the front or the back.
-/

namespace Lib

open List Function

variable {α : Type}

structure Ring (α : Type) where
  prev : Option α → Option α
  next : Option α → Option α

namespace Ring

/-- The head alone. -/
def empty : Ring α := ⟨fun _ => none, fun _ => none⟩

/-- The links of the other direction. -/
def flip (r : Ring α) : Ring α := ⟨r.next, r.prev⟩

/-! ## Assignments -/

section Assign
variable [DecidableEq α] (r : Ring α)

def setPrev (a b : Option α) : Ring α := { r with prev := update r.prev a b }

def setNext (a b : Option α) : Ring α := { r with next := update r.next a b }

/-- Insert the node `b` after the head. -/
def insertFront (b : α) : Ring α :=
  let r := r.setNext (some b) (r.next none)
  let r := r.setPrev (some b) none
  let r := r.setPrev (r.next none) (some b)
  r.setNext none (some b)

/-- Take the node `b` out. -/
def unlink (b : α) : Ring α :=
  let r := r.setPrev (r.next (some b)) (r.prev (some b))
  r.setNext (r.prev (some b)) (r.next (some b))

end Assign

/-- Follow the links `step` from a node to the first one with `p` (or to the head, `some none`).
`none`: not within `fuel` nodes. -/
def find (step : Option α → Option α) (p : α → Bool) : Nat → Option α → Option (Option α)
  | _, none => some none
  | 0, some _ => none
  | fuel + 1, some a => if p a then some (some a) else find step p fuel (step (some a))

/-! ## Segments -/

/-- `b` comes after `a`, in both directions. -/
def Linked (r : Ring α) (a b : Option α) : Prop := r.next a = b ∧ r.prev b = a

/-- The links go from `a` through the nodes `xs` to `b`. -/
def Seg (r : Ring α) : Option α → List α → Option α → Prop
  | a, [], b => r.Linked a b
  | a, x :: xs, b => r.Linked a (some x) ∧ Seg r (some x) xs b

/-- The links form one circle through the head and the nodes `xs`. -/
structure Holds (r : Ring α) (xs : List α) : Prop where
  nodup : xs.Nodup
  seg : r.Seg none xs none

variable {r r' : Ring α} {a b : Option α} {xs ys : List α}

theorem Seg.append {y : α} :
    r.Seg a (xs ++ y :: ys) b ↔ r.Seg a xs (some y) ∧ r.Seg (some y) ys b := by
  induction xs generalizing a with
  | nil => exact Iff.rfl
  | cons x xs ih =>
    simp [Seg, ih, and_assoc]

theorem Seg.flip (h : r.Seg a xs b) : r.flip.Seg b xs.reverse a := by
  induction xs generalizing a with
  | nil => exact ⟨h.2, h.1⟩
  | cons x xs ih =>
    rw [reverse_cons, append]
    exact ⟨ih h.2, h.1.2, h.1.1⟩

theorem Seg.next_mem (h : r.Seg a xs b) : r.next a ∈ xs.map some ++ [b] := by
  cases xs with
  | nil => simp [h.1]
  | cons x xs => simp [h.1.1]

theorem Seg.prev_mem (h : r.Seg a xs b) : r.prev b ∈ a :: xs.map some := by
  have hm := h.flip.next_mem
  simpa [Ring.flip, or_comm] using hm

/-- A segment depends only on the links inside it. -/
theorem Seg.congr (h : r.Seg a xs b) (hn : ∀ c ∈ a :: xs.map some, r'.next c = r.next c)
    (hp : ∀ c ∈ xs.map some ++ [b], r'.prev c = r.prev c) : r'.Seg a xs b := by
  induction xs generalizing a with
  | nil => exact ⟨(hn a (by simp)).trans h.1, (hp b (by simp)).trans h.2⟩
  | cons x xs ih =>
    refine ⟨⟨(hn a (by simp)).trans h.1.1, (hp (some x) (by simp)).trans h.1.2⟩, ih h.2 ?_ ?_⟩
    · exact fun c hc => hn c (mem_cons_of_mem _ (by simpa using hc))
    · exact fun c hc => hp c (mem_cons_of_mem _ hc)

theorem holds_empty : (empty : Ring α).Holds [] := ⟨nodup_nil, rfl, rfl⟩

/-! ## What the assignments do -/

section Assign
variable [DecidableEq α]

theorem Holds.insertFront (h : r.Holds xs) {x : α} (hx : x ∉ xs) :
    (r.insertFront x).Holds (x :: xs) := by
  refine ⟨nodup_cons.mpr ⟨hx, h.nodup⟩, ?_⟩
  have hseg := h.seg
  cases xs with
  | nil =>
    have h0 : r.next none = none := hseg.1
    refine ⟨⟨?_, ?_⟩, ?_, ?_⟩ <;>
      simp [insertFront, setNext, setPrev, h0]
  | cons y ys =>
    obtain ⟨⟨h0, h1⟩, hseg⟩ := hseg
    have hxy : x ≠ y := by
      rintro rfl
      exact hx mem_cons_self
    have hy := (nodup_cons.mp h.nodup).1
    have hxs : x ∉ ys := fun hm => hx (mem_cons_of_mem _ hm)
    refine ⟨⟨?_, ?_⟩, ⟨?_, ?_⟩, hseg.congr (fun c hc => ?_) fun c hc => ?_⟩
    · simp [insertFront, setNext]
    · simp [insertFront, setNext, setPrev, h0, hxy]
    · simp [insertFront, setNext, setPrev, h0]
    · simp [insertFront, setNext, setPrev, h0]
    · have hc0 : c ≠ none := by
        rintro rfl
        simp at hc
      have hcx : c ≠ some x := by
        rintro rfl
        simp [hxy, hxs] at hc
      simp [insertFront, setNext, setPrev, hc0, hcx]
    · have hcy : c ≠ some y := by
        rintro rfl
        simp [hy] at hc
      have hcx : c ≠ some x := by
        rintro rfl
        simp [hxs] at hc
      simp [insertFront, setNext, setPrev, h0, hcy, hcx]

/-- Taking `x` out of the middle of a segment. -/
theorem Seg.unlink {x : α} (h : r.Seg a xs (some x)) (h' : r.Seg (some x) ys b)
    (hnd : (xs ++ x :: ys).Nodup) (ha : a ∉ (xs ++ x :: ys).map some)
    (hb : b ∉ (xs ++ x :: ys).map some) : (r.unlink x).Seg a (xs ++ ys) b := by
  have hq := h'.next_mem
  have hqx : r.next (some x) ≠ some x := by
    intro he
    rw [he] at hq
    grind
  have hnext : ∀ c, (r.unlink x).next c =
      if c = r.prev (some x) then r.next (some x) else r.next c := by
    intro c
    simp [Ring.unlink, setNext, setPrev, update_apply, hqx.symm]
  have hprev : ∀ c, (r.unlink x).prev c =
      if c = r.next (some x) then r.prev (some x) else r.prev c := by
    intro c
    simp [Ring.unlink, setNext, setPrev, update_apply]
  induction xs generalizing a with
  | nil =>
    have hpa : r.prev (some x) = a := h.2
    cases ys with
    | nil =>
      have hqb : r.next (some x) = b := h'.1
      exact ⟨by rw [hnext, hpa, if_pos rfl, hqb], by rw [hprev, hqb, if_pos rfl, hpa]⟩
    | cons y ys =>
      obtain ⟨⟨hqy, -⟩, hys⟩ := h'
      refine ⟨⟨by rw [hnext, hpa, if_pos rfl, hqy], by rw [hprev, hqy, if_pos rfl, hpa]⟩,
        hys.congr (fun c hc => ?_) fun c hc => ?_⟩
      · rw [hnext, hpa, if_neg]
        rintro rfl
        grind
      · rw [hprev, hqy, if_neg]
        rintro rfl
        grind
  | cons z zs ih =>
    have hp := h.2.prev_mem
    refine ⟨⟨?_, ?_⟩, ih h.2 ?_ ?_ ?_⟩
    · rw [hnext, h.1.1]
      grind
    · rw [hprev, h.1.2]
      grind
    · exact (nodup_cons.mp hnd).2
    · grind
    · grind

theorem Holds.unlink (h : r.Holds xs) {x : α} (hx : x ∈ xs) : (r.unlink x).Holds (xs.erase x) := by
  obtain ⟨ys, zs, rfl⟩ := append_of_mem hx
  have hnd := h.nodup
  have hxy : x ∉ ys := fun hm => (nodup_append.mp hnd).2.2 x hm x mem_cons_self rfl
  have herase : (ys ++ x :: zs).erase x = ys ++ zs := by
    rw [erase_append_right _ hxy, erase_cons_head]
  obtain ⟨h1, h2⟩ := Seg.append.mp h.seg
  refine ⟨h.nodup.erase x, ?_⟩
  rw [herase]
  exact h1.unlink h2 hnd (by simp) (by simp)

end Assign

/-! ## Searches -/

theorem Seg.find {p : α → Bool} {fuel : Nat} (h : r.Seg a xs none) (hf : xs.length ≤ fuel) :
    find r.next p fuel (r.next a) = some (xs.find? p) := by
  induction xs generalizing a fuel with
  | nil => rw [h.1]; cases fuel <;> rfl
  | cons x xs ih =>
    rw [h.1.1]
    cases fuel with
    | zero => simp at hf
    | succ fuel =>
      rw [find?_cons, find, ih h.2 (by simpa using hf)]
      cases p x <;> rfl

theorem Holds.find_next (h : r.Holds xs) (p : α → Bool) {fuel : Nat} (hf : xs.length ≤ fuel) :
    find r.next p fuel (r.next none) = some (xs.find? p) :=
  h.seg.find hf

theorem Holds.find_prev (h : r.Holds xs) (p : α → Bool) {fuel : Nat} (hf : xs.length ≤ fuel) :
    find r.prev p fuel (r.prev none) = some (xs.reverse.find? p) :=
  h.seg.flip.find (by simpa using hf)

end Ring

end Lib
