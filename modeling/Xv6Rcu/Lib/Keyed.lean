import Mathlib.Data.List.Count
import Mathlib.Data.List.Nodup

/-!
# Lists with keys

A list whose elements have a key, and the update that a linear search does: `setKey k x` replaces
the first element with the key `k` by `x`.

* `map_setKey`: an update by an element with the same key keeps the keys.
* `find?_setKey`: the key then finds that element.
* `split_of_find?`: the list around the element that a search finds.
* `count_lt_setKey`: an update by an element with another key adds a second bearer of that key.
-/

namespace Lib

open List

variable {α κ : Type} [DecidableEq κ] {key : α → κ} {k k' : κ} {x y : α} {l : List α}

/-- Replace the first element with the key `k`. -/
def setKey (key : α → κ) (k : κ) (x : α) : List α → List α
  | [] => []
  | a :: l => if key a = k then x :: l else a :: setKey key k x l

theorem map_setKey (hx : key x = k) : (setKey key k x l).map key = l.map key := by
  induction l with
  | nil => rfl
  | cons a l ih =>
    simp only [setKey]
    split
    · rename_i ha
      simp [hx, ha]
    · simp [ih]

theorem setKey_setKey (hx : key x = k) : setKey key k y (setKey key k x l) = setKey key k y l := by
  induction l with
  | nil => rfl
  | cons a l ih =>
    by_cases ha : key a = k
    · simp [setKey, ha, hx]
    · simp [setKey, ha, ih]

theorem find?_setKey (hx : key x = k) (hk : k ∈ l.map key) :
    (setKey key k x l).find? (key · = k) = some x := by
  induction l with
  | nil => simp at hk
  | cons a l ih =>
    by_cases ha : key a = k
    · simp [setKey, ha, hx]
    · have hk' : k ∈ l.map key := by
        rcases mem_cons.mp hk with h | h
        · exact absurd h.symm ha
        · exact h
      rw [setKey, if_neg ha, find?_cons_of_neg (by simpa using ha)]
      exact ih hk'

/-- The search and the update stop at the same element. -/
theorem split_of_find? (hf : l.find? (key · = k) = some x) :
    key x = k ∧ ∃ l1 l2, l = l1 ++ x :: l2 ∧ (∀ a ∈ l1, key a ≠ k) ∧
      ∀ y, setKey key k y l = l1 ++ y :: l2 := by
  induction l with
  | nil => simp at hf
  | cons a l ih =>
    by_cases ha : key a = k
    · simp only [find?_cons, ha, decide_true, Option.some.injEq] at hf
      subst hf
      exact ⟨ha, [], l, rfl, by simp, fun y => by simp [setKey, ha]⟩
    · simp only [find?_cons, ha] at hf
      obtain ⟨hx, l1, l2, rfl, h1, h2⟩ := ih hf
      refine ⟨hx, a :: l1, l2, rfl, ?_, fun y => by simp [setKey, ha, h2]⟩
      intro b hb
      rcases mem_cons.mp hb with rfl | hb
      · exact ha
      · exact h1 b hb

/-- The bearers of the new element's key are not fewer. -/
theorem count_le_setKey (hx : key x = k') :
    (l.map key).count k' ≤ ((setKey key k x l).map key).count k' := by
  induction l with
  | nil => simp
  | cons a l ih =>
    simp only [setKey]
    split
    · grind
    · simp only [map_cons, count_cons]
      omega

/-- A second bearer of the new element's key. -/
theorem count_lt_setKey (hx : key x = k') (hne : k ≠ k') (hk : k ∈ l.map key) :
    (l.map key).count k' < ((setKey key k x l).map key).count k' := by
  induction l with
  | nil => simp at hk
  | cons a l ih =>
    by_cases ha : key a = k
    · simp [setKey, ha, hx, hne]
    · have hk' : k ∈ l.map key := by
        rcases mem_cons.mp hk with h | h
        · exact absurd h.symm ha
        · exact h
      have := ih hk'
      simp only [setKey, if_neg ha, map_cons, count_cons]
      omega

/-- With one bearer of the key, the bearer is the one that a search finds. -/
theorem eq_of_find? (hc : (l.map key).count k ≤ 1) (hf : l.find? (key · = k) = some x) (hy : y ∈ l)
    (hk : key y = k) : y = x := by
  induction l with
  | nil => simp at hy
  | cons a l ih =>
    simp only [map_cons, count_cons] at hc
    by_cases ha : key a = k
    · simp only [find?_cons, ha, decide_true, Option.some.injEq] at hf
      subst hf
      rcases mem_cons.mp hy with rfl | hy
      · rfl
      · have : 0 < (l.map key).count k :=
          count_pos_iff.mpr (mem_map.mpr ⟨y, hy, hk⟩)
        simp only [ha, beq_self_eq_true, ↓reduceIte] at hc
        omega
    · simp only [find?_cons, ha] at hf
      rcases mem_cons.mp hy with rfl | hy
      · exact absurd hk ha
      · exact ih (by omega) hf hy

end Lib
