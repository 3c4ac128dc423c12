import Mathlib.Algebra.Order.BigOperators.Group.Finset
import Mathlib.Data.Fintype.BigOperators

/-!
# What a party owns alone

A system of parties, each at a place of its code. A place may give its party a thing: a ticket, a
slot, a critical section. `Exclusive f st` says that no two parties have the same thing, where `f`
reads it off a place.

* `eq_of_update`, `Exclusive.move`: a party that moves keeps its thing, drops it, or takes one that
  no other has.
* `sum_move`: how a sum over the parties changes when one of them moves. A count of the parties at
  some place is such a sum.
-/

namespace Lib

open Function

variable {ι β κ : Type} {f : β → Option κ} {st : ι → β} {i : ι} {b : β}

/-- No two parties have the same thing. -/
def Exclusive (f : β → Option κ) (st : ι → β) : Prop :=
  ∀ i j x, f (st i) = some x → f (st j) = some x → i = j

variable [DecidableEq ι]

/-- At most one party is at such a place, also when `i` goes to one that no other party is at. -/
theorem eq_of_update {P : β → Prop} (h : ∀ j j', P (st j) → P (st j') → j = j')
    (hb : P b → ∀ j, j ≠ i → ¬ P (st j)) {j j' : ι} (hj : P (update st i b j))
    (hj' : P (update st i b j')) : j = j' := by
  by_cases h1 : j = i <;> by_cases h2 : j' = i
  · rw [h1, h2]
  · subst h1
    rw [update_self] at hj
    rw [update_of_ne h2] at hj'
    exact absurd hj' (hb hj j' h2)
  · subst h2
    rw [update_self] at hj'
    rw [update_of_ne h1] at hj
    exact absurd hj (hb hj' j h1)
  · rw [update_of_ne h1] at hj
    rw [update_of_ne h2] at hj'
    exact h j j' hj hj'

theorem Exclusive.move (h : Exclusive f st)
    (hb : ∀ x, f b = some x → f (st i) = some x ∨ ∀ j, j ≠ i → f (st j) ≠ some x) :
    Exclusive f (update st i b) := by
  refine fun j j' x => eq_of_update (P := (f · = some x)) (h · · x) fun hx j hj hx' => ?_
  rcases hb x hx with h' | h'
  · exact hj (h j i x hx' h')
  · exact h' j hj hx'

/-! ## Sums over the parties -/

variable [Fintype ι]

theorem sum_move (g : β → ℕ) (st : ι → β) (i : ι) (b : β) :
    (∑ j, g (update st i b j)) + g (st i) = (∑ j, g (st j)) + g b := by
  have hrest : ∑ j ∈ Finset.univ.erase i, g (update st i b j) =
      ∑ j ∈ Finset.univ.erase i, g (st j) := by
    refine Finset.sum_congr rfl fun j hj => ?_
    rw [update_of_ne (Finset.ne_of_mem_erase hj)]
  rw [← Finset.add_sum_erase _ _ (Finset.mem_univ i), update_self,
    ← Finset.add_sum_erase _ (fun j => g (st j)) (Finset.mem_univ i)]
  omega

omit [DecidableEq ι] in
/-- A party's summand is at most the sum. -/
theorem le_sum_parties (g : β → ℕ) (st : ι → β) (i : ι) : g (st i) ≤ ∑ j, g (st j) :=
  Finset.single_le_sum (f := fun j => g (st j)) (fun _ _ => Nat.zero_le _) (Finset.mem_univ i)

end Lib
