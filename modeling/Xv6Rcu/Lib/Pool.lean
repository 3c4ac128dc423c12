import Xv6Rcu.Lib.Owner

/-!
# Units of a pool and their owners

Units of type `β` are marked in a bitmap `used`. A position `p : P` may refer to a unit, `R p`.

* `Owns R used unit`: no unit has two references, and the marked units are those that have one.
* `Owns.take`: a position that has no reference takes a unit that is not marked.
* `Owns.drop`: a position gives up its unit.
* `clear R ps`: the positions `ps` have no reference any more.
-/

namespace Lib

open Function

variable {P β : Type}

structure Owns (R : P → Option β) (used : β → Bool) (unit : β → Prop) : Prop where
  inj : ∀ {p q b}, R p = some b → R q = some b → p = q
  mem : ∀ {p b}, R p = some b → unit b
  marked : ∀ {b}, unit b → (used b = true ↔ ∃ p, R p = some b)

namespace Owns

variable {R : P → Option β} {used : β → Bool} {unit : β → Prop} {p : P} {b : β}

theorem isMarked (h : Owns R used unit) (hp : R p = some b) : used b = true :=
  (h.marked (h.mem hp)).mpr ⟨p, hp⟩

theorem fresh (h : Owns R used unit) (hb : used b = false) (p : P) : R p ≠ some b := by
  intro hp
  rw [h.isMarked hp] at hb
  cases hb

variable [DecidableEq P] [DecidableEq β]

theorem take (h : Owns R used unit) (hp : R p = none) (hu : unit b) (hb : used b = false) :
    Owns (update R p (some b)) (update used b true) unit := by
  have hold : ∀ {q c}, q ≠ p → update R p (some b) q = some c → R q = some c :=
    fun hq hc => by rwa [update_of_ne hq] at hc
  refine ⟨fun {q r c} hq hr => ?_, fun {q c} hq => ?_, fun {c} hc => ?_⟩
  · refine eq_of_update (P := (· = some c)) (fun _ _ => h.inj) ?_ hq hr
    rintro ⟨⟩ q -
    exact h.fresh hb q
  · by_cases hqp : q = p
    · rw [hqp, update_self] at hq
      cases hq
      exact hu
    · exact h.mem (hold hqp hq)
  · by_cases hcb : c = b
    · subst hcb
      exact ⟨fun _ => ⟨p, update_self ..⟩, fun _ => update_self ..⟩
    · rw [update_of_ne hcb, h.marked hc]
      constructor
      · rintro ⟨q, hq⟩
        refine ⟨q, ?_⟩
        rw [update_of_ne, hq]
        rintro rfl
        rw [hp] at hq
        cases hq
      · rintro ⟨q, hq⟩
        refine ⟨q, hold ?_ hq⟩
        rintro rfl
        rw [update_self] at hq
        cases hq
        exact hcb rfl

theorem drop (h : Owns R used unit) (hp : R p = some b) :
    Owns (update R p none) (update used b false) unit := by
  have hold : ∀ {q c}, update R p none q = some c → q ≠ p ∧ R q = some c := by
    intro q c hq
    by_cases hqp : q = p
    · rw [hqp, update_self] at hq
      cases hq
    · rw [update_of_ne hqp] at hq
      exact ⟨hqp, hq⟩
  refine ⟨fun hq hr => h.inj (hold hq).2 (hold hr).2, fun hq => h.mem (hold hq).2, fun {c} hc => ?_⟩
  by_cases hcb : c = b
  · subst hcb
    rw [update_self]
    refine ⟨nofun, fun ⟨q, hq⟩ => ?_⟩
    exact absurd (h.inj (hold hq).2 hp) (hold hq).1
  · rw [update_of_ne hcb, h.marked hc]
    constructor
    · rintro ⟨q, hq⟩
      refine ⟨q, ?_⟩
      rw [update_of_ne, hq]
      rintro rfl
      rw [hp] at hq
      cases hq
      exact hcb rfl
    · rintro ⟨q, hq⟩
      exact ⟨q, (hold hq).2⟩

end Owns

/-! ## Several positions -/

section Clear
variable [DecidableEq P] {R : P → Option β} {p : P} {ps qs : List P}

def clear (R : P → Option β) (ps : List P) : P → Option β := fun p => if p ∈ ps then none else R p

theorem clear_cons : clear R (p :: ps) = clear (update R p none) ps := by
  funext q
  by_cases hq : q = p <;> simp [clear, hq]

theorem clear_append : clear R (ps ++ qs) = clear (clear R ps) qs := by
  funext q
  by_cases hp : q ∈ ps <;> simp [clear, hp]

/-- Positions without a reference stay as they are. -/
theorem clear_of_none (h : ∀ p ∈ ps, R p = none) : clear R ps = R := by
  funext q
  by_cases hq : q ∈ ps
  · simp [clear, h q hq]
  · simp [clear, hq]

theorem clear_eq_some {b : β} (h : clear R ps p = some b) : R p = some b := by
  unfold clear at h
  split at h
  · cases h
  · exact h

end Clear
end Lib
