import Mathlib.Algebra.GroupWithZero.Nat

/-!
# Machines and their runs

A **machine** has a state and moves by labels: a label names the party that moves and the choices
it makes, so a move is a function. A label that cannot move (a blocked party, a fault) gives
`none`.

* `Machine.run`: the state after a list of labels; `Machine.states`: the states on the way.
* `Machine.Meets C`: every move of the run meets the condition `C` on the state before the move
  and the label. A property of "every run whose steps all meet `C`" is a property of the runs
  with `Meets C`.
* `Machine.run_inv`: the invariant rule for such runs. `Machine.run_inv_all` is the rule for all
  runs.
* `Machine.run_sim`: the simulation rule, for a second machine with the same labels.
-/

namespace Lib

/-! The numerals of `Fin 1`, `Fin 2` and `Fin 3` are the parties of a small machine. -/

instance neZero_one : NeZero 1 := ⟨by decide⟩

instance neZero_two : NeZero 2 := ⟨by decide⟩

instance neZero_three : NeZero 3 := ⟨by decide⟩

/-- A machine: the state after a move by a label, `none` if it cannot move. -/
structure Machine (σ ℓ : Type) where
  next : σ → ℓ → Option σ

namespace Machine

variable {σ ℓ : Type} (M : Machine σ ℓ)

/-- The state after the moves `ls`. -/
def run : σ → List ℓ → Option σ
  | s, [] => some s
  | s, l :: ls => (M.next s l).bind fun s' => run s' ls

/-- The states of a run, the first and the last included. -/
def states : σ → List ℓ → List σ
  | s, [] => [s]
  | s, l :: ls => s :: ((M.next s l).map fun s' => states s' ls).getD []

/-- Every move of the run meets `C`. -/
def Meets (C : σ → ℓ → Prop) : σ → List ℓ → Prop
  | _, [] => True
  | s, l :: ls => C s l ∧ ∀ s', M.next s l = some s' → Meets C s' ls

variable {M} {C : σ → ℓ → Prop} {ls : List ℓ} {s s' : σ}

@[simp] theorem run_nil (s : σ) : M.run s [] = some s := rfl

theorem run_cons {l : ℓ} :
    M.run s (l :: ls) = some s' ↔ ∃ s1, M.next s l = some s1 ∧ M.run s1 ls = some s' := by
  simp [run, Option.bind_eq_some_iff]

theorem run_append {ks : List ℓ} :
    M.run s (ls ++ ks) = some s' ↔ ∃ s1, M.run s ls = some s1 ∧ M.run s1 ks = some s' := by
  induction ls generalizing s with
  | nil => simp
  | cons l ls ih =>
    rw [List.cons_append, run_cons]
    constructor
    · rintro ⟨s2, hn, hr⟩
      obtain ⟨s1, h1, h2⟩ := ih.mp hr
      exact ⟨s1, run_cons.mpr ⟨s2, hn, h1⟩, h2⟩
    · rintro ⟨s1, h1, h2⟩
      obtain ⟨s2, hn, hr⟩ := run_cons.mp h1
      exact ⟨s2, hn, ih.mpr ⟨s1, hr, h2⟩⟩

theorem meets_cons {s1 : σ} {l : ℓ} (hn : M.next s l = some s1) :
    M.Meets C s (l :: ls) ↔ C s l ∧ M.Meets C s1 ls := by
  refine and_congr_right fun _ => ⟨fun h => h s1 hn, fun h s2 h2 => ?_⟩
  rw [hn] at h2
  cases h2
  exact h

theorem meets_append {ks : List ℓ} (hr : M.run s ls = some s') :
    M.Meets C s (ls ++ ks) ↔ M.Meets C s ls ∧ M.Meets C s' ks := by
  induction ls generalizing s with
  | nil =>
    cases hr
    simp [Meets]
  | cons l ls ih =>
    obtain ⟨s1, hn, hr⟩ := run_cons.mp hr
    rw [List.cons_append, meets_cons hn, meets_cons hn, ih hr, and_assoc]

/-- **The invariant rule.** What a move that meets `C` keeps holds at the end of every run whose
moves all meet `C`. -/
theorem run_inv {I : σ → Prop}
    (hstep : ∀ {s l s'}, I s → C s l → M.next s l = some s' → I s') :
    ∀ {ls : List ℓ} {s s' : σ}, I s → M.Meets C s ls → M.run s ls = some s' → I s'
  | [], s, s', hi, _, hr => by
    cases hr; exact hi
  | l :: ls, s, s', hi, hm, hr => by
    obtain ⟨s1, hn, hr⟩ := run_cons.mp hr
    exact run_inv hstep (hstep hi hm.1 hn) (hm.2 _ hn) hr

/-- Whether a run meets a decidable condition is computed along it. -/
instance instDecidableMeets [∀ s l, Decidable (C s l)] :
    ∀ (ls : List ℓ) (s : σ), Decidable (M.Meets C s ls)
  | [], _ => isTrue trivial
  | l :: ls, s =>
    match h : M.next s l with
    | none => decidable_of_iff (C s l) ⟨fun hc => ⟨hc, fun s' hn => by rw [h] at hn; cases hn⟩,
        (·.1)⟩
    | some s₁ =>
      have := instDecidableMeets ls s₁
      decidable_of_iff (C s l ∧ M.Meets C s₁ ls)
        ⟨fun hc => ⟨hc.1, fun s' hn => by rw [h] at hn; cases hn; exact hc.2⟩,
          fun hc => ⟨hc.1, hc.2 _ h⟩⟩

theorem meets_of_forall (h : ∀ s l, C s l) : ∀ (ls : List ℓ) (s : σ), M.Meets C s ls
  | [], _ => trivial
  | _ :: ls, _ => ⟨h _ _, fun _ _ => meets_of_forall h ls _⟩

theorem meets_of_mem : ∀ {ls : List ℓ} {s : σ}, (∀ l ∈ ls, ∀ s, C s l) → M.Meets C s ls
  | [], _, _ => trivial
  | l :: _, s, h => ⟨h l (List.mem_cons_self ..) s, fun _ _ =>
      meets_of_mem fun k hk => h k (List.mem_cons_of_mem _ hk)⟩

/-- The invariant rule for all runs. -/
theorem run_inv_all {I : σ → Prop} (hstep : ∀ {s l s'}, I s → M.next s l = some s' → I s')
    (hi : I s) (hr : M.run s ls = some s') : I s' :=
  run_inv (fun hi _ hn => hstep hi hn) hi
    (meets_of_forall (fun _ _ => trivial) ls s) hr

/-- **The simulation rule.** A relation that every move keeps, with a move of the machine `N` by the
same label, is kept by the runs. -/
theorem run_sim {τ : Type} {N : Machine τ ℓ} {R : σ → τ → Prop}
    (hstep : ∀ {s t l s'}, R s t → M.next s l = some s' → ∃ t', N.next t l = some t' ∧ R s' t') :
    ∀ {ls : List ℓ} {s s' : σ} {t : τ}, R s t → M.run s ls = some s' →
      ∃ t', N.run t ls = some t' ∧ R s' t'
  | [], s, s', t, h, hr => by
    cases hr
    exact ⟨t, rfl, h⟩
  | l :: ls, s, s', t, h, hr => by
    obtain ⟨s1, hn, hr⟩ := run_cons.mp hr
    obtain ⟨t1, hn', h1⟩ := hstep h hn
    obtain ⟨t', hr', h'⟩ := run_sim hstep h1 hr
    exact ⟨t', run_cons.mpr ⟨t1, hn', hr'⟩, h'⟩

end Machine

end Lib
