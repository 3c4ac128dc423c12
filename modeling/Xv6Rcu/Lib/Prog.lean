import Xv6Rcu.Lib.Machine

/-!
# Programs over atomic operations

A program is a tree of operations: what it does next depends on the results so far. An operation may
depend on an answer of the environment, such as memory that the program asked for.

- `exec`: the program runs alone, with the answers of an environment.
- `wp`: with the answers that meet a condition, the program does not fault and ends in a state that
  meets the postcondition. A loop is unrolled a number of times; whether the program may run out of
  rounds (`fail`) is a parameter, for partial and total correctness.
-/

namespace Lib

/-- Programs over the operations `Op`, where `o` returns a value of type `Res o`. -/
inductive Prog {Op : Type} (Res : Op → Type) (α : Type) where
  | ret (a : α)
  | fail
  | act (o : Op) (k : Res o → Prog Res α)

namespace Prog

variable {Op : Type} {Res : Op → Type} {α β ι σ : Type}

protected def bind : Prog Res α → (α → Prog Res β) → Prog Res β
  | .ret a, f => f a
  | .fail, _ => .fail
  | .act o k, f => .act o fun r => (k r).bind f

instance : Monad (Prog Res) where
  pure := .ret
  bind := Prog.bind

/-- What an operation does with an answer of the environment; `none` is a fault. -/
abbrev Handler (Res : Op → Type) (ι σ : Type) := (o : Op) → ι → σ → Option (Res o × σ)

variable (h : Handler Res ι σ)

def exec (env : Op → σ → ι) : Prog Res α → σ → Option (α × σ)
  | .ret a, s => some (a, s)
  | .fail, _ => none
  | .act o k, s => (h o (env o s) s).bind fun r => (k r.1).exec env r.2

theorem exec_bind (env : Op → σ → ι) (m : Prog Res α) (f : α → Prog Res β) (s : σ) :
    (m >>= f).exec h env s = (m.exec h env s).bind fun r => (f r.1).exec h env r.2 := by
  induction m generalizing s with
  | ret a => rfl
  | fail => rfl
  | act o k ih =>
    show (h o (env o s) s).bind _ = ((h o (env o s) s).bind _).bind _
    rw [Option.bind_assoc]
    exact congrArg _ (funext fun r => ih r.1 r.2)

/-- The condition `C` on the answers of the environment; `stuck` says whether the program may run
out of rounds. -/
def wp (C : Op → ι → σ → Prop) (stuck : Prop) (Q : α → σ → Prop) : Prog Res α → σ → Prop
  | .ret a, s => Q a s
  | .fail, _ => stuck
  | .act o k, s => ∀ i, C o i s → ∃ r s', h o i s = some (r, s') ∧ (k r).wp C stuck Q s'

variable {h} {C : Op → ι → σ → Prop} {stuck : Prop} {Q Q' : α → σ → Prop} {s : σ} {m : Prog Res α}

@[simp] theorem wp_pure {a : α} : (pure a : Prog Res α).wp h C stuck Q s ↔ Q a s := Iff.rfl

theorem wp_bind {R : β → σ → Prop} {f : α → Prog Res β} :
    (m >>= f).wp h C stuck R s ↔ m.wp h C stuck (fun a s => (f a).wp h C stuck R s) s := by
  induction m generalizing s with
  | ret a => exact Iff.rfl
  | fail => exact Iff.rfl
  | act o k ih =>
    refine forall₂_congr fun i _ => exists_congr fun r => exists_congr fun s' => and_congr_right ?_
    exact fun _ => ih r

theorem wp_mono (hm : m.wp h C stuck Q s) (hQ : ∀ a s, Q a s → Q' a s) : m.wp h C stuck Q' s := by
  induction m generalizing s with
  | ret a => exact hQ a s hm
  | fail => exact hm
  | act o k ih =>
    intro i hi
    obtain ⟨r, s', he, hk⟩ := hm i hi
    exact ⟨r, s', he, ih r hk⟩

variable (h C) in
/-- The answers that the run of the program gets meet `C`. -/
def Answered (env : Op → σ → ι) : Prog Res α → σ → Prop
  | .ret _, _ => True
  | .fail, _ => True
  | .act o k, s =>
    C o (env o s) s ∧ ∀ r s', h o (env o s) s = some (r, s') → (k r).Answered env s'

variable {env : Op → σ → ι}

theorem answered_of_forall (henv : ∀ o s, C o (env o s) s) :
    ∀ (m : Prog Res α) (s : σ), m.Answered h C env s
  | .ret _, _ => trivial
  | .fail, _ => trivial
  | .act o k, s => ⟨henv o s, fun r s' _ => answered_of_forall henv (k r) s'⟩

/-- **Total correctness** of a program that runs alone. -/
theorem exec_of_wp (hm : m.wp h C False Q s) (ha : m.Answered h C env s) :
    ∃ a s', m.exec h env s = some (a, s') ∧ Q a s' := by
  induction m generalizing s with
  | ret a => exact ⟨a, s, rfl, hm⟩
  | fail => exact hm.elim
  | act o k ih =>
    obtain ⟨r, s', he, hk⟩ := hm _ ha.1
    obtain ⟨a, s'', hx, hQ⟩ := ih r hk (ha.2 r s' he)
    refine ⟨a, s'', ?_, hQ⟩
    show (h o (env o s) s).bind _ = _
    rw [he]
    exact hx

/-- **Partial correctness** of a program that runs alone. -/
theorem post_of_wp (hm : m.wp h C stuck Q s) (ha : m.Answered h C env s) {a : α} {s' : σ}
    (hx : m.exec h env s = some (a, s')) : Q a s' := by
  induction m generalizing s with
  | ret b =>
    cases hx
    exact hm
  | fail => cases hx
  | act o k ih =>
    obtain ⟨r, s1, he, hk⟩ := hm _ ha.1
    refine ih r hk (ha.2 r s1 he) ?_
    have hx : ((h o (env o s) s).bind fun r => (k r.1).exec h env r.2) = some (a, s') := hx
    rwa [he] at hx

end Prog

end Lib
