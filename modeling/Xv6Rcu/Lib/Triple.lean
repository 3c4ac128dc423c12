/-!
# Triples for programs that may stop

`Triple P m Q`: if the program `m` returns from a state in `P`, then with a value and a state in
`Q`. A program that stops (`EStateM` keeps the error) meets every triple.

* One rule for each construct: `Triple.pure`, `Triple.bind`, `Triple.throw`, `Triple.get`,
  `Triple.modify`, `Triple.modifyGet`, `Triple.ite` and, for a loop over a list, `Triple.forIn`.
* `Triple.mono` weakens a triple; `Triple.and` joins two of one program; `Triple.assuming` and
  `Triple.exists_pre` take a fact and a witness out of the precondition.
* `bind_ok`, `get_ok`: what a program that returned did.
* `Returns m s Q`: the program does return from the state `s`, with a value and a state in `Q`;
  `Stops m s`: it stops. The rules for `>>=` run a program step by step. `Ends E m s Q`: it returns
  or stops for a reason in `E`.
* `Leaves π m`: the program leaves the part `π` of the state as it is; one rule for each construct.
-/

namespace Lib

variable {ε σ α β γ : Type}

/-- If `m` returns from a state in `P`, then with a value and a state in `Q`. -/
def Triple (P : σ → Prop) (m : EStateM ε σ α) (Q : α → σ → Prop) : Prop :=
  ∀ s a s', P s → m s = .ok a s' → Q a s'

/-- A program that returned did so step by step. -/
theorem bind_ok {m : EStateM ε σ α} {f : α → EStateM ε σ β} {s s' : σ} {b : β} :
    (m >>= f) s = .ok b s' ↔ ∃ a s1, m s = .ok a s1 ∧ f a s1 = .ok b s' := by
  simp only [bind, EStateM.bind]
  cases h : m s with
  | ok a s1 =>
    constructor
    · exact fun hf => ⟨a, s1, rfl, hf⟩
    · rintro ⟨a', s1', e, hf⟩
      cases e
      exact hf
  | error e s1 =>
    constructor
    · rintro ⟨⟩
    · rintro ⟨a, s1', e, -⟩
      cases e

/-- The same for a program that returned in `Except`. -/
theorem except_bind_of_ok {m : Except ε α} {f : α → Except ε β} {a : α} (h : m = .ok a) :
    m >>= f = f a := by
  rw [h]
  rfl

namespace Triple

variable {P P' : σ → Prop} {Q Q' : α → σ → Prop} {m : EStateM ε σ α}

theorem mono (h : Triple P m Q) (hp : ∀ s, P' s → P s) (hq : ∀ a s, Q a s → Q' a s) :
    Triple P' m Q' := fun s a s' hs hm => hq a s' (h s a s' (hp s hs) hm)

theorem post (h : Triple P m Q) (hq : ∀ a s, Q a s → Q' a s) : Triple P m Q' :=
    h.mono (fun _ => id) hq

theorem left (h : Triple P m fun a s => P' s ∧ Q a s) : Triple P m fun _ => P' :=
  h.post fun _ _ h => h.1

theorem and (h : Triple P m Q) (h' : Triple P m Q') : Triple P m fun a s => Q a s ∧ Q' a s :=
  fun s a s' hs hm => ⟨h s a s' hs hm, h' s a s' hs hm⟩

/-- A fact about a value that the program has read. -/
theorem assuming {φ : Prop} (h : φ → Triple P m Q) : Triple (fun s => P s ∧ φ) m Q :=
  fun s a s' hs hm => h hs.2 s a s' hs.1 hm

theorem exists_pre {ι : Type} {P : ι → σ → Prop} (h : ∀ i, Triple (P i) m Q) :
    Triple (fun s => ∃ i, P i s) m Q := fun s a s' ⟨i, hs⟩ hm => h i s a s' hs hm

/-- What the program does from one state. -/
theorem of_eq {s s' : σ} {a : α} (hm : m s = .ok a s') (h : Q a s') : Triple (· = s) m Q := by
  rintro _ b s1 rfl hb
  cases hm.symm.trans hb
  exact h

theorem bind {R : β → σ → Prop} {f : α → EStateM ε σ β} (h : Triple P m Q)
    (hf : ∀ a, Triple (Q a) (f a) R) : Triple P (m >>= f) R := by
  intro s b s' hs hm
  obtain ⟨a, s1, h1, h2⟩ := bind_ok.mp hm
  exact hf a s1 b s' (h s a s1 hs h1) h2

theorem pure {a : α} (h : ∀ s, P s → Q a s) : Triple P (Pure.pure a : EStateM ε σ α) Q := by
  rintro s _ _ hs ⟨⟩
  exact h s hs

theorem throw {e : ε} : Triple P (MonadExcept.throw e : EStateM ε σ α) Q := by
  rintro s _ _ _ ⟨⟩

theorem throw_bind {e : ε} {f : β → EStateM ε σ α} :
    Triple P ((MonadExcept.throw e : EStateM ε σ β) >>= f) Q := by
  rintro s _ _ _ ⟨⟩

theorem get {f : σ → EStateM ε σ α} (h : ∀ s, P s → Triple (fun s' => s' = s) (f s) Q) :
    Triple P (MonadState.get >>= f) Q := by
  intro s a s' hs hm
  exact h s hs s a s' rfl hm

theorem modify {f : σ → σ} {Q : PUnit → σ → Prop} (h : ∀ s, P s → Q () (f s)) :
    Triple P (modify f : EStateM ε σ PUnit) Q := by
  rintro s _ _ hs ⟨⟩
  exact h s hs

theorem modifyGet {f : σ → α × σ} (h : ∀ s, P s → Q (f s).1 (f s).2) :
    Triple P (modifyGet f : EStateM ε σ α) Q := by
  rintro s _ _ hs ⟨⟩
  exact h s hs

theorem ite {c : Prop} [Decidable c] {m' : EStateM ε σ α} (h : c → Triple P m Q)
    (h' : ¬ c → Triple P m' Q) : Triple P (if c then m else m') Q := by
  split
  · exact h ‹_›
  · exact h' ‹_›

/-- The loop rule: what every round keeps. -/
theorem forIn {l : List β} {f : β → PUnit → EStateM ε σ (ForInStep PUnit)}
    (h : ∀ b ∈ l, Triple P (f b ⟨⟩) fun _ => P) :
    Triple P (ForIn.forIn l ⟨⟩ f : EStateM ε σ PUnit) fun _ => P := by
  induction l with
  | nil => exact pure fun _ => id
  | cons b l ih =>
    rw [List.forIn_cons]
    refine (h b List.mem_cons_self).bind fun r => ?_
    cases r with
    | done _ => exact pure fun _ => id
    | yield _ => exact ih fun b hb => h b (List.mem_cons_of_mem _ hb)

end Triple

/-! ## What a program leaves as it is -/

/-- If `m` returns, then `π` of the state is as before. -/
def Leaves {τ : Type} (π : σ → τ) (m : EStateM ε σ α) : Prop :=
  ∀ s a s', m s = .ok a s' → π s' = π s

namespace Leaves

variable {τ : Type} {π : σ → τ} {m m' : EStateM ε σ α} {f : α → EStateM ε σ β}

theorem pure (a : α) : Leaves π (Pure.pure a : EStateM ε σ α) := by
  rintro s _ _ ⟨⟩
  rfl

theorem throw (e : ε) : Leaves π (MonadExcept.throw e : EStateM ε σ α) := by
  rintro s _ _ ⟨⟩

theorem get : Leaves π (MonadState.get : EStateM ε σ σ) := by
  rintro s _ _ ⟨⟩
  rfl

theorem modify {g : σ → σ} (h : ∀ s, π (g s) = π s) :
    Leaves π (modify g : EStateM ε σ PUnit) := by
  rintro s _ _ ⟨⟩
  exact h s

theorem modifyGet {g : σ → α × σ} (h : ∀ s, π (g s).2 = π s) :
    Leaves π (modifyGet g : EStateM ε σ α) := by
  rintro s _ _ ⟨⟩
  exact h s

theorem bind (h : Leaves π m) (hf : ∀ a, Leaves π (f a)) : Leaves π (m >>= f) := by
  intro s b s' hm
  obtain ⟨a, s1, h1, h2⟩ := bind_ok.mp hm
  exact (hf a s1 b s' h2).trans (h s a s1 h1)

theorem ite {c : Prop} [Decidable c] (h : Leaves π m) (h' : Leaves π m') :
    Leaves π (if c then m else m') := by
  split
  · exact h
  · exact h'

/-- What is known of `π` stays so. -/
theorem keeps (h : Leaves π m) (Q : τ → Prop) :
    Triple (fun s => Q (π s)) m fun _ s => Q (π s) := by
  intro s a s' hs hm
  rwa [h s a s' hm]

end Leaves

/-! ## Programs that return -/

/-- `m` returns from `s`, with a value and a state in `Q`. -/
def Returns (m : EStateM ε σ α) (s : σ) (Q : α → σ → Prop) : Prop :=
  ∃ a s', m s = .ok a s' ∧ Q a s'

/-- `m` stops in a run from `s`. -/
def Stops (m : EStateM ε σ α) (s : σ) : Prop := ∃ e s', m s = .error e s'

section Run
variable {s : σ} {m : EStateM ε σ α} {f : α → EStateM ε σ β} {Q Q' : α → σ → Prop}
  {R : β → σ → Prop}

theorem bind_of_ok {a : α} {s' : σ} (h : m s = .ok a s') : (m >>= f) s = f a s' := by
  simp [bind, EStateM.bind, h]

namespace Returns

theorem pure {a : α} (h : Q a s) : Returns (Pure.pure a : EStateM ε σ α) s Q := ⟨a, s, rfl, h⟩

theorem of_eq {a : α} {s' : σ} (h : m s = .ok a s') (hq : Q a s') : Returns m s Q := ⟨a, s', h, hq⟩

theorem mono (h : Returns m s Q) (hq : ∀ a s, Q a s → Q' a s) : Returns m s Q' := by
  obtain ⟨a, s', hm, h⟩ := h
  exact ⟨a, s', hm, hq a s' h⟩

theorem bind (h : Returns m s fun a s' => Returns (f a) s' R) : Returns (m >>= f) s R := by
  obtain ⟨a, s1, hm, b, s2, hf, hr⟩ := h
  exact ⟨b, s2, (bind_of_ok hm).trans hf, hr⟩

theorem bind_eq {a : α} {s' : σ} (h : m s = .ok a s') (hf : Returns (f a) s' R) :
    Returns (m >>= f) s R := bind ⟨a, s', h, hf⟩

theorem triple (h : Returns m s Q) : Triple (· = s) m Q := by
  obtain ⟨a, s', hm, hq⟩ := h
  exact .of_eq hm hq

end Returns

namespace Stops

theorem throw {e : ε} : Stops (MonadExcept.throw e : EStateM ε σ α) s := ⟨e, s, rfl⟩

theorem bind (h : Stops m s) : Stops (m >>= f) s := by
  obtain ⟨e, s', hm⟩ := h
  exact ⟨e, s', by simp [Bind.bind, EStateM.bind, hm]⟩

theorem bind_right (h : Returns m s fun a s' => Stops (f a) s') : Stops (m >>= f) s := by
  obtain ⟨a, s1, hm, e, s2, hf⟩ := h
  exact ⟨e, s2, (bind_of_ok hm).trans hf⟩

theorem triple (h : Stops m s) : Triple (· = s) m Q := by
  rintro _ a s' rfl hm
  obtain ⟨e, s1, hm'⟩ := h
  cases hm.symm.trans hm'

end Stops

/-! ## Programs that may stop for some reasons only -/

/-- `m` returns from `s` with a value and a state in `Q`, or it stops with an error in `E`. -/
def Ends (E : ε → Prop) (m : EStateM ε σ α) (s : σ) (Q : α → σ → Prop) : Prop :=
  Returns m s Q ∨ ∃ e s', m s = .error e s' ∧ E e

namespace Ends

variable {E : ε → Prop}

theorem pure {a : α} (h : Q a s) : Ends E (Pure.pure a : EStateM ε σ α) s Q := .inl (.pure h)

theorem throw {e : ε} (h : E e) : Ends E (MonadExcept.throw e : EStateM ε σ α) s Q :=
  .inr ⟨e, s, rfl, h⟩

theorem bind (h : Ends E m s fun a s' => Ends E (f a) s' R) : Ends E (m >>= f) s R := by
  rcases h with ⟨a, s1, hm, hf⟩ | ⟨e, s1, hm, he⟩
  · rw [Ends, Returns, bind_of_ok hm]
    exact hf
  · refine .inr ⟨e, s1, ?_, he⟩
    simp [Bind.bind, EStateM.bind, hm]

theorem mono (h : Ends E m s Q) (hq : ∀ a s, Q a s → Q' a s) : Ends E m s Q' :=
  h.imp_left fun h => h.mono hq

theorem bind_eq {a : α} {s' : σ} (h : m s = .ok a s') (hf : Ends E (f a) s' R) :
    Ends E (m >>= f) s R := bind (.inl ⟨a, s', h, hf⟩)

/-- A program that has no reason to stop returns. -/
theorem returns (h : Ends (fun _ => False) m s Q) : Returns m s Q :=
  h.resolve_right fun ⟨_, _, _, he⟩ => he

end Ends

end Run

end Lib
