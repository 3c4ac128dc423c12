import Mathlib.Logic.Function.Basic

/-!
# Programs on a disk that may stop

A program runs over a **world**: a volatile memory, a disk, and the list of the block writes it has
issued. A program may fail (`EStateM` keeps the world it failed in), and the machine may stop
between any two block writes: then the memory is lost and the disk holds a prefix of the writes.

* `applyWrites`: the disk after a list of writes, in issue order.
* `Lands C`: every write of a list lands in `C`, a condition on the writes issued so far and the
  disk. `Lands.take` reads it as a condition on the disk at every stop.
* `Exec`: the weakest-precondition form of a crash triple. `Exec C E m w Q` says that `m` from `w`
  only writes what lands in `C`, fails only with an error in `E`, and otherwise returns with `Q`.
* One rule for each construct of a program: `Exec.pure`, `Exec.bind`, `Exec.read`, `Exec.modifyMem`,
  `Exec.write`, `Exec.throw` and, for a loop over a range, `Exec.range`.
* `stopped`, `restarts`: the disk that one stop leaves, and that any number of them leave.
-/

namespace Lib

open Function

variable {σ A B ε α β : Type} [DecidableEq A]

/-! ## Writes -/

/-- The disk after the writes `ws`, in issue order. -/
def applyWrites (d : A → B) (ws : List (A × B)) : A → B :=
  ws.foldl (fun d w => update d w.1 w.2) d

@[simp] theorem applyWrites_nil (d : A → B) : applyWrites d [] = d := rfl

@[simp] theorem applyWrites_cons (d : A → B) (w : A × B) (ws : List (A × B)) :
    applyWrites d (w :: ws) = applyWrites (update d w.1 w.2) ws := rfl

theorem applyWrites_append (d : A → B) (ws vs : List (A × B)) :
    applyWrites d (ws ++ vs) = applyWrites (applyWrites d ws) vs :=
  List.foldl_append

/-- Every write of `vs` lands in `C`, where `ws` are the writes issued before. -/
def Lands (C : List (A × B) → (A → B) → Prop) :
    List (A × B) → (A → B) → List (A × B) → Prop
  | _, _, [] => True
  | ws, d, v :: vs =>
    C (ws ++ [v]) (update d v.1 v.2) ∧
      Lands C (ws ++ [v]) (update d v.1 v.2) vs

variable {C : List (A × B) → (A → B) → Prop}

theorem Lands.append {ws vs us : List (A × B)} {d : A → B} (h : Lands C ws d vs)
    (h' : Lands C (ws ++ vs) (applyWrites d vs) us) : Lands C ws d (vs ++ us) := by
  induction vs generalizing ws d with
  | nil => simpa using h'
  | cons v vs ih => exact ⟨h.1, ih h.2 (by simpa using h')⟩

/-- The disk at every stop: the start, or a disk in `C`. -/
theorem Lands.take {ws vs : List (A × B)} {d : A → B} (h : Lands C ws d vs) (h0 : C ws d)
    (k : Nat) : C (ws ++ vs.take k) (applyWrites d (vs.take k)) := by
  induction vs generalizing ws d k with
  | nil => simpa using h0
  | cons v vs ih =>
    cases k with
    | zero => simpa using h0
    | succ k => simpa using ih h.2 h.1 k

/-! ## Worlds and programs -/

/-- The memory, the disk, and the writes issued so far. -/
structure World (σ A B : Type) where
  mem : σ
  disk : A → B
  writes : List (A × B)

/-- A program over a world; a failed run keeps the world it failed in. -/
abbrev DiskM (ε σ A B α : Type) := EStateM ε (World σ A B) α

/-- Change the memory. -/
def modifyMem (f : σ → σ) : DiskM ε σ A B Unit :=
  modify fun w => { w with mem := f w.mem }

/-- Write one block; the disk takes the writes in issue order. -/
def writeBlock (a : A) (b : B) : DiskM ε σ A B Unit :=
  modify fun w =>
    { w with disk := update w.disk a b, writes := w.writes ++ [(a, b)] }

/-- The world a run ends in, also when it fails. -/
def worldAfter (m : DiskM ε σ A B α) (w : World σ A B) : World σ A B :=
  match m w with
  | .ok _ w' => w'
  | .error _ w' => w'

/-- From `w` to `w'` the disk took some more writes, and each of them landed in `C`. -/
def Grows (C : List (A × B) → (A → B) → Prop) (w w' : World σ A B) : Prop :=
  ∃ ws, w'.writes = w.writes ++ ws ∧ w'.disk = applyWrites w.disk ws ∧ Lands C w.writes w.disk ws

theorem Grows.of_eq {w w' : World σ A B} (hd : w'.disk = w.disk) (hw : w'.writes = w.writes) :
    Grows C w w' :=
  ⟨[], by simpa using hw, hd, trivial⟩

theorem Grows.trans {w1 w2 w3 : World σ A B} (h : Grows C w1 w2) (h' : Grows C w2 w3) :
    Grows C w1 w3 := by
  obtain ⟨ws, hw, hd, hl⟩ := h
  obtain ⟨vs, hv, hd', hl'⟩ := h'
  rw [hw, hd] at hl'
  exact ⟨ws ++ vs, by rw [hv, hw, List.append_assoc], by rw [hd', hd, applyWrites_append],
    hl.append hl'⟩

/-! ## The crash logic -/

/-- `m` from `w` only writes what lands in `C`, fails only with an error in `E`, and otherwise
returns with `Q`. -/
def Exec (C : List (A × B) → (A → B) → Prop) (E : ε → Prop) (m : DiskM ε σ A B α) (w : World σ A B)
    (Q : α → World σ A B → Prop) : Prop :=
  match m w with
  | .ok a w' => Grows C w w' ∧ Q a w'
  | .error e w' => Grows C w w' ∧ E e

namespace Exec

variable {E : ε → Prop} {m : DiskM ε σ A B α} {w : World σ A B} {Q : α → World σ A B → Prop}

theorem grows (h : Exec C E m w Q) : Grows C w (worldAfter m w) := by
  unfold Exec at h
  unfold worldAfter
  split at h <;> exact h.1

/-- A run that cannot fail returns. -/
theorem returns (h : Exec C (fun _ : ε => False) m w Q) : ∃ a w', m w = .ok a w' ∧ Q a w' := by
  unfold Exec at h
  split at h
  · rename_i a w' hm
    exact ⟨a, w', hm, h.2⟩
  · exact h.2.elim

theorem mono {Q' : α → World σ A B → Prop} (h : Exec C E m w Q) (hq : ∀ a w', Q a w' → Q' a w') :
    Exec C E m w Q' := by
  unfold Exec at h ⊢
  split at h
  · exact ⟨h.1, hq _ _ h.2⟩
  · exact h

theorem pure {a : α} (h : Q a w) : Exec C E (Pure.pure a : DiskM ε σ A B α) w Q :=
  ⟨.of_eq rfl rfl, h⟩

theorem throw {e : ε} (h : E e) : Exec C E (MonadExcept.throw e : DiskM ε σ A B α) w Q :=
  ⟨.of_eq rfl rfl, h⟩

theorem bind {f : α → DiskM ε σ A B β} {Q : β → World σ A B → Prop}
    (h : Exec C E m w fun a w' => Exec C E (f a) w' Q) : Exec C E (m >>= f) w Q := by
  unfold Exec at h ⊢
  simp only [Bind.bind, EStateM.bind]
  cases hm : m w with
  | ok a w1 =>
    simp only [hm] at h ⊢
    obtain ⟨hg, h⟩ := h
    cases hf : f a w1 with
    | ok b w2 => simp only [hf] at h ⊢; exact ⟨hg.trans h.1, h.2⟩
    | error e w2 => simp only [hf] at h ⊢; exact ⟨hg.trans h.1, h.2⟩
  | error e w1 => simp only [hm] at h ⊢; exact h

theorem read {f : World σ A B → DiskM ε σ A B β} {Q : β → World σ A B → Prop}
    (h : Exec C E (f w) w Q) : Exec C E (get >>= f) w Q :=
  bind ⟨.of_eq rfl rfl, h⟩

theorem modifyMem {f : σ → σ} {Q : Unit → World σ A B → Prop}
    (h : Q () { w with mem := f w.mem }) : Exec C E (Lib.modifyMem f) w Q :=
  ⟨.of_eq rfl rfl, h⟩

theorem write {a : A} {b : B} {Q : Unit → World σ A B → Prop}
    (hC : C (w.writes ++ [(a, b)]) (update w.disk a b))
    (h : Q () { w with disk := update w.disk a b, writes := w.writes ++ [(a, b)] }) :
    Exec C E (writeBlock a b) w Q :=
  ⟨⟨[(a, b)], rfl, rfl, hC, trivial⟩, h⟩

theorem range_aux {f : Nat → DiskM ε σ A B Unit} {n : Nat} {I : Nat → World σ A B → Prop}
    (hstep : ∀ t < n, ∀ w, I t w → Exec C E (f t) w fun _ => I (t + 1)) :
    ∀ (k t : Nat) (w : World σ A B), t + k = n → I t w →
      Exec C E (forM (List.range' t k) f) w fun _ => I n := by
  intro k
  induction k with
  | zero =>
    intro t w ht hi
    obtain rfl : t = n := by omega
    exact pure hi
  | succ k ih =>
    intro t w ht hi
    exact bind ((hstep t (by omega) w hi).mono fun _ w' hi' => ih (t + 1) w' (by omega) hi')

/-- **The loop rule**: `I t` holds before the round `t`. -/
theorem range {f : Nat → DiskM ε σ A B Unit} {n : Nat} (I : Nat → World σ A B → Prop)
    (hi : I 0 w) (hstep : ∀ t < n, ∀ w, I t w → Exec C E (f t) w fun _ => I (t + 1)) :
    Exec C E (forM (List.range n) f) w fun _ => I n := by
  rw [List.range_eq_range']
  exact range_aux hstep n 0 w (by omega) hi

end Exec

/-! ## Stops and restarts -/

/-- The writes that `m` issues from the memory `mem` and the disk `d`. -/
def issued (m : DiskM ε σ A B α) (mem : σ) (d : A → B) : List (A × B) :=
  (worldAfter m ⟨mem, d, []⟩).writes

/-- The disk when the machine stops after `k` of these writes. -/
def stopped (m : DiskM ε σ A B α) (mem : σ) (k : Nat) (d : A → B) : A → B :=
  applyWrites d ((issued m mem d).take k)

/-- The disk after `m` was started from the memory `boot` and stopped, once for each number of
writes in the list. -/
def restarts (m : DiskM ε σ A B α) (boot : σ) (ks : List Nat) (d : A → B) : A → B :=
  ks.foldl (fun d k => stopped m boot k d) d

theorem Exec.stopped {E : ε → Prop} {m : DiskM ε σ A B α} {mem : σ} {d : A → B}
    {Q : α → World σ A B → Prop} (h : Exec C E m ⟨mem, d, []⟩ Q) (h0 : C [] d) (k : Nat) :
    C ((issued m mem d).take k) (Lib.stopped m mem k d) := by
  obtain ⟨ws, hw, -, hl⟩ := h.grows
  have he : issued m mem d = ws := by simpa [issued] using hw
  rw [Lib.stopped, he]
  simpa using hl.take h0 k

/-- What every stop keeps holds after any number of restarts. -/
theorem restarts_inv {m : DiskM ε σ A B α} {boot : σ} {I : (A → B) → Prop}
    (h : ∀ d k, I d → I (stopped m boot k d)) (ks : List Nat) {d : A → B} (hi : I d) :
    I (restarts m boot ks d) := by
  induction ks generalizing d with
  | nil => exact hi
  | cons k ks ih => exact ih (h d k hi)

end Lib
