import Xv6Rcu.Dev.Request

/-!
# The disk request protocol

Every move of a process and of the device keeps the invariant.

- `attempt_inv`, `publish_inv`, `await_inv`, `intrRound_inv`: the processes.
- `deviceTake_inv`, `deviceComplete_inv`: the device.
- `Protocol`: what holds in every reachable state.
-/

namespace Xv6.Virtio

open Lib Function List

/-! ### Requests in flight -/

section InFlight
variable {P B : Type} {pc : P → Pc B} {p : P} {x : Pc B} {r : Req B}

theorem Pc.buf_of_req {x : Pc B} (h : x.req = some r) : x.buf = some r.b := by
  cases x <;> cases h <;> rfl

theorem InFlight.unique (h : Exclusive Pc.buf pc) {r' : Req B} (hr : InFlight pc r)
    (hr' : InFlight pc r') (hb : r'.b = r.b) : r' = r := by
  obtain ⟨p, hp⟩ := hr
  obtain ⟨q, hq⟩ := hr'
  have he : q = p := h q p r.b (hb ▸ Pc.buf_of_req hq) (Pc.buf_of_req hp)
  rw [he, hp] at hq
  exact (Option.some.inj hq).symm

variable [DecidableEq P]

theorem inFlight_same (h : x.req = (pc p).req) :
    InFlight (update pc p x) = InFlight pc := by
  have hreq : ∀ q, (update pc p x q).req = (pc q).req := by
    intro q
    by_cases hq : q = p
    · rw [hq, update_self, h]
    · rw [update_of_ne hq]
  funext r
  simp [InFlight, hreq]

theorem inFlight_add (h : (pc p).req = none) (hx : x.req = some r) :
    InFlight (update pc p x) = fun r' => InFlight pc r' ∨ r' = r := by
  funext r'
  refine propext ⟨?_, ?_⟩
  · rintro ⟨q, hq⟩
    by_cases hqp : q = p
    · rw [hqp, update_self, hx] at hq
      exact .inr (Option.some.inj hq).symm
    · rw [update_of_ne hqp] at hq
      exact .inl ⟨q, hq⟩
  · rintro (⟨q, hq⟩ | rfl)
    · have hqp : q ≠ p := fun he => by
        rw [he, h] at hq
        cases hq
      exact ⟨q, by rw [update_of_ne hqp]; exact hq⟩
    · exact ⟨p, by rw [update_self, hx]⟩

theorem inFlight_remove (hb : Exclusive Pc.buf pc) (h : (pc p).req = some r) (hx : x.req = none) :
    InFlight (update pc p x) = fun r' => InFlight pc r' ∧ r' ≠ r := by
  funext r'
  refine propext ⟨?_, ?_⟩
  · rintro ⟨q, hq⟩
    have hqp : q ≠ p := fun he => by
      rw [he, update_self, hx] at hq
      cases hq
    rw [update_of_ne hqp] at hq
    refine ⟨⟨q, hq⟩, fun he => hqp ?_⟩
    exact hb q p r.b (he ▸ Pc.buf_of_req hq) (Pc.buf_of_req h)
  · rintro ⟨⟨q, hq⟩, hne⟩
    have hqp : q ≠ p := fun he => by
      rw [he, h] at hq
      exact hne (Option.some.inj hq).symm
    exact ⟨q, by rw [update_of_ne hqp]; exact hq⟩

end InFlight

section Step
variable {P B : Type} {s s' : St P B} {p : P} {x : Pc B} {r : Req B} {op : Op B} {lock : Option P}

theorem Inv.not_locked (h : Inv s) (hown : s.lock = none ∨ s.lock = some p) {q : P} (hq : q ≠ p) :
    (s.pc q).locked = false := by
  rw [← Bool.not_eq_true]
  intro hl
  have hl := h.lock q hl
  rcases hown with ho | ho
  · rw [ho] at hl
    cases hl
  · rw [ho] at hl
    exact hq (Option.some.inj hl).symm

theorem Inv.not_publish (h : Inv s) (hown : s.lock = none ∨ s.lock = some p) {q : P} (hq : q ≠ p)
    (r : Req B) : s.pc q ≠ .publish r := by
  intro hpc
  have := h.not_locked hown hq
  rw [hpc] at this
  cases this

/-- A call whose buffer the disk is done with: its request was completed. -/
theorem Inv.done (h : Inv s) (hp : (s.pc p).req = some r) (hb : s.busy r.b = false) :
    r.num ∈ s.io.done := by
  by_contra hd
  have := (h.numbers.busy r ⟨p, hp⟩).mpr hd
  rw [hb] at this
  cases this

/-- The next completion that the interrupt handler sees is that of a request in flight. -/
theorem Inv.next_completion (h : Inv s) (hne : s.disk.usedIdx ≠ s.disk.deviceIdx) :
    ∃ r, InFlight s.pc r ∧ s.io.completed[s.io.seen]? = some (r.num, r.i0) ∧
      s.disk.usedRing (cell NUM s.disk.usedIdx.toNat) = r.i0 ∧
      (s.disk.info r.i0).status = 0 ∧ (s.disk.info r.i0).b = some r.b := by
  have hlt : s.io.seen < s.io.completed.length := by
    refine lt_of_le_of_ne h.numbers.seen fun he => hne ?_
    rw [h.queues.usedIdx, h.queues.deviceIdx, he]
  have hx : s.io.completed[s.io.seen] ∈ s.io.completed.drop s.io.seen := by
    rw [drop_eq_getElem_cons hlt]
    exact mem_cons_self
  obtain ⟨r, hr, hn, hi, -⟩ := h.numbers.pending (mem_append_right _ hx)
  refine ⟨r, hr, ?_, ?_, ?_, (h.chains.holds r hr).info⟩
  · rw [getElem?_eq_getElem hlt, hn, hi]
  · rw [h.queues.usedIdx, counter_mod num_dvd, h.queues.used.get (by simpa using hlt),
      getElem_map, hi]
  · rw [hi]
    exact h.queues.status _ hx

theorem inv_boot : Inv ({} : St P B) := by
  have hR : ∀ r, ¬ InFlight (fun _ : P => (.idle : Pc B)) r := fun r ⟨p, hp⟩ => by cases hp
  refine ⟨?_, ?_, ?_, ?_, ?_, ?_, ?_, fun _ => rfl, rfl⟩
  · nofun
  · nofun
  · nofun
  · exact ⟨fun r hr => absurd hr (hR r), fun r hr => absurd hr (hR r),
      fun r r' i hr => absurd hr (hR r), fun i _ => iff_of_true rfl fun r hr => absurd hr (hR r),
      fun r hr => absurd hr (hR r)⟩
  · exact ⟨fun r hr => absurd hr (hR r), fun r r' hr => absurd hr (hR r),
      fun n hn => absurd hn (Nat.not_lt_zero n), fun r hr => absurd hr (hR r), le_rfl, le_rfl,
      le_rfl, fun x hx => absurd hx not_mem_nil, nodup_nil⟩
  · exact ⟨rfl, rfl, rfl, rfl, .nil, .nil, fun x hx => absurd hx not_mem_nil⟩
  · nofun

/-! ### Moves of the device -/

theorem deviceTake_inv (h : Inv s) (hs : deviceTake s = some s') : Inv s' := by
  unfold deviceTake at hs
  split at hs
  · cases hs
  · next hne =>
    cases hs
    have hlt : s.io.taken < s.io.published := by
      refine lt_of_le_of_ne h.numbers.taken fun he => hne ?_
      rw [h.queues.lastAvail, h.queues.availIdx, he]
    have hlt' : s.io.taken < s.io.written.length := lt_of_lt_of_le hlt h.numbers.published
    have hhead : s.io.written[s.io.taken]? =
        some (s.disk.availRing (cell NUM s.io.lastAvail.toNat)) := by
      rw [h.queues.lastAvail, counter_mod num_dvd, h.queues.avail.get hlt',
        getElem?_eq_getElem hlt']
    exact ⟨h.lock, h.held, h.bufs, h.chains, h.numbers.take hlt hhead, h.queues.take _, h.publish,
      h.sync, h.panic⟩

theorem deviceComplete_inv {num : Nat} (h : Inv s) (hs : deviceComplete s num = some s') :
    Inv s' := by
  unfold deviceComplete at hs
  split at hs
  · cases hs
  · next n head hf =>
    have hx : (n, head) ∈ s.io.working := mem_of_find?_eq_some hf
    have hn : n = num := by simpa using find?_some hf
    subst hn
    obtain ⟨r, hr, hnum, hi, -⟩ := h.numbers.pending (mem_append_left _ hx)
    obtain rfl : r.i0 = head := hi
    have hd := h.chains.holds r hr
    rw [chainEnd_eq hd, hd.third.2] at hs
    cases hs
    have hroom := used_bound h.chains h.numbers
    have hpos := length_pos_of_mem hx
    rw [length_append, length_drop] at hroom
    refine ⟨h.lock, h.held, h.bufs, h.chains.congr rfl rfl fun i => ?_, h.numbers.complete hx,
      h.queues.complete _ h.numbers.seen (by omega), h.publish, h.sync, h.panic⟩
    show (update s.disk.info r.i0 _ i).b = _
    by_cases hi : i = r.i0
    · rw [hi, update_self]
    · rw [update_of_ne hi]

/-! ### Moves of a process -/

variable [DecidableEq P]

section
variable (h : Inv s) (hown : s.lock = none ∨ s.lock = some p)
include h hown

/-- The process that has the lock, or that takes it, moves. -/
theorem Inv.lock_move (hx : x.locked = true → lock = some p) (q : P)
    (hq : (update s.pc p x q).locked = true) : lock = some q := by
  by_cases hqp : q = p
  · rw [hqp, update_self] at hq
    rw [hqp]
    exact hx hq
  · rw [update_of_ne hqp, h.not_locked hown hqp] at hq
    cases hq

theorem Inv.publish_move (hx : ∀ r, x ≠ .publish r) (q : P) (r : Req B) :
    update s.pc p x q ≠ .publish r := by
  by_cases hqp : q = p
  · rw [hqp, update_self]
    exact hx r
  · rw [update_of_ne hqp]
    exact h.not_publish hown hqp r

theorem Inv.written (hp : ∀ r, s.pc p ≠ .publish r) : s.io.written.length = s.io.published := by
  refine h.sync fun q r => ?_
  by_cases hqp : q = p
  · rw [hqp]
    exact hp r
  · exact h.not_publish hown hqp r

omit h hown in
theorem Inv.held_move (h : Inv s) (hx : ∀ b, x.buf = some b → s.held b = true) (q : P) (b : B)
    (hq : (update s.pc p x q).buf = some b) : s.held b = true := by
  by_cases hqp : q = p
  · rw [hqp, update_self] at hq
    exact hx b hq
  · rw [update_of_ne hqp] at hq
    exact h.held q b hq

/-- A process goes to sleep or wakes up, or the interrupt handler starts or ends. -/
theorem Inv.move (hreq : x.req = (s.pc p).req) (hbuf : x.buf = (s.pc p).buf)
    (hp : ∀ r, s.pc p ≠ .publish r) (hx : ∀ r, x ≠ .publish r)
    (hl : x.locked = true → lock = some p) : Inv { s.goto p x with lock := lock } := by
  have hR : InFlight (update s.pc p x) = InFlight s.pc := inFlight_same hreq
  refine ⟨h.lock_move hown hl, h.held_move ?_, h.bufs.move ?_, hR ▸ h.chains, hR ▸ h.numbers,
    h.queues, ?_, fun _ => h.written hown hp, h.panic⟩
  · intro b hb
    exact h.held p b (hbuf ▸ hb)
  · intro b hb
    exact .inl (hbuf ▸ hb)
  · intro q r hq
    exact absurd hq (h.publish_move hown hx q r)

end

theorem publish_inv (h : Inv s) (hp : s.pc p = .publish r) : Inv (publish s p r) := by
  have hown : s.lock = some p := h.lock p (by rw [hp]; rfl)
  obtain ⟨hnum, hlen⟩ := h.publish p r hp
  have hR : InFlight (update s.pc p (.wait r)) = InFlight s.pc :=
    inFlight_same (by rw [hp]; rfl)
  have hx : ∀ r', Pc.wait r ≠ .publish r' := fun r' h => by cases h
  refine ⟨h.lock_move (.inr hown) fun _ => hown, h.held_move ?_, h.bufs.move ?_, ?_, ?_,
    h.queues.publish, ?_, fun _ => hlen, h.panic⟩
  · intro b hb
    exact h.held p b (by rw [hp]; exact hb)
  · intro b hb
    exact .inl (by rw [hp]; exact hb)
  · show Chains (InFlight (update s.pc p (.wait r))) _
    rw [hR]
    exact h.chains.congr rfl rfl fun _ => rfl
  · show Numbers (InFlight (update s.pc p (.wait r))) _ _
    rw [hR]
    exact h.numbers.publish (by omega)
  · intro q r' hq
    exact absurd hq (h.publish_move (.inr hown) hx q r')

variable [DecidableEq B]

theorem attempt_inv (h : Inv s) (hl : s.lock = none) (hreq : (s.pc p).req = none)
    (hheld : s.held op.b = true) (hb : ∀ q, q ≠ p → (s.pc q).buf ≠ some op.b) :
    Inv (attempt s p op) := by
  have hp : ∀ r, s.pc p ≠ .publish r := fun r hr => by
    rw [hr] at hreq
    cases hreq
  have hsync := h.written (.inl hl) hp
  have hbufs : ∀ x : Pc B, x.buf = some op.b → Exclusive Pc.buf (update s.pc p x) :=
    fun x hx => h.bufs.move fun b hb' => .inr fun q hq => by
      rw [← hb', hx]
      exact hb q hq
  have hheld' : ∀ x : Pc B, x.buf = some op.b → ∀ b, x.buf = some b → s.held b = true :=
    fun x hx b hb' => by
      rw [hx] at hb'
      exact Option.some.inj hb' ▸ hheld
  unfold attempt
  rcases allocLoop_spec (n := 3) nodup_nil (by simp) (by simp) with
    ⟨new, ha, hlen, hnd, hnew⟩ | ⟨new, ha, hnew⟩
  · rw [nil_append] at ha hnd
    rw [alloc3Desc, ha]
    obtain ⟨i0, i1, i2, rfl⟩ := length_eq_three.mp hlen
    dsimp only
    generalize hr : (⟨op.b, i0, i1, i2, s.io.written.length⟩ : Req B) = r
    have hchain : r.chain = [i0, i1, i2] := by rw [← hr]; rfl
    have hR : InFlight (update s.pc p (.publish r)) =
        fun r' => InFlight s.pc r' ∨ r' = r := inFlight_add hreq rfl
    have hrb : r.b = op.b := by rw [← hr]
    have hbuf : (Pc.publish r).buf = some op.b := by rw [← hrb]; rfl
    have hfree : i0 < NUM ∧ s.disk.free i0 = true := hnew i0 (by simp)
    refine ⟨h.lock_move (.inl hl) fun _ => rfl, h.held_move (hheld' _ hbuf), hbufs _ hbuf, ?_, ?_,
      ?_, ?_, ?_, h.panic⟩
    · have := h.chains.add (hchain ▸ hnd) hrb (hchain ▸ hnew)
      rw [← hr] at this
      show Chains (InFlight (update s.pc p (.publish r))) _
      rw [hR, ← hr]
      exact this
    · have := h.numbers.write (r := r) (by rw [← hr]) fun r' ⟨q, hq⟩ he => ?_
      · show Numbers (InFlight (update s.pc p (.publish r))) _ _
        rw [hR, ← hrb]
        have hi0 : r.i0 = i0 := by rw [← hr]
        rwa [hi0] at this
      · have hqp : q ≠ p := fun he' => by
          rw [he', hreq] at hq
          cases hq
        refine hb q hqp ?_
        rw [← hrb, ← he]
        exact Pc.buf_of_req hq
    · refine Queues.write ?_ hsync (avail_room h.chains h.numbers hfree.1 hfree.2) ?_
      · exact h.queues.congr ⟨rfl, rfl⟩ ⟨rfl, rfl, rfl⟩ fun _ => rfl
      · intro x hx he
        obtain ⟨r', hr', -, hi, -⟩ := h.numbers.pending (mem_append_right _ hx)
        have hnf := h.chains.not_free hr' (i := i0) (by simp [Req.chain, hi, he])
        rw [hfree.2] at hnf
        cases hnf
    · intro q r' hq
      have hq : update s.pc p (.publish r) q = .publish r' := hq
      by_cases hqp : q = p
      · rw [hqp, update_self] at hq
        cases hq
        refine ⟨?_, ?_⟩
        · rw [← hr]
          exact hsync
        · rw [length_append, hsync]
          rfl
      · rw [update_of_ne hqp] at hq
        exact absurd hq (h.not_publish (.inl hl) hqp r')
    · intro hno
      exact absurd (update_self ..) (hno p r)
  · rw [alloc3Desc, ha]
    have hR : InFlight (update s.pc p (.noDesc op)) = InFlight s.pc :=
      inFlight_same hreq.symm
    refine ⟨h.lock_move (.inl hl) Bool.noConfusion, h.held_move (hheld' _ rfl),
      hbufs _ rfl, ?_, hR ▸ h.numbers, h.queues.congr ⟨rfl, rfl⟩ ⟨rfl, rfl, rfl⟩ fun _ => rfl, ?_,
      fun _ => hsync, h.panic⟩
    · show Chains (InFlight (update s.pc p (.noDesc op))) _
      rw [hR]
      exact h.chains.take_give hnew
    · intro q r hq
      exact absurd hq (h.publish_move (.inl hl) (fun r hr => by cases hr) q r)

theorem await_inv (h : Inv s) (hp : s.pc p = .wait r) : Inv (await s p r) := by
  have hown : s.lock = some p := h.lock p (by rw [hp]; rfl)
  have hreq : (s.pc p).req = some r := by rw [hp]; rfl
  have hno : ∀ r', s.pc p ≠ .publish r' := fun r' h' => by
    rw [hp] at h'
    cases h'
  unfold await
  split
  · exact h.move (.inr hown) hreq.symm (by rw [hp]; rfl) hno (fun r' h => by cases h)
      Bool.noConfusion
  · next hbusy =>
    have hb : s.busy r.b = false := by simpa using hbusy
    have hr : InFlight s.pc r := ⟨p, hreq⟩
    have hfree : freeChain (NUM + 1) { s.disk with
        info := update s.disk.info r.i0 ⟨none, (s.disk.info r.i0).status⟩ } r.i0 =
        some ((s.disk.clear r.i0).give r.chain) :=
      freeChain_ok (h.chains.holds r hr) (h.chains.nodup r hr) (h.chains.lt r hr)
        (fun i hi => h.chains.not_free hr hi) 6
    have hR : InFlight (update s.pc p .idle) = fun r' => InFlight s.pc r' ∧ r' ≠ r :=
      inFlight_remove h.bufs hreq rfl
    have hbuf : ∀ b, (Pc.idle : Pc B).buf = some b → False := nofun
    simp only [hfree]
    refine ⟨h.lock_move (.inr hown) Bool.noConfusion, ?_,
      h.bufs.move fun b hb => (hbuf b hb).elim, ?_, ?_, ?_, ?_, fun _ => h.written (.inr hown) hno,
      h.panic⟩
    · intro q b hq
      have hq : (update s.pc p .idle q).buf = some b := hq
      have hqp : q ≠ p := fun he => by
        rw [he, update_self] at hq
        cases hq
      rw [update_of_ne hqp] at hq
      have hne : b ≠ r.b := fun he => hqp (h.bufs q p b hq (he ▸ Pc.buf_of_req hreq))
      show update s.held r.b false b = true
      rw [update_of_ne hne]
      exact h.held q b hq
    · show Chains (InFlight (update s.pc p .idle)) _
      rw [hR]
      exact h.chains.remove hr
    · show Numbers (InFlight (update s.pc p .idle)) _ _
      rw [hR]
      exact h.numbers.remove (h.done hreq hb)
    · refine h.queues.congr ⟨rfl, rfl⟩ ⟨rfl, rfl, rfl⟩ fun i => ?_
      show (update s.disk.info r.i0 _ i).status = _
      by_cases hi : i = r.i0
      · rw [hi, update_self]
      · rw [update_of_ne hi]
    · intro q r' hq
      exact absurd hq (h.publish_move (.inr hown) (fun r' h => by cases h) q r')

theorem intrRound_inv (h : Inv s) (hp : s.pc p = .intr) : Inv (intrRound s p) := by
  have hown : s.lock = some p := h.lock p (by rw [hp]; rfl)
  unfold intrRound
  split
  · exact h.move (.inr hown) (by rw [hp]; rfl) (by rw [hp]; rfl)
      (fun r h' => by rw [hp] at h'; cases h') (by rintro _ ⟨⟩) Bool.noConfusion
  · next hne =>
    obtain ⟨r, hr, hx, hid, hst, hb⟩ := h.next_completion hne
    rw [hid, if_neg (by simp [hst]), hb]
    exact ⟨h.lock, h.held, h.bufs, h.chains.congr rfl rfl fun _ => rfl,
      h.numbers.see hr hx fun r' hr' hb' => InFlight.unique h.bufs hr hr' hb', h.queues.see,
      h.publish, h.sync, h.panic⟩

theorem step_inv {act : Act B} (h : Inv s) (hs : step s p act = some s') : Inv s' := by
  cases act with
  | rw op =>
    simp only [step] at hs
    split at hs
    · next hp =>
      split at hs
      · next hc =>
        cases hs
        have h' : Inv { s with held := update s.held op.b true } := by
          refine ⟨h.lock, fun q b hq => ?_, h.bufs, h.chains, h.numbers, h.queues, h.publish,
            h.sync, h.panic⟩
          have hne : b ≠ op.b := fun he => by
            have := h.held q b hq
            rw [he, hc.2] at this
            cases this
          show update s.held op.b true b = true
          rw [update_of_ne hne]
          exact h.held q b hq
        refine attempt_inv h' hc.1 (by rw [hp]; rfl) (update_self ..) fun q _ hq => ?_
        have := h.held q op.b hq
        rw [hc.2] at this
        cases this
      · cases hs
    · cases hs
  | intr =>
    simp only [step] at hs
    split at hs
    · next hp =>
      split at hs
      · next hl =>
        cases hs
        exact h.move (.inl hl) (by rw [hp]; rfl) (by rw [hp]; rfl)
          (fun r h' => by rw [hp] at h'; cases h') nofun fun _ => rfl
      · cases hs
    · cases hs
  | step =>
    simp only [step] at hs
    split at hs
    · cases hs
    · next op hp =>
      split at hs
      · next hl =>
        cases hs
        have hbuf : (s.pc p).buf = some op.b := by rw [hp]; rfl
        exact attempt_inv h hl (by rw [hp]; rfl) (h.held p op.b hbuf)
          fun q hq hq' => hq (h.bufs q p op.b hq' hbuf)
      · cases hs
    · next r hp =>
      cases hs
      exact publish_inv h hp
    · next r hp =>
      cases hs
      exact await_inv h hp
    · next r hp =>
      split at hs
      · next hl =>
        cases hs
        exact h.move (.inl hl) (by rw [hp]; rfl) (by rw [hp]; rfl)
          (fun r h' => by rw [hp] at h'; cases h') nofun fun _ => rfl
      · cases hs
    · next hp =>
      cases hs
      exact intrRound_inv h hp

theorem machine_inv {l : Lbl P B} (h : Inv s) (hn : machine.next s l = some s') : Inv s' := by
  simp only [machine] at hn
  rw [if_neg (by simp [h.panic])] at hn
  cases l with
  | proc p act => exact step_inv h hn
  | take => exact deviceTake_inv h hn
  | complete num => exact deviceComplete_inv h hn

end Step

/-! ## The protocol -/

section Protocol
variable {P B : Type} [DecidableEq P] [DecidableEq B] {s s' : St P B}

/-- What holds in every reachable state. A request is numbered by its place in the avail ring;
`completed` are the requests that the device has completed, each with the head that it was given. -/
structure Protocol (s : St P B) : Prop where
  /-- A request owns three descriptors. -/
  chain : ∀ p r, (s.pc p).req = some r → r.chain.Nodup ∧ ∀ i ∈ r.chain, i < NUM
  disjoint : ∀ p q r r', (s.pc p).req = some r → (s.pc q).req = some r' → p ≠ q →
    List.Disjoint r.chain r'.chain
  free : ∀ i < NUM, (s.disk.free i = true ↔ ∀ p r, (s.pc p).req = some r → i ∉ r.chain)
  /-- A request has the place in the avail ring to which its head was written. -/
  number : ∀ p r, (s.pc p).req = some r → s.io.written[r.num]? = some r.i0
  completed : ∀ x ∈ s.io.completed, s.io.written[x.1]? = some x.2
  once : (s.io.completed.map Prod.fst).Nodup
  /-- A completion clears `b->disk` for the buffer of its own request. -/
  clears : ∀ l s' b, machine.next s l = some s' → s.busy b = true → s'.busy b = false →
    ∃ p r, (s.pc p).req = some r ∧ r.b = b ∧ s.io.completed[s.io.seen]? = some (r.num, r.i0) ∧
      s'.io.seen = s.io.seen + 1
  /-- A call returns after its own request was completed. -/
  returns : ∀ p r l s', (s.pc p).req = some r → machine.next s l = some s' →
    (s'.pc p).req = none → (r.num, r.i0) ∈ s.io.completed
  /-- What the device works on is a chain that ends in the status of its head: it can complete. -/
  working : ∀ x ∈ s.io.working,
    (s.disk.desc (chainEnd s.disk.desc NUM x.2)).addr = .status x.2
  no_panic : s.panic = false

/-- What a step does to the flags of the buffers and to the calls. -/
structure Effect (s s' : St P B) : Prop where
  clears : ∀ b, s.busy b = true → s'.busy b = false → ∃ r, InFlight s.pc r ∧ r.b = b ∧
    s.io.completed[s.io.seen]? = some (r.num, r.i0) ∧ s'.io.seen = s.io.seen + 1
  returns : ∀ p r, (s.pc p).req = some r → (s'.pc p).req = none → r.num ∈ s.io.done

omit [DecidableEq P] [DecidableEq B] in
theorem Effect.of_same (hb : ∀ b, s.busy b = true → s'.busy b = true)
    (hpc : ∀ p r, (s.pc p).req = some r → (s'.pc p).req = some r) : Effect s s' := by
  refine ⟨fun b hb' hb'' => ?_, fun p r hr hr' => ?_⟩
  · rw [hb b hb'] at hb''
    cases hb''
  · rw [hpc p r hr] at hr'
    cases hr'

variable {p : P} {x : Pc B} {r : Req B} {op : Op B}

omit [DecidableEq B] in
theorem req_update (hx : (s.pc p).req = none ∨ x.req = (s.pc p).req) (q : P) (r : Req B)
    (hq : (s.pc q).req = some r) : (update s.pc p x q).req = some r := by
  by_cases hqp : q = p
  · subst hqp
    rw [update_self]
    rcases hx with hx | hx
    · rw [hx] at hq
      cases hq
    · rw [hx, hq]
  · rw [update_of_ne hqp, hq]

theorem attempt_effect (hp : (s.pc p).req = none) : Effect s (attempt s p op) := by
  unfold attempt
  split
  · exact .of_same (fun _ h => h) fun _ _ h => h
  · exact .of_same (fun _ h => h) (req_update (.inl hp))
  · split
    · refine .of_same (fun b hb => ?_) (req_update (.inl hp))
      show update s.busy op.b true b = true
      by_cases hbo : b = op.b
      · rw [hbo, update_self]
      · rw [update_of_ne hbo, hb]
    · exact .of_same (fun _ h => h) fun _ _ h => h

theorem await_effect (h : Inv s) (hp : s.pc p = .wait r) : Effect s (await s p r) := by
  have hreq : (s.pc p).req = some r := by rw [hp]; rfl
  unfold await
  split
  · exact .of_same (fun _ h => h) (req_update (.inr (by rw [hp]; rfl)))
  · next hbusy =>
    dsimp only
    split
    · exact .of_same (fun _ h => h) fun _ _ h => h
    · refine ⟨fun b hb hb' => ?_, fun q r' hq hq' => ?_⟩
      · have hb' : s.busy b = false := hb'
        rw [hb] at hb'
        cases hb'
      · have hq' : (update s.pc p .idle q).req = none := hq'
        by_cases hqp : q = p
        · rw [hqp, hreq] at hq
          cases hq
          exact h.done hreq (by simpa using hbusy)
        · rw [update_of_ne hqp, hq] at hq'
          cases hq'

theorem intrRound_effect (h : Inv s) (hp : s.pc p = .intr) : Effect s (intrRound s p) := by
  unfold intrRound
  split
  · exact .of_same (fun _ h => h) (req_update (.inl (by rw [hp]; rfl)))
  · next hne =>
    obtain ⟨r, hr, hx, hid, hst, hb⟩ := h.next_completion hne
    rw [hid, if_neg (by simp [hst]), hb]
    refine ⟨fun b hb1 hb2 => ⟨r, hr, ?_, hx, rfl⟩, fun q r' hq hq' => ?_⟩
    · have hb2 : update s.busy r.b false b = false := hb2
      by_contra hne'
      rw [update_of_ne (Ne.symm hne'), hb1] at hb2
      cases hb2
    · rw [hq] at hq'
      cases hq'

theorem step_effect {act : Act B} (h : Inv s) (hs : step s p act = some s') : Effect s s' := by
  cases act with
  | rw op =>
    simp only [step] at hs
    split at hs
    · next hp =>
      split at hs
      · cases hs
        let s1 : St P B := { s with held := update s.held op.b true }
        have he : Effect s1 (attempt s1 p op) := attempt_effect (by rw [hp]; rfl)
        exact ⟨he.clears, he.returns⟩
      · cases hs
    · cases hs
  | intr =>
    simp only [step] at hs
    split at hs
    · next hp =>
      split at hs
      · cases hs
        exact .of_same (fun _ h => h) (req_update (.inl (by rw [hp]; rfl)))
      · cases hs
    · cases hs
  | step =>
    simp only [step] at hs
    split at hs
    · cases hs
    · next op hp =>
      split at hs
      · cases hs
        exact attempt_effect (by rw [hp]; rfl)
      · cases hs
    · next r hp =>
      cases hs
      exact .of_same (fun _ h => h) (req_update (.inr (by rw [hp]; rfl)))
    · next r hp =>
      cases hs
      exact await_effect h hp
    · next r hp =>
      split at hs
      · cases hs
        exact .of_same (fun _ h => h) (req_update (.inr (by rw [hp]; rfl)))
      · cases hs
    · next hp =>
      cases hs
      exact intrRound_effect h hp

theorem machine_effect {l : Lbl P B} (h : Inv s) (hn : machine.next s l = some s') :
    Effect s s' := by
  simp only [machine] at hn
  rw [if_neg (by simp [h.panic])] at hn
  cases l with
  | proc p act => exact step_effect h hn
  | take =>
    simp only [deviceTake] at hn
    split at hn
    · cases hn
    · cases hn
      exact .of_same (fun _ h => h) fun _ _ h => h
  | complete num =>
    simp only [deviceComplete] at hn
    split at hn
    · cases hn
    · split at hn
      · cases hn
        exact .of_same (fun _ h => h) fun _ _ h => h
      · cases hn

theorem Inv.protocol (h : Inv s) : Protocol s := by
  refine ⟨fun p r hr => ⟨h.chains.nodup r ⟨p, hr⟩, h.chains.lt r ⟨p, hr⟩⟩, ?_, ?_,
    fun p r hr => h.numbers.num r ⟨p, hr⟩, ?_, ?_, ?_, ?_, ?_, h.panic⟩
  · intro p q r r' hp hq hne i hi hi'
    have he := h.chains.disjoint r r' i ⟨p, hp⟩ ⟨q, hq⟩ hi hi'
    exact hne (h.bufs p q r.b (Pc.buf_of_req hp) (he ▸ Pc.buf_of_req hq))
  · intro i hi
    rw [h.chains.free i hi]
    exact ⟨fun hall p r hr => hall r ⟨p, hr⟩, fun hall r ⟨p, hr⟩ => hall p r hr⟩
  · intro x hx
    exact (h.numbers.issued x (mem_append_right _ hx)).1
  · have hnd := h.numbers.nodup
    rw [map_append] at hnd
    exact (nodup_append.mp hnd).2.1
  · intro l s' b hn hb hb'
    obtain ⟨r, ⟨p, hr⟩, hrest⟩ := (machine_effect h hn).clears b hb hb'
    exact ⟨p, r, hr, hrest⟩
  · intro p r l s' hr hn hr'
    obtain ⟨-, x, hx⟩ := h.numbers.done_lt ((machine_effect h hn).returns p r hr hr')
    have hw := (h.numbers.issued _ (mem_append_right _ hx)).1
    rw [h.numbers.num r ⟨p, hr⟩] at hw
    exact Option.some.inj hw ▸ hx
  · intro x hx
    obtain ⟨r, hr, -, hi, -⟩ := h.numbers.pending (mem_append_left _ hx)
    have hd := h.chains.holds r hr
    rw [← show r.i0 = x.2 from hi, chainEnd_eq hd]
    exact hd.third.2

/-- **The disk request protocol.** -/
theorem disk_protocol {ls : List (Lbl P B)} (hr : machine.run ({} : St P B) ls = some s) :
    Protocol s :=
  (Machine.run_inv_all machine_inv inv_boot hr).protocol

/-- Two requests are in flight and a third one finds two descriptors. The device completes the
second request first. -/
def twoRequests : List (Lbl (Fin 3) (Fin 3)) :=
  [.proc 0 (.rw ⟨0, false, 5⟩), .proc 0 .step, .take, .proc 0 .step,
    .proc 1 (.rw ⟨1, true, 7⟩), .proc 1 .step, .proc 1 .step, .take, .proc 2 (.rw ⟨2, false, 9⟩),
    .complete 1, .proc 2 .step, .complete 0]

theorem disk_protocol_twoRequests :
    ∃ s : St (Fin 3) (Fin 3), machine.run {} twoRequests = some s ∧ Protocol s ∧
      s.io.completed = [(1, 3), (0, 0)] ∧ s.disk.free 6 = true ∧ s.disk.free 5 = false := by
  have hrun : ((machine.run ({} : St (Fin 3) (Fin 3)) twoRequests).map fun s =>
      (s.io.completed, s.disk.free 6, s.disk.free 5)) = some ([(1, 3), (0, 0)], true, false) := by
    decide +kernel
  obtain ⟨s, hs, he⟩ := Option.map_eq_some_iff.mp hrun
  obtain ⟨hc, he⟩ := Prod.mk.inj he
  obtain ⟨h6, h5⟩ := Prod.mk.inj he
  exact ⟨s, hs, disk_protocol hs, hc, h6, h5⟩

end Protocol

end Xv6.Virtio
