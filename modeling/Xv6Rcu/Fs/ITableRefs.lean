import Xv6Rcu.Fs.ITable

/-!
# References to inodes

- `Site`: what an entry of the table and a process owe each other.
- `At`: what holds at one entry, from the entry, the disk inode that it names, the references of the
  processes and where they are.
- `Inv`: `At` for every entry, and one entry for each inode. Each step changes one entry. It gets or
  puts a reference (`At.refer`), takes an unused entry (`At.recycle`) or is a step of the owner of
  the sleep lock (`At.own`); the other entries keep `At` (`At.frame`).
-/

namespace Xv6.ITable

open Lib Function

/-- The entry to which the call of a process has a reference. -/
def Pc.ent {K : Type} : Pc K → Option Ent
  | .fresh e | .init e | .trunc e | .drop e => some e
  | _ => none

/-- The entry whose sleep lock the call of a process has. -/
def Pc.lock {K : Type} : Pc K → Option Ent
  | .init e | .trunc e => some e
  | _ => none

theorem Pc.ent_of_lock {K : Type} {pc : Pc K} {e : Ent} (h : pc.lock = some e) :
    pc.ent = some e := by
  cases pc <;> first | exact h | cases h

section Inv
variable {P K C : Type}

/-- The process `p` has `n` references to the entry `e`, which is `x`, and is at `y`. -/
structure Site (x : Inode P K C) (ch : Bool) (p : P) (n : Nat) (y : Pc K) (e : Ent) : Prop where
  locked : x.lock = some p → 0 < n ∧ x.valid = true
  ent : y.ent = some e → 0 < n
  lock : y.lock = some e → x.lock = some p
  trunc : y = .trunc e → x.mem.nlink = 0 ∧ ch = false
  drop : y = .drop e → x.lock ≠ some p

/-- A valid entry in use has the type of the disk inode, which is not free, and is equal to it but
for changes by the lock holder. -/
def Coherent (x : Inode P K C) (d : Dinode C) (ch : Bool) : Prop :=
  0 < x.ref → x.valid = true → x.mem.type = d.type ∧ d.type ≠ 0 ∧ (ch = false → x.mem = d)

variable {x x' : Inode P K C} {d d' : Dinode C} {ch ch' : Bool} {held : P → Nat} {pc pc' : P → Pc K}
  {e : Ent} {p q : P} {y : Pc K} {r n : Nat} {k : K}

/-- A process that has no lock in its call and is not before `ref--`. -/
theorem Site.calm (hl : x.lock = some p → 0 < n ∧ x.valid = true) (he : y.ent = some e → 0 < n)
    (hy : y.lock = none) (hd : y ≠ .drop e) : Site x ch p n y e := by
  refine ⟨hl, he, fun hp => ?_, fun hp => ?_, fun hp => absurd hp hd⟩
  · rw [hy] at hp
    cases hp
  · rw [hp] at hy
    cases hy

variable [Fintype P]

/-- The entry `e` is `x` and names the disk inode `d`. -/
structure At (x : Inode P K C) (d : Dinode C) (ch : Bool) (held : P → Nat) (pc : P → Pc K)
    (e : Ent) : Prop where
  count : x.ref = ∑ p, held p
  coherent : Coherent x d ch
  changed : ch = true → x.lock ≠ none
  site : ∀ p, Site x ch p (held p) (pc p) e

structure Inv (s : St P K C) : Prop where
  unique : ∀ e e', 0 < (s.table e).ref → 0 < (s.table e').ref →
    (s.table e).key = (s.table e').key → e = e'
  atEnt : ∀ e, At (s.table e) (s.disk (s.table e).key) (s.changed e) (s.held e) s.pc e

section
variable (h : At x d ch held pc e)
include h

theorem At.ref_pos (hp : 0 < held p) : 0 < x.ref := by
  rw [h.count]
  exact lt_of_lt_of_le hp (le_sum_parties id held p)

/-- The only reference. -/
theorem At.only (hr : x.ref = 1) (hp : 0 < held p) : held p = 1 ∧ ∀ q, q ≠ p → held q = 0 := by
  classical
  have hc := h.count
  rw [← Finset.add_sum_erase _ _ (Finset.mem_univ p)] at hc
  have hz : ∑ q ∈ Finset.univ.erase p, held q = 0 := by omega
  refine ⟨by omega, fun q hq => ?_⟩
  exact Finset.sum_eq_zero_iff.mp hz q (Finset.mem_erase.mpr ⟨hq, Finset.mem_univ q⟩)

theorem At.unused (hr : x.ref = 0) (p : P) : held p = 0 := by
  by_contra hp
  have := h.ref_pos (pos_of_ne_zero hp)
  omega

/-- A step of a process at another entry. -/
theorem At.frame (hd : 0 < x.ref → x.valid = true → d' = d)
    (hpc : ∀ p, (pc' p).ent = some e → pc' p = pc p) : At x d' ch held pc' e := by
  refine ⟨h.count, fun hr hv => ?_, h.changed, fun p => ?_⟩
  · rw [hd hr hv]
    exact h.coherent hr hv
  · have hs := h.site p
    refine ⟨hs.locked, fun hp => hs.ent (hpc p hp ▸ hp), fun hp => ?_, fun hp => ?_, fun hp => ?_⟩
    · exact hs.lock (hpc p (Pc.ent_of_lock hp) ▸ hp)
    · exact hs.trunc (hpc p (by rw [hp]; rfl) ▸ hp)
    · exact hs.drop (hpc p (by rw [hp]; rfl) ▸ hp)

end

variable [DecidableEq P]

section
variable (h : At x d ch held pc e)
include h

/-- A step of the process `q` at the entry. -/
theorem At.set (hr : x'.ref + held q = x.ref + n) (hc : Coherent x' d' ch')
    (hch : ch' = true → x'.lock ≠ none) (hq : Site x' ch' q n y e)
    (ho : ∀ p, p ≠ q → Site x ch p (held p) (pc p) e → Site x' ch' p (held p) (pc p) e) :
    At x' d' ch' (update held q n) (update pc q y) e := by
  refine ⟨?_, hc, hch, fun p => ?_⟩
  · have hs := sum_move id held q n
    simp only [id] at hs
    have := h.count
    omega
  · by_cases hp : p = q
    · rw [hp, update_self, update_self]
      exact hq
    · rw [update_of_ne hp, update_of_ne hp]
      exact ho p hp (h.site p)

/-- The process `q` gets a reference, or puts one. -/
theorem At.refer (hpos : 0 < x.ref) (hr : r + held q = x.ref + n)
    (hn : 0 < n ∨ x.lock ≠ some q ∧ y.ent ≠ some e) (hy : y = pc q ∨ y.lock = none ∧ y ≠ .drop e) :
    At { x with ref := r } d ch (update held q n) (update pc q y) e := by
  refine h.set hr (fun _ hv => h.coherent hpos hv) h.changed ?_
    fun p _ hs => ⟨hs.locked, hs.ent, hs.lock, hs.trunc, hs.drop⟩
  have hs := h.site q
  have hlocked : x.lock = some q → 0 < n ∧ x.valid = true := fun hl =>
    ⟨hn.resolve_right fun hno => hno.1 hl, (hs.locked hl).2⟩
  have hent : y.ent = some e → 0 < n := fun hp => hn.resolve_right fun hno => hno.2 hp
  rcases hy with rfl | ⟨hl, hd⟩
  · exact ⟨hlocked, hent, hs.lock, hs.trunc, hs.drop⟩
  · exact .calm hlocked hent hl hd

/-- `iget` takes an unused entry for another inode. -/
theorem At.recycle (hr : x.ref = 0) (hl : y.lock = none) (hd : y ≠ .drop e) :
    At { x with key := k, ref := 1, valid := false } d' ch
      (update held q (held q + 1)) (update pc q y) e := by
  have hz := h.unused hr
  have hfree : ∀ p, x.lock ≠ some p := fun p hp => by
    have := ((h.site p).locked hp).1
    have := hz p
    omega
  refine h.set (by show 1 + held q = _; omega) nofun h.changed ?_
    fun p _ hs => ?_
  · exact .calm (fun hp => absurd hp (hfree q)) (fun _ => Nat.succ_pos _) hl hd
  · exact ⟨fun hp => absurd hp (hfree p), hs.ent, hs.lock, hs.trunc, hs.drop⟩

/-- A step of a process with a reference that has the sleep lock, or takes it. -/
theorem At.own (hx : x.lock = none ∨ x.lock = some p) (hr : x'.ref = x.ref)
    (hl : x'.lock = none ∨ x'.lock = some p) (hc : Coherent x' d' ch')
    (hch : ch' = true → x'.lock ≠ none) (hs : Site x' ch' p (held p) y e) :
    At x' d' ch' held (update pc p y) e := by
  have hset := h.set (by rw [hr]) hc hch hs fun q hq hs => ?_
  · rwa [update_eq_self] at hset
  · have hne : ∀ {o : Option P}, o = none ∨ o = some p → o ≠ some q := by
      rintro o (rfl | rfl) h
      · cases h
      · exact hq (Option.some.inj h).symm
    refine ⟨fun hp => absurd hp (hne hl), hs.ent, fun hp => absurd (hs.lock hp) (hne hx),
      fun hp => absurd (hs.lock (by rw [hp]; rfl)) (hne hx), fun _ => hne hl⟩

end

variable {s s' : St P K C} {f : P → Nat}

omit [DecidableEq P] in
theorem Inv.key_ne (h : Inv s) (hpos : 0 < (s.table e).ref) {e' : Ent} (he : e' ≠ e)
    (hr : 0 < (s.table e').ref) : (s.table e').key ≠ (s.table e).key :=
  fun hk => he (h.unique e' e hr hpos hk)

omit [DecidableEq P] in
theorem Inv.owned (h : Inv s) (hl : (s.table e).lock = some p) :
    0 < s.held e p ∧ (s.table e).valid = true ∧
      (s.table e).mem.type = (s.disk (s.table e).key).type ∧
      (s.disk (s.table e).key).type ≠ 0 := by
  have hat := h.atEnt e
  obtain ⟨hheld, hv⟩ := (hat.site p).locked hl
  obtain ⟨ht, hne, -⟩ := hat.coherent (hat.ref_pos hheld) hv
  exact ⟨hheld, hv, ht, hne⟩

/-- A step of the process `q` at the entry `e`. -/
theorem Inv.set (h : Inv s) (ht : s'.table = update s.table e x)
    (hh : s'.held = update s.held e f) (hc : s'.changed = update s.changed e ch)
    (hpc : s'.pc = update s.pc q y) (hy : y = s.pc q ∨ ∀ e', y.ent = some e' → e' = e)
    (hd : ∀ e', e' ≠ e → 0 < (s.table e').ref →
      s'.disk (s.table e').key = s.disk (s.table e').key)
    (hk : ∀ e', e' ≠ e → 0 < (s.table e').ref → (s.table e').key ≠ x.key)
    (ha : At x (s'.disk x.key) ch f (update s.pc q y) e) : Inv s' := by
  have htab : ∀ e', e' ≠ e → s'.table e' = s.table e' := fun e' he => by
    rw [ht, update_of_ne he]
  have hself : s'.table e = x := by rw [ht, update_self]
  refine ⟨fun e1 e2 h1 h2 hkey => ?_, fun e' => ?_⟩
  · rw [ht] at h1 h2 hkey
    exact eq_of_update (P := fun y : Inode P K C => 0 < y.ref ∧ y.key = (update s.table e x e2).key)
      (fun i i' hi hi' => h.unique i i' hi.1 hi'.1 (hi.2.trans hi'.2.symm))
      (fun hx i hi hi' => hk i hi hi'.1 (hi'.2.trans hx.2.symm)) ⟨h1, hkey⟩ ⟨h2, rfl⟩
  · rw [hh, hc, hpc]
    by_cases he : e' = e
    · rw [he, hself, update_self, update_self]
      exact ha
    · rw [htab e' he, update_of_ne he, update_of_ne he]
      refine (h.atEnt e').frame (fun hr _ => hd e' he hr) fun p hp => ?_
      by_cases hq : p = q
      · rw [hq, update_self] at hp ⊢
        exact hy.resolve_right fun hy => he (hy e' hp)
      · rw [update_of_ne hq]

/-- A step that changes neither the disk nor the name of the entry. -/
theorem Inv.touch (h : Inv s) (hpos : 0 < (s.table e).ref) (hx : x.key = (s.table e).key)
    (hy : y = s.pc q ∨ ∀ e', y.ent = some e' → e' = e)
    (ha : At x (s.disk (s.table e).key) (s.changed e) (update (s.held e) q n)
      (update s.pc q y) e) : Inv (s.touch q y e x n) := by
  refine h.set rfl rfl (update_eq_self e s.changed).symm rfl hy (fun _ _ _ => rfl) ?_ ?_
  · rw [hx]
    exact fun e' he hr => h.key_ne hpos he hr
  · rw [hx]
    exact ha

variable [DecidableEq K]

/-- A step of the owner of the sleep lock. -/
theorem Inv.own (h : Inv s) (hpos : 0 < (s.table e).ref)
    (hl : (s.table e).lock = none ∨ (s.table e).lock = some p)
    (ht : s'.table = update s.table e x) (hh : s'.held = s.held)
    (hc : s'.changed = update s.changed e ch)
    (hd : s'.disk = update s.disk (s.table e).key d)
    (hpc : s'.pc = update s.pc p y) (hy : ∀ e', y.ent = some e' → e' = e)
    (hx : x.key = (s.table e).key) (hr : x.ref = (s.table e).ref)
    (hxl : x.lock = none ∨ x.lock = some p) (hco : Coherent x d ch)
    (hch : ch = true → x.lock ≠ none) (hs : Site x ch p (s.held e p) y e) : Inv s' := by
  have hne : ∀ e', e' ≠ e → 0 < (s.table e').ref → (s.table e').key ≠ (s.table e).key :=
    fun e' he hr' => h.key_ne hpos he hr'
  refine h.set ht (f := s.held e) ?_ hc hpc (.inr hy) (fun e' he hr' => ?_) ?_ ?_
  · rw [hh, update_eq_self]
  · rw [hd, update_of_ne (hne e' he hr')]
  · rw [hx]
    exact hne
  · rw [hd, hx, update_self]
    exact (h.atEnt e).own hl hr hxl hco hch hs

/-- A step of the owner of the sleep lock that changes neither the disk nor the marks. -/
theorem Inv.ownTouch (h : Inv s) (hpos : 0 < (s.table e).ref)
    (hl : (s.table e).lock = none ∨ (s.table e).lock = some p) (hy : ∀ e', y.ent = some e' → e' = e)
    (hx : x.key = (s.table e).key) (hr : x.ref = (s.table e).ref)
    (hxl : x.lock = none ∨ x.lock = some p)
    (hco : Coherent x (s.disk (s.table e).key) (s.changed e))
    (hch : s.changed e = true → x.lock ≠ none) (hs : Site x (s.changed e) p (s.held e p) y e) :
    Inv (s.touch p y e x (s.held e p)) := by
  refine h.own hpos hl rfl ?_ (update_eq_self e s.changed).symm
    (update_eq_self _ s.disk).symm rfl hy hx hr hxl hco hch hs
  show update s.held e (update (s.held e) p (s.held e p)) = s.held
  rw [update_eq_self, update_eq_self]

variable [Inhabited C] {a : Act P K C}

omit [Fintype P] [DecidableEq P] [DecidableEq K] [Inhabited C] in
theorem Gets.after {g : Ent → Pc K} (hg : Gets s p a k g) (e : Ent) :
    (g e).lock = none ∧ g e ≠ .drop e ∧ ∀ e', (g e).ent = some e' → e' = e := by
  cases hg with
  | path _ => exact ⟨rfl, (fun h => by cases h), (fun e' h => by cases h)⟩
  | alloc _ => exact ⟨rfl, (fun h => by cases h), fun e' h => (Option.some.inj h).symm⟩

omit [Inhabited C] in
theorem Inv.ilock (h : Inv s) (hl : Locks s p e a y) (hfree : (s.table e).lock = none)
    (hd : (s.table e).valid = true ∧ d = (s.table e).mem ∨
      d = s.disk (s.table e).key ∧ d.type ≠ 0 ∧ (s.table e).valid = false) :
    Inv (s.touch p y e { s.table e with lock := some p, valid := true, mem := d }
      (s.held e p)) := by
  have hat := h.atEnt e
  have hheld : 0 < s.held e p := by
    cases hl with
    | use _ hh => exact hh
    | create hpc => exact (hat.site p).ent (by rw [hpc]; rfl)
  refine h.ownTouch (hat.ref_pos hheld) (.inl hfree) ?_ rfl rfl (.inr rfl) ?_
    (fun _ h => by cases h) ?_
  · cases hl with
    | use _ _ => exact fun e' h => by cases h
    | create _ => exact fun e' h => (Option.some.inj h).symm
  · intro hr _
    rcases hd with ⟨hv, rfl⟩ | ⟨rfl, ht, -⟩
    · exact hat.coherent hr hv
    · exact ⟨rfl, ht, fun _ => rfl⟩
  · cases hl with
    | use _ _ => exact .calm (fun _ => ⟨hheld, rfl⟩) (fun h => by cases h) rfl fun h => by cases h
    | create _ =>
      exact ⟨fun _ => ⟨hheld, rfl⟩, fun _ => hheld, fun _ => rfl, (fun h => by cases h),
        (fun h => by cases h)⟩

omit [Inhabited C] in
/-- The lock holder changes the copy, or writes it to the disk. -/
theorem Inv.modify (h : Inv s) (hl : (s.table e).lock = some p)
    (ht : s'.table = update s.table e { s.table e with mem := d' }) (hh : s'.held = s.held)
    (hc : s'.changed = update s.changed e ch)
    (hd : s'.disk = update s.disk (s.table e).key d)
    (hpc : s'.pc = update s.pc p .idle)
    (htype : d'.type = (s.table e).mem.type)
    (hdisk : d = s.disk (s.table e).key ∧ ch = true ∨ d = d') : Inv s' := by
  have hat := h.atEnt e
  obtain ⟨hheld, hv⟩ := (hat.site p).locked hl
  have hpos := hat.ref_pos hheld
  refine h.own hpos (.inr hl) ht hh hc hd hpc (fun e' h => by cases h) rfl rfl (.inr hl) ?_ ?_
    (.calm (fun _ => ⟨hheld, hv⟩) (fun h => by cases h) rfl fun h => by cases h)
  · intro _ _
    obtain ⟨hdt, hne, -⟩ := hat.coherent hpos hv
    rcases hdisk with ⟨rfl, rfl⟩ | rfl
    · exact ⟨htype.trans hdt, hne, fun h => by cases h⟩
    · exact ⟨rfl, by rw [htype, hdt]; exact hne, fun _ => rfl⟩
  · intro _ h
    rw [hl] at h
    cases h

omit [DecidableEq K] [Inhabited C] in
theorem Inv.unref (h : Inv s) (hheld : 0 < s.held e p) (hl : (s.table e).lock ≠ some p) :
    Inv (unref s p e) := by
  have hpos := (h.atEnt e).ref_pos hheld
  refine h.touch hpos rfl (.inr fun e' h => by cases h) ?_
  exact (h.atEnt e).refer hpos (by omega) (.inr ⟨hl, (fun h => by cases h)⟩)
    (.inr ⟨rfl, (fun h => by cases h)⟩)

theorem Inv.truncate (h : Inv s) (hpc : s.pc p = .trunc e) : Inv (truncate s p e) := by
  have hat := h.atEnt e
  have hheld := (hat.site p).ent (by rw [hpc]; rfl)
  have hl := (hat.site p).lock (by rw [hpc]; rfl)
  refine h.own (hat.ref_pos hheld) (.inr hl) rfl ?_ (update_eq_self e s.changed).symm rfl
    rfl (fun e' h => (Option.some.inj h).symm) rfl rfl (.inl rfl) nofun ?_ ?_
  · show update s.held e (update (s.held e) p (s.held e p)) = s.held
    rw [update_eq_self, update_eq_self]
  · rw [((hat.site p).trunc hpc).2]
    exact nofun
  · exact ⟨nofun, fun _ => hheld, nofun, nofun,
      nofun⟩

theorem Inv.ialloc (h : Inv s) (hfree : (s.disk k).type = 0) (type : Nat) :
    Inv (ialloc s p k type) := by
  refine ⟨h.unique, fun e => (h.atEnt e).frame (fun hr hv => ?_) fun q hq => ?_⟩
  · obtain ⟨-, hne, -⟩ := (h.atEnt e).coherent hr hv
    exact update_of_ne (fun hk => hne (by rw [show (s.table e).key = k from hk, hfree])) ..
  · by_cases hp : q = p
    · rw [hp] at hq
      simp only [ITable.ialloc, update_self] at hq
      cases hq
    · exact update_of_ne hp ..

theorem Inv.did (h : Inv s) (hd : Did s p a s') : Inv s' := by
  cases hd with
  | @hit _ _ g e hg hr hk =>
    obtain ⟨hlock, hdrop, hent⟩ := hg.after e
    refine h.touch hr rfl (.inr hent) ?_
    exact (h.atEnt e).refer hr (by omega) (.inl (Nat.succ_pos _)) (.inr ⟨hlock, hdrop⟩)
  | @recycle _ k g e hg hr hk =>
    obtain ⟨hlock, hdrop, hent⟩ := hg.after e
    refine h.set rfl rfl (update_eq_self e s.changed).symm rfl (.inr hent)
      (fun _ _ _ => rfl) (fun e' _ hr' => hk e' hr') ?_
    exact (h.atEnt e).recycle hr hlock hdrop
  | @idup q e hpc hheld =>
    have hpos := (h.atEnt e).ref_pos hheld
    refine h.touch hpos rfl (.inl rfl) ?_
    exact (h.atEnt e).refer hpos (by omega) (.inl (Nat.succ_pos _)) (.inl rfl)
  | ilock hl hfree hd => exact h.ilock hl hfree hd
  | @change _ e d hpc hl ht =>
    exact h.modify hl rfl rfl rfl (update_eq_self _ s.disk).symm
      (by rw [← hpc, update_eq_self]; rfl) ht (.inl ⟨rfl, rfl⟩)
  | @iupdate e hpc hl =>
    exact h.modify hl (update_eq_self e s.table).symm rfl rfl rfl
      (by rw [← hpc, update_eq_self]; rfl) rfl (.inr rfl)
  | @iunlock e hpc hl hc =>
    have hat := h.atEnt e
    obtain ⟨hheld, hv⟩ := (hat.site p).locked hl
    refine h.ownTouch (hat.ref_pos hheld) (.inr hl) (fun e' h => by cases h) rfl rfl (.inl rfl)
      hat.coherent ?_ (.calm nofun nofun rfl nofun)
    rw [hc]
    exact nofun
  | @check e hpc hheld hfree hr hv hn =>
    have hat := h.atEnt e
    have hc : s.changed e = false := Bool.eq_false_iff.mpr fun hc => hat.changed hc hfree
    exact h.ownTouch (hat.ref_pos hheld) (.inl hfree) (fun e' h => (Option.some.inj h).symm) rfl
      rfl (.inr rfl) hat.coherent nofun
      ⟨fun _ => ⟨hheld, hv⟩, fun _ => hheld, fun _ => rfl, fun _ => ⟨hn, hc⟩, nofun⟩
  | unref hpc hheld hl _ => exact h.unref hheld hl
  | @drop e hpc =>
    have hs := (h.atEnt e).site p
    exact h.unref (hs.ent (by rw [hpc]; rfl)) (hs.drop hpc)
  | truncate hpc => exact h.truncate hpc
  | ialloc _ hfree _ => exact h.ialloc hfree _
  | @initialise e hpc =>
    have hl := ((h.atEnt e).site p).lock (by rw [hpc]; rfl)
    have hc : (initialise s p e).changed = update s.changed e false :=
      update_idem ..
    exact h.modify hl rfl rfl hc (initialise_disk s p e) rfl rfl (.inr rfl)

end Inv

end Xv6.ITable
