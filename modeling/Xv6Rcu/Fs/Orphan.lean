import Xv6Rcu.Fs.ITableFree

/-!
# Orphaned inodes

`iput` tests once whether it drops the last reference to an unlinked inode. It then frees the inode
without `itable.lock`, and drops the reference without a second test.

- `orphan_of_reuse`: while the reference is still counted, `ialloc` can give the number to another
  file. If that file is unlinked and closed before the last `ref--`, no process frees it.
- `Traced`: if `ialloc` takes no number that the table refers to, an inode without links is known to
  a process that will free it or give it a link.
-/

namespace Xv6.ITable

open Lib Function

section Gets
variable {P K C : Type} {s : St P K C} {p : P} {k : K} {e : Ent}
  {a : Act P K C} {g : Ent → Pc K} {r : P}

theorem Gets.before (hg : Gets s p a k g) : s.pc p = .idle ∨ s.pc p = .marked k := by
  cases hg with
  | path hpc => exact .inl hpc
  | alloc hpc => exact .inr hpc

theorem Gets.marked [DecidableEq P] (hg : Gets s p a k g) (e : Ent) (hr : s.pc r = .marked k) :
    (∃ r, update s.pc p (g e) r = .marked k) ∨
      ∃ r, update s.pc p (g e) r = .fresh e := by
  by_cases hrp : r = p
  · cases hg with
    | path hpc =>
      rw [hrp, hpc] at hr
      cases hr
    | alloc _ => exact .inr ⟨p, update_self ..⟩
  · exact .inl ⟨r, by rw [update_of_ne hrp, hr]⟩

theorem Gets.fresh [DecidableEq P] (hg : Gets s p a k g) (hr : s.pc r = .fresh e) :
    update s.pc p (g e) r = .fresh e := by
  rw [update_of_ne, hr]
  rintro rfl
  rcases hg.before with hpc | hpc <;> rw [hpc] at hr <;> cases hr

end Gets

section Traced
variable {P K C : Type}

/-- The inode is free and has no blocks, or has a link. -/
def Settled [Inhabited C] (d : Dinode C) : Prop :=
  (d.type = 0 → d.content = default) ∧ (d.type ≠ 0 → 0 < d.nlink)

structure Traced [Inhabited C] (s : St P K C) : Prop where
  drop : ∀ p e, s.pc p = .drop e → (s.disk (s.table e).key).type = 0
  empty : ∀ k, (s.disk k).type = 0 → (s.disk k).content = default
  traced : ∀ k, (s.disk k).type ≠ 0 → (s.disk k).nlink = 0 → (∃ p, s.pc p = .marked k) ∨
    ∃ e, (s.table e).key = k ∧ 0 < (s.table e).ref ∧
      ((s.table e).valid = true ∨ ∃ p, s.pc p = .fresh e)

/-- The number that `ialloc` takes. -/
def Act.allocates : Act P K C → Option K
  | .ialloc k _ => some k
  | _ => none

/-- `ialloc` takes no number that the table refers to. -/
def Unreferred (s : St P K C) (l : Lbl P K C) : Prop :=
  ∀ e, 0 < (s.table e).ref → l.act.allocates ≠ some (s.table e).key

instance [DecidableEq K] (s : St P K C) (l : Lbl P K C) : Decidable (Unreferred s l) :=
  inferInstanceAs (Decidable (∀ e, 0 < (s.table e).ref → l.act.allocates ≠ some (s.table e).key))

variable [Inhabited C] {s s' : St P K C} {p q : P} {e : Ent} {k : K} {x : Inode P K C} {y : Pc K}
  {d : Dinode C} {a : Act P K C} {g : Ent → Pc K}

variable [Fintype P] [DecidableEq P] [DecidableEq K]

section
variable (hi : Inv s) (h : Traced s)
include hi h

/-- A step of the process `q` at the entry `e`. -/
theorem Traced.set (ht : s'.table = update s.table e x) (hpc : s'.pc = update s.pc q y)
    (hd : s'.disk = update s.disk x.key d) (hold : 0 < (s.table e).ref → (s.table e).key = x.key)
    (hk : ∀ e', e' ≠ e → 0 < (s.table e').ref → (s.table e').key ≠ x.key)
    (hy : y = s.pc q ∨ (∀ k, s.pc q = .marked k → k = x.key) ∧ (∀ e', s.pc q = .fresh e' → e' = e) ∧
      ∀ e', y = .drop e' → e' = e) (hdrop : ∀ r, s'.pc r = .drop e → d.type = 0)
    (hempty : d.type = 0 → d.content = default)
    (htraced : d.type ≠ 0 → d.nlink = 0 → (∃ r, s'.pc r = .marked x.key) ∨
      0 < x.ref ∧ (x.valid = true ∨ ∃ r, s'.pc r = .fresh e)) : Traced s' := by
  have htab : ∀ e', e' ≠ e → s'.table e' = s.table e' := fun e' he => by
    rw [ht, update_of_ne he]
  have hself : s'.table e = x := by rw [ht, update_self]
  have hother : ∀ r, r ≠ q → s'.pc r = s.pc r := fun r hr => by rw [hpc, update_of_ne hr]
  have hq : s'.pc q = y := by rw [hpc, update_self]
  have hdisk : ∀ k, k ≠ x.key → s'.disk k = s.disk k := fun k hk => by
    rw [hd, update_of_ne hk]
  have hdself : s'.disk x.key = d := by rw [hd, update_self]
  refine ⟨fun r e' hr => ?_, fun k hz => ?_, fun k hne hz => ?_⟩
  · by_cases he : e' = e
    · rw [he, hself, hdself]
      exact hdrop r (he ▸ hr)
    · have hr' : s.pc r = .drop e' := by
        by_cases hrq : r = q
        · rw [hrq, hq] at hr
          rcases hy with hy | ⟨-, -, hy⟩
          · rw [hrq, ← hy, hr]
          · exact absurd (hy e' hr) he
        · rwa [hother r hrq] at hr
      have hpos := (hi.atEnt e').ref_pos (((hi.atEnt e').site r).ent (by rw [hr']; rfl))
      rw [htab e' he, hdisk _ (hk e' he hpos)]
      exact h.drop r e' hr'
  · by_cases hkx : k = x.key
    · rw [hkx, hdself] at hz ⊢
      exact hempty hz
    · rw [hdisk k hkx] at hz ⊢
      exact h.empty k hz
  · by_cases hkx : k = x.key
    · subst hkx
      rw [hdself] at hne hz
      exact (htraced hne hz).imp_right fun hx => ⟨e, by rw [hself], by rwa [hself]⟩
    · rw [hdisk k hkx] at hne hz
      rcases h.traced k hne hz with ⟨r, hr⟩ | ⟨e', rfl, hpos, hv⟩
      · refine .inl ⟨r, ?_⟩
        by_cases hrq : r = q
        · rcases hy with hy | ⟨hy, -⟩
          · rw [hrq, hq, hy, ← hrq, hr]
          · exact absurd (hy k (hrq ▸ hr)) hkx
        · rw [hother r hrq, hr]
      · have he : e' ≠ e := fun he => hkx (by rw [he] at hpos ⊢; exact hold hpos)
        refine .inr ⟨e', by rw [htab e' he], by rwa [htab e' he], ?_⟩
        rw [htab e' he]
        refine hv.imp_right ?_
        rintro ⟨r, hr⟩
        refine ⟨r, ?_⟩
        by_cases hrq : r = q
        · rcases hy with hy | ⟨-, hy, -⟩
          · rw [hrq, hq, hy, ← hrq, hr]
          · exact absurd (hy e' (hrq ▸ hr)) he
        · rw [hother r hrq, hr]

/-- A step of the owner of the sleep lock. -/
theorem Traced.own (hheld : 0 < s.held e p)
    (hp : s.pc p = .idle ∨ s.pc p = .fresh e ∨ s.pc p = .init e)
    (ht : s'.table = update s.table e x) (hpc : s'.pc = update s.pc p y)
    (hd : s'.disk = update s.disk (s.table e).key d) (hx : x.key = (s.table e).key)
    (hr : x.ref = (s.table e).ref) (hv : x.valid = true) (hy : ∀ e', y ≠ .drop e')
    (htype : (s.disk (s.table e).key).type ≠ 0) (hdt : d.type ≠ 0) : Traced s' := by
  have hpos := (hi.atEnt e).ref_pos hheld
  refine h.set hi ht hpc (by rw [hx, hd]) (fun _ => hx.symm) ?_
    (.inr ⟨fun k hk => ?_, fun e' he => ?_, fun e' h => absurd h (hy e')⟩) (fun r hr => ?_)
    (fun h => absurd h hdt) fun _ _ => .inr ⟨hr ▸ hpos, .inl hv⟩
  · rw [hx]
    exact fun e' he hr => hi.key_ne hpos he hr
  · rcases hp with hp | hp | hp <;> rw [hp] at hk <;> cases hk
  · rcases hp with hp | hp | hp <;> rw [hp] at he <;> cases he
    rfl
  · by_cases hrp : r = p
    · rw [hpc, hrp, update_self] at hr
      exact absurd hr (hy e)
    · rw [hpc, update_of_ne hrp] at hr
      exact absurd (h.drop r e hr) htype

/-- A step that only changes references. -/
theorem Traced.refer (hpos : 0 < (s.table e).ref) (hy : y = s.pc q ∨
      (s.pc q = .idle ∨ s.pc q = .marked (s.table e).key ∨ s.pc q = .drop e) ∧ ∀ e', y ≠ .drop e')
    {r n : Nat} (htraced : (s.disk (s.table e).key).type ≠ 0 → (s.disk (s.table e).key).nlink = 0 →
      (∃ r, update s.pc q y r = .marked (s.table e).key) ∨
        0 < r ∧ ((s.table e).valid = true ∨ ∃ r, update s.pc q y r = .fresh e)) :
    Traced (s.touch q y e { s.table e with ref := r } n) := by
  refine h.set hi rfl rfl (update_eq_self _ s.disk).symm (fun _ => rfl)
    (fun e' he hr => hi.key_ne hpos he hr) ?_ (fun r hr => ?_) (h.empty _) htraced
  · refine hy.imp_right fun ⟨hq, hy⟩ =>
      ⟨fun k hk => ?_, fun e' he => ?_, fun e' h => absurd h (hy e')⟩
    · rcases hq with hq | hq | hq <;> rw [hq] at hk <;> cases hk
      rfl
    · rcases hq with hq | hq | hq <;> rw [hq] at he <;> cases he
  · refine h.drop r e ?_
    by_cases hrq : r = q
    · have hself : update s.pc q y r = y := by rw [hrq, update_self]
      rcases hy with hy | ⟨-, hy⟩
      · rw [hrq, ← hy, ← hself, ← hr]
        rfl
      · exact absurd (hself.symm.trans hr) (hy e)
    · exact (update_of_ne hrq ..).symm.trans hr

theorem Traced.hit (hg : Gets s p a (s.table e).key g) (hpos : 0 < (s.table e).ref) (n : Nat) :
    Traced (s.touch p (g e) e { s.table e with ref := (s.table e).ref + 1 } n) := by
  refine h.refer hi hpos (.inr ⟨?_, (Pc.user_ne (hg.user e).1).2.2⟩) fun hne hz => ?_
  · exact hg.before.imp_right .inl
  · rcases h.traced _ hne hz with ⟨r, hr⟩ | ⟨e', hk, hpos', hv⟩
    · exact (hg.marked e hr).imp_right fun hf => ⟨Nat.succ_pos _, .inr hf⟩
    · obtain rfl := hi.unique e' e hpos' hpos hk
      refine .inr ⟨Nat.succ_pos _, hv.imp_right ?_⟩
      rintro ⟨r, hr⟩
      exact ⟨r, hg.fresh hr⟩

theorem Traced.recycle (hg : Gets s p a k g) (hr : (s.table e).ref = 0)
    (hk : ∀ e', 0 < (s.table e').ref → (s.table e').key ≠ k) (n : Nat) :
    Traced (s.touch p (g e) e { s.table e with key := k, ref := 1, valid := false } n) := by
  refine h.set hi rfl rfl (update_eq_self k s.disk).symm (fun h => absurd h (by omega))
    (fun e' _ => hk e') (.inr ⟨fun k' hk' => ?_, fun e' he => ?_, fun e' h => ?_⟩) (fun r hr' => ?_)
    (h.empty k) fun hne hz => ?_
  · rcases hg.before with hpc | hpc <;> rw [hpc] at hk' <;> cases hk'
    rfl
  · rcases hg.before with hpc | hpc <;> rw [hpc] at he <;> cases he
  · exact absurd h ((Pc.user_ne (hg.user e).1).2.2 e')
  · -- Nobody is in a call at an unused entry.
    by_cases hrp : r = p
    · have hself : update s.pc p (g e) r = g e := by rw [hrp, update_self]
      exact absurd (hself.symm.trans hr') ((Pc.user_ne (hg.user e).1).2.2 e)
    · have hdrop : s.pc r = .drop e := (update_of_ne hrp ..).symm.trans hr'
      have := ((hi.atEnt e).site r).ent (by rw [hdrop]; rfl)
      have := (hi.atEnt e).unused hr r
      omega
  · rcases h.traced k hne hz with ⟨r, hr⟩ | ⟨e', hk', hpos', -⟩
    · exact (hg.marked e hr).imp_right fun hf => ⟨one_pos, .inr hf⟩
    · exact absurd hk' (hk e' hpos')

/-- The last reference is not dropped without the test. -/
theorem Traced.unref (hpc : s.pc p = .idle) (hheld : 0 < s.held e p)
    (hl : (s.table e).lock ≠ some p)
    (hc : ¬ ((s.table e).ref = 1 ∧ (s.table e).valid = true ∧ (s.table e).mem.nlink = 0)) :
    Traced (unref s p e) := by
  have hat := hi.atEnt e
  have hpos := hat.ref_pos hheld
  have hkeep : ∀ {r y}, s.pc r = y → y ≠ .idle → update s.pc p .idle r = y := by
    intro r y hr hy
    rw [update_of_ne, hr]
    rintro rfl
    exact hy (hr ▸ hpc)
  refine h.refer hi hpos (.inr ⟨.inl hpc, fun _ h => by cases h⟩) fun hne hz => ?_
  rcases h.traced _ hne hz with ⟨r, hr⟩ | ⟨e', hk, hpos', hv⟩
  · exact .inl ⟨r, hkeep hr nofun⟩
  · obtain rfl := hi.unique e' e hpos' hpos hk
    have hlast : (s.table e').ref ≠ 1 := by
      intro h1
      obtain ⟨-, hnone⟩ := hat.only h1 hheld
      have honly : ∀ {r}, 0 < s.held e' r → r = p := fun {r} hr => by
        by_contra hne
        rw [hnone r hne] at hr
        cases hr
      rcases hv with hv | ⟨r, hr⟩
      · have hch : s.changed e' = true := by
          by_contra hch
          have := (hat.coherent hpos hv).2.2 (Bool.eq_false_iff.mpr hch)
          exact hc ⟨h1, hv, by rw [this, hz]⟩
        obtain ⟨r, hr⟩ := Option.ne_none_iff_exists'.mp (hat.changed hch)
        exact hl (by rw [hr, honly ((hat.site r).locked hr).1])
      · have := honly ((hat.site r).ent (by rw [hr]; rfl))
        rw [this, hpc] at hr
        cases hr
    refine .inr ⟨by omega, hv.imp_right ?_⟩
    rintro ⟨r, hr⟩
    exact ⟨r, hkeep hr nofun⟩

theorem Traced.drop_last (hpc : s.pc p = .drop e) : Traced (ITable.unref s p e) := by
  have hpos := (hi.atEnt e).ref_pos (((hi.atEnt e).site p).ent (by rw [hpc]; rfl))
  exact h.refer hi hpos (.inr ⟨.inr (.inr hpc), fun _ h => by cases h⟩)
    fun hne _ => absurd (h.drop p e hpc) hne

theorem Traced.truncate (hpc : s.pc p = .trunc e) : Traced (truncate s p e) := by
  have hpos := (hi.atEnt e).ref_pos (((hi.atEnt e).site p).ent (by rw [hpc]; rfl))
  refine h.set hi rfl rfl rfl (fun _ => rfl) (fun e' he hr => hi.key_ne hpos he hr)
    (.inr ⟨fun k hk => ?_, fun e' he => ?_, fun e' h => (Pc.drop.inj h).symm⟩) (fun _ _ => rfl)
    (fun _ => rfl) fun hne _ => absurd rfl hne
  · rw [hpc] at hk
    cases hk
  · rw [hpc] at he
    cases he

theorem Traced.ialloc (hpc : s.pc p = .idle) {type : Nat} (htype : type ≠ 0)
    (hu : ∀ e, 0 < (s.table e).ref → (s.table e).key ≠ k) : Traced (ialloc s p k type) := by
  have hdisk : ∀ k', k' ≠ k → (ITable.ialloc s p k type).disk k' = s.disk k' :=
    fun k' hk => update_of_ne hk ..
  have hself : (ITable.ialloc s p k type).disk k = ⟨type, 0, default⟩ := update_self ..
  have hkeep : ∀ {r y}, s.pc r = y → y ≠ .idle → (ITable.ialloc s p k type).pc r = y := by
    intro r y hr hy
    refine (update_of_ne ?_ ..).trans hr
    rintro rfl
    exact hy (hr ▸ hpc)
  refine ⟨fun r e hr => ?_, fun k' hz => ?_, fun k' hne hz => ?_⟩
  · by_cases hrp : r = p
    · have hm : (ITable.ialloc s p k type).pc r = .marked k := by
        rw [hrp]
        exact update_self ..
      rw [hr] at hm
      cases hm
    · have hdrop : s.pc r = .drop e := (update_of_ne hrp ..).symm.trans hr
      have hpos := (hi.atEnt e).ref_pos (((hi.atEnt e).site r).ent (by rw [hdrop]; rfl))
      exact (congrArg Dinode.type (hdisk _ (hu e hpos))).trans (h.drop r e hdrop)
  · by_cases hk : k' = k
    · rw [hk, hself] at hz
      exact absurd hz htype
    · rw [hdisk k' hk] at hz ⊢
      exact h.empty k' hz
  · by_cases hk : k' = k
    · exact .inl ⟨p, hk ▸ update_self ..⟩
    · rw [hdisk k' hk] at hne hz
      rcases h.traced k' hne hz with ⟨r, hr⟩ | ⟨e, he, hpos, hv⟩
      · exact .inl ⟨r, hkeep hr nofun⟩
      · refine .inr ⟨e, he, hpos, hv.imp_right ?_⟩
        rintro ⟨r, hr⟩
        exact ⟨r, hkeep hr nofun⟩

theorem Traced.did (hu : Unreferred s ⟨p, a⟩) (hd : Did s p a s') : Traced s' := by
  cases hd with
  | hit hg hr hk =>
    subst hk
    exact h.hit hi hg hr _
  | recycle hg hr hk => exact h.recycle hi hg hr hk _
  | @idup q e hpc hheld =>
    have hpos := (hi.atEnt e).ref_pos hheld
    refine h.refer hi hpos (.inl rfl) fun hne hz => ?_
    simp only [update_eq_self]
    refine (h.traced _ hne hz).imp_right ?_
    rintro ⟨e', hk, hpos', hv⟩
    obtain rfl := hi.unique e' e hpos' hpos hk
    exact ⟨Nat.succ_pos _, hv⟩
  | @ilock _ e y d hl hfree hd =>
    have htype : 0 < s.held e p → (s.disk (s.table e).key).type ≠ 0 := by
      intro hheld
      rcases hd with ⟨hv, -⟩ | ⟨rfl, hne, -⟩
      · exact ((hi.atEnt e).coherent ((hi.atEnt e).ref_pos hheld) hv).2.1
      · exact hne
    have hsame := (update_eq_self (s.table e).key s.disk).symm
    cases hl with
    | use hpc hheld =>
      exact h.own hi hheld (.inl hpc) rfl rfl hsame rfl rfl rfl nofun
        (htype hheld) (htype hheld)
    | create hpc =>
      have hheld := ((hi.atEnt e).site p).ent (by rw [hpc]; rfl)
      exact h.own hi hheld (.inr (.inl hpc)) rfl rfl hsame rfl rfl rfl nofun
        (htype hheld) (htype hheld)
  | @change _ e d hpc hl ht =>
    obtain ⟨hheld, hv, -, hne⟩ := hi.owned hl
    exact h.own hi hheld (.inl hpc) rfl (update_eq_self p s.pc).symm
      (update_eq_self _ s.disk).symm rfl rfl hv (by rw [hpc]; exact nofun)
      hne hne
  | @iupdate e hpc hl =>
    obtain ⟨hheld, hv, ht, hne⟩ := hi.owned hl
    exact h.own hi hheld (.inl hpc) (update_eq_self e s.table).symm
      (update_eq_self p s.pc).symm rfl rfl rfl hv
      (by rw [hpc]; exact nofun) hne (by rw [ht]; exact hne)
  | @iunlock e hpc hl hc =>
    obtain ⟨hheld, hv, -, hne⟩ := hi.owned hl
    exact h.own hi hheld (.inl hpc) rfl rfl (update_eq_self _ s.disk).symm rfl rfl hv
      nofun hne hne
  | @check e hpc hheld hfree hr hv hn =>
    have hne := ((hi.atEnt e).coherent ((hi.atEnt e).ref_pos hheld) hv).2.1
    exact h.own hi hheld (.inl hpc) rfl rfl (update_eq_self _ s.disk).symm rfl rfl hv
      nofun hne hne
  | unref hpc hheld hl hc => exact h.unref hi hpc hheld hl hc
  | drop hpc => exact h.drop_last hi hpc
  | truncate hpc => exact h.truncate hi hpc
  | ialloc hpc _ htype =>
    exact h.ialloc hi hpc htype fun e hpos hk => hu e hpos (by rw [hk]; rfl)
  | @initialise e hpc =>
    obtain ⟨hheld, hv, ht, hne⟩ := hi.owned (((hi.atEnt e).site p).lock (by rw [hpc]; rfl))
    exact h.own hi hheld (.inr (.inr hpc)) rfl rfl (initialise_disk s p e) rfl rfl hv
      nofun hne (by rw [ht]; exact hne)

end

/-- **No orphaned inode**, in the runs in which `ialloc` takes no number that the table refers to:
an inode without a reference, and not between the mark of `ialloc` and its `iget`, is free and has
no blocks, or has a link. -/
theorem no_orphan {k₀ : K} {disk : K → Dinode C} {ls : List (Lbl P K C)}
    (hdisk : ∀ k, Settled (disk k)) (hm : machine.Meets Unreferred (boot k₀ disk) ls)
    (hr : machine.run (boot k₀ disk) ls = some s) (k : K)
    (href : ∀ e, (s.table e).key = k → (s.table e).ref = 0) (hpc : ∀ p, s.pc p ≠ .marked k) :
    Settled (s.disk k) := by
  have hboot : Traced (boot k₀ disk : St P K C) := by
    refine ⟨fun _ _ h => ?_, fun k => (hdisk k).1, fun k hne hz => ?_⟩
    · cases h
    · have := (hdisk k).2 hne
      have : (disk k).nlink = 0 := hz
      omega
  obtain ⟨-, h⟩ := Machine.run_inv (I := fun s => Inv s ∧ Traced s) (fun hi hu hn => by
    have hd := did_of_step hn
    exact ⟨hi.1.did hd, hi.2.did hi.1 hu hd⟩) ⟨inv_boot k₀ disk, hboot⟩ hm hr
  refine ⟨h.empty k, fun hne => pos_of_ne_zero fun hz => ?_⟩
  rcases h.traced k hne hz with ⟨p, hp⟩ | ⟨e, he, hpos, -⟩
  · exact hpc p hp
  · have := href e he
    omega

end Traced

/-- The process `true` makes a file in the place of the freed one, and closes it. -/
def createFile : List (Lbl Bool Unit Nat) :=
  [⟨true, .ialloc () 2⟩, ⟨true, .step⟩, ⟨true, .step⟩, ⟨true, .step⟩, ⟨true, .iunlock ent0⟩,
    ⟨true, .iput ent0⟩]

theorem settled_oneFile (k : Unit) : Settled (oneFile k) :=
  ⟨nofun, fun _ => one_pos⟩

theorem no_orphan_unlinkFile :
    ∃ s, machine.run (boot () oneFile)
        (unlinkFile false ++ [⟨false, .step⟩, ⟨false, .step⟩] ++ createFile ++ unlinkFile true ++
          [⟨true, .step⟩, ⟨true, .step⟩]) = some s ∧
      (s.table ent0).ref = 0 ∧ Settled (s.disk ()) ∧ (s.disk ()).type = 0 := by
  have hrun : (machine.run (boot () oneFile)
        (unlinkFile false ++ [⟨false, .step⟩, ⟨false, .step⟩] ++ createFile ++ unlinkFile true ++
          [⟨true, .step⟩, ⟨true, .step⟩])).map
      (fun s => ((s.disk ()).type, decide (∀ e, (s.table e).ref = 0),
        decide (∀ p, s.pc p = .idle))) = some (0, true, true) := by decide +kernel
  obtain ⟨s, hs, he⟩ := Option.map_eq_some_iff.mp hrun
  obtain ⟨htype, he⟩ := Prod.mk.inj he
  obtain ⟨href, hpc⟩ := Prod.mk.inj he
  have href := of_decide_eq_true href
  have hpc := of_decide_eq_true hpc
  refine ⟨s, hs, href ent0, ?_, htype⟩
  refine no_orphan settled_oneFile (by decide +kernel) hs () (fun e _ => href e) ?_
  intro p h
  rw [hpc p] at h
  cases h

/-- The process `false` has freed the file and not yet dropped its reference when the other makes a
file with the same number, closes it and unlinks it. The last `ref--` leaves an inode with type and
without a link, which no entry refers to. -/
theorem orphan_of_reuse :
    ∃ s, machine.run (boot () oneFile)
        (unlinkFile false ++ [⟨false, .step⟩] ++ createFile ++ unlinkFile true ++
          [⟨false, .step⟩]) = some s ∧
      (∀ k, Settled (oneFile k)) ∧ (∀ e, (s.table e).ref = 0) ∧ (∀ p, s.pc p = .idle) ∧
      ¬ Settled (s.disk ()) := by
  have hrun : (machine.run (boot () oneFile)
        (unlinkFile false ++ [⟨false, .step⟩] ++ createFile ++ unlinkFile true ++
          [⟨false, .step⟩])).map
      (fun s => (s.disk (), decide (∀ e, (s.table e).ref = 0), decide (∀ p, s.pc p = .idle))) =
      some (⟨2, 0, 0⟩, true, true) := by decide +kernel
  obtain ⟨s, hs, he⟩ := Option.map_eq_some_iff.mp hrun
  obtain ⟨hd, he⟩ := Prod.mk.inj he
  obtain ⟨href, hpc⟩ := Prod.mk.inj he
  refine ⟨s, hs, settled_oneFile, of_decide_eq_true href, of_decide_eq_true hpc, fun h => ?_⟩
  have := h.2 (by rw [hd]; exact nofun)
  rw [hd] at this
  cases this

end Xv6.ITable
