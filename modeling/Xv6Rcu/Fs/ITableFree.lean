import Xv6Rcu.Fs.ITableRefs

/-!
# When an inode is freed

- `Sourced`: `iget` for a path gets the number of an inode with a link, or of one to which the
  process has a reference.
- **The defect** (`iget_dotdot`): the entry `..` of a removed directory is not counted as a link.
  A process whose working directory was removed can get the parent through it while `iput` frees the
  parent.
- `Left`: while an inode is free, or marked by `ialloc` and not yet got, the references to it are
  those of processes before the last `ref--` of `iput`. So the inode that `iput` frees has no other
  reference.
-/

namespace Xv6.ITable

open Lib Function

/-- The process is in none of the windows: between the mark of `ialloc` and its `iget`, and in
`iput` after its test. -/
def Pc.user {K : Type} : Pc K → Bool
  | .idle | .fresh _ | .init _ => true
  | _ => false

theorem Pc.user_ne {K : Type} {y : Pc K} (h : y.user = true) :
    (∀ k, y ≠ .marked k) ∧ (∀ e, y ≠ .trunc e) ∧ ∀ e, y ≠ .drop e := by
  refine ⟨?_, ?_, ?_⟩
  all_goals
    rintro _ rfl
    cases h

section Left
variable {P K C : Type}

/-- Path lookup gets the number of an inode with a link, or of one to which it has a reference. -/
def Sourced (s : St P K C) (l : Lbl P K C) : Prop :=
  ∀ k, l.act = .iget k →
    (s.disk k).type ≠ 0 ∧ 0 < (s.disk k).nlink ∨ ∃ e, 0 < s.held e l.p ∧ (s.table e).key = k

instance [DecidableEq P] [DecidableEq K] [DecidableEq C] [Fintype K] (s : St P K C)
    (l : Lbl P K C) : Decidable (Sourced s l) :=
  inferInstanceAs (Decidable (∀ k, l.act = .iget k →
    (s.disk k).type ≠ 0 ∧ 0 < (s.disk k).nlink ∨ ∃ e, 0 < s.held e l.p ∧ (s.table e).key = k))

/-- The inode is free, or is marked by `ialloc` and not yet got. -/
def Vacant (s : St P K C) (k : K) : Prop := (s.disk k).type = 0 ∨ ∃ p, s.pc p = .marked k

structure Left (s : St P K C) : Prop where
  marked : ∀ p k, s.pc p = .marked k → (s.disk k).type ≠ 0 ∧ (s.disk k).nlink = 0
  marker : ∀ p q k, s.pc p = .marked k → s.pc q = .marked k → p = q
  left : ∀ e q, Vacant s (s.table e).key → 0 < s.held e q → s.pc q = .drop e ∧ s.held e q = 1
  alone : ∀ p e, s.pc p = .trunc e → (s.table e).ref = 1

variable {s s' : St P K C} {p q : P} {e : Ent} {k : K} {x : Inode P K C} {y : Pc K} {f : P → Nat}

theorem Left.not_vacant (h : Left s) (hp : 0 < s.held e p) (hpc : s.pc p ≠ .drop e) :
    ¬ Vacant s (s.table e).key :=
  fun hv => hpc (h.left e p hv hp).1

variable [Fintype P] [DecidableEq P]

/-- A step of the process `q` at the entry `e`. -/
theorem Left.set (hi : Inv s) (h : Left s) (ht : s'.table = update s.table e x)
    (hh : s'.held = update s.held e f) (hpc : s'.pc = update s.pc q y)
    (hy : y = s.pc q ∨ (∀ k, y ≠ .marked k) ∧ (∀ e', y = .trunc e' → e' = e) ∧
      ∀ e', s.pc q = .drop e' → e' = e)
    (hd : s'.disk = s.disk ∨ 0 < (s.table e).ref ∧ ¬ Vacant s (s.table e).key ∧
      ∀ k, k ≠ (s.table e).key → s'.disk k = s.disk k)
    (hleft : ∀ r, Vacant s' x.key → 0 < f r → s'.pc r = .drop e ∧ f r = 1)
    (halone : ∀ r, s'.pc r = .trunc e → x.ref = 1) : Left s' := by
  have htab : ∀ e', e' ≠ e → s'.table e' = s.table e' := fun e' he => by
    rw [ht, update_of_ne he]
  have hother : ∀ r, r ≠ q → s'.pc r = s.pc r := fun r hr => by rw [hpc, update_of_ne hr]
  have hself : s'.pc q = y := by rw [hpc, update_self]
  have hmarked : ∀ r k, s'.pc r = .marked k → s.pc r = .marked k := by
    intro r k hr
    by_cases he : r = q
    · rw [he, hself] at hr
      rcases hy with hy | hy
      · rw [he, ← hy, hr]
      · exact absurd hr (hy.1 k)
    · rwa [hother r he] at hr
  have hdisk : ∀ k, (∃ r, s.pc r = .marked k) ∨ k ≠ (s.table e).key → s'.disk k = s.disk k := by
    intro k hk
    rcases hd with hd | ⟨-, hv, hd⟩
    · rw [hd]
    · refine hd k fun he => ?_
      rcases hk with ⟨r, hr⟩ | hk
      · exact hv (.inr ⟨r, he ▸ hr⟩)
      · exact hk he
  refine ⟨fun r k hr => ?_, fun r r' k hr hr' => ?_, fun e' r hv hr => ?_, fun r e' hr => ?_⟩
  · rw [hdisk k (.inl ⟨r, hmarked r k hr⟩)]
    exact h.marked r k (hmarked r k hr)
  · exact h.marker r r' k (hmarked r k hr) (hmarked r' k hr')
  · by_cases he : e' = e
    · rw [he, ht, update_self] at hv
      rw [he, hh, update_self] at hr ⊢
      exact hleft r hv hr
    · rw [htab e' he] at hv
      rw [hh, update_of_ne he] at hr ⊢
      have hv' : Vacant s (s.table e').key := by
        rcases hv with hv | ⟨r', hr'⟩
        · refine .inl ?_
          rcases hd with hd | ⟨hpos, -, hd⟩
          · rwa [hd] at hv
          · rwa [hd _ (hi.key_ne hpos he ((hi.atEnt e').ref_pos hr))] at hv
        · exact .inr ⟨r', hmarked r' _ hr'⟩
      obtain ⟨hdrop, h1⟩ := h.left e' r hv' hr
      refine ⟨?_, h1⟩
      by_cases hrq : r = q
      · rcases hy with hy | ⟨-, -, hy⟩
        · rw [hrq, hself, hy, ← hrq, hdrop]
        · exact absurd (hy e' (hrq ▸ hdrop)) he
      · rw [hother r hrq, hdrop]
  · by_cases he : e' = e
    · rw [he, ht, update_self]
      exact halone r (he ▸ hr)
    · rw [htab e' he]
      refine h.alone r e' ?_
      by_cases hrq : r = q
      · rw [hrq, hself] at hr
        rcases hy with hy | ⟨-, hy, -⟩
        · rw [hrq, ← hy, hr]
        · exact absurd (hy e' hr) he
      · rwa [hother r hrq] at hr

omit [DecidableEq P] in
theorem Left.not_trunc (hi : Inv s) (h : Left s) (hheld : 0 < s.held e p) (hp : s.pc p ≠ .trunc e)
    (r : P) : s.pc r ≠ .trunc e := by
  intro hr
  have hrp : r = p := by
    by_contra hne
    have hz := ((hi.atEnt e).only (h.alone r e hr) hheld).2 r hne
    have := ((hi.atEnt e).site r).ent (by rw [hr]; rfl)
    omega
  exact hp (hrp ▸ hr)

/-- A step of a process with a reference; `q` is the process that goes on. -/
theorem Left.use (hi : Inv s) (h : Left s) (hheld : 0 < s.held e p) (hp : (s.pc p).user = true)
    (ht : s'.table = update s.table e x) (hx : x.key = (s.table e).key)
    (hh : s'.held = update s.held e f) (hpc : s'.pc = update s.pc q y)
    (hy : y = s.pc q ∨ (s.pc q).user = true ∧ (y.user = true ∨ y = .trunc e ∧ x.ref = 1))
    (hd : ∀ k, k ≠ (s.table e).key → s'.disk k = s.disk k)
    (htype : (s'.disk (s.table e).key).type = (s.disk (s.table e).key).type) : Left s' := by
  obtain ⟨-, hpt, hpd⟩ := Pc.user_ne hp
  have hv := h.not_vacant hheld (hpd e)
  have hnt := h.not_trunc hi hheld (hpt e)
  have hym : y = s.pc q ∨ ∀ k, y ≠ .marked k := by
    rcases hy with hy | ⟨-, hy | hy⟩
    · exact .inl hy
    · exact .inr (Pc.user_ne hy).1
    · exact .inr fun k hk => by rw [hy.1] at hk; cases hk
  have hyt : ∀ e', y = .trunc e' → y = s.pc q ∨ e' = e ∧ x.ref = 1 := by
    intro e' he
    rcases hy with hy | ⟨-, hy | hy⟩
    · exact .inl hy
    · exact absurd he ((Pc.user_ne hy).2.1 e')
    · rw [hy.1] at he
      exact .inr ⟨(Pc.trunc.inj he).symm, hy.2⟩
  refine h.set hi ht hh hpc ?_ (.inr ⟨(hi.atEnt e).ref_pos hheld, hv, hd⟩) (fun r hv' _ => ?_)
    fun r hr => ?_
  · by_cases he : y = s.pc q
    · exact .inl he
    · refine .inr ⟨hym.resolve_left he, fun e' h => ((hyt e' h).resolve_left he).1, fun e' h => ?_⟩
      exact absurd h ((Pc.user_ne (hy.resolve_left he).1).2.2 e')
  · refine absurd ?_ hv
    rw [hx] at hv'
    rcases hv' with hv' | ⟨r', hr'⟩
    · exact .inl (htype ▸ hv')
    · refine .inr ⟨r', ?_⟩
      by_cases he : r' = q
      · rw [hpc, he, update_self] at hr'
        rw [he, ← hym.resolve_right fun h => h _ hr', hr']
      · rwa [hpc, update_of_ne he] at hr'
  · by_cases he : r = q
    · rw [hpc, he, update_self] at hr
      exact ((hyt e hr).resolve_left fun h => hnt q (h ▸ hr)).2
    · rw [hpc, update_of_ne he] at hr
      exact absurd hr (hnt r)

variable [DecidableEq K] [Inhabited C] {a : Act P K C} {g : Ent → Pc K} {r : P}

omit [Fintype P] [DecidableEq P] [DecidableEq K] [Inhabited C] in
theorem Gets.occupied (h : Left s) (hg : Gets s p a k g) (hsrc : Sourced s ⟨p, a⟩) :
    (s.disk k).type ≠ 0 ∧ ∀ r, r ≠ p → s.pc r ≠ .marked k := by
  cases hg with
  | path hpc =>
    rcases hsrc k rfl with ⟨ht, hn⟩ | ⟨e, he, rfl⟩
    · refine ⟨ht, fun r _ hr => ?_⟩
      have := (h.marked r k hr).2
      omega
    · have hv := h.not_vacant he (by rw [hpc]; exact fun h => by cases h)
      exact ⟨fun h => hv (.inl h), fun r _ hr => hv (.inr ⟨r, hr⟩)⟩
  | alloc hpc => exact ⟨(h.marked p k hpc).1, fun r hne hr => hne (h.marker r p k hr hpc)⟩

omit [DecidableEq P] [DecidableEq K] [Inhabited C] in
/-- Nobody gets an inode that `iput` frees. -/
theorem Gets.not_trunc (hi : Inv s) (h : Left s) (hg : Gets s p a (s.table e).key g)
    (hsrc : Sourced s ⟨p, a⟩) : s.pc r ≠ .trunc e := by
  intro hr
  have hs := (hi.atEnt e).site r
  have hheld := hs.ent (by rw [hr]; rfl)
  have hpos := (hi.atEnt e).ref_pos hheld
  cases hg with
  | path hpc =>
    rcases hsrc _ rfl with ⟨-, hn⟩ | ⟨e', he', hk⟩
    · have hv := (hs.locked (hs.lock (by rw [hr]; rfl))).2
      obtain ⟨hz, hc⟩ := hs.trunc hr
      rw [((hi.atEnt e).coherent hpos hv).2.2 hc] at hz
      omega
    · have he : e' = e := hi.unique e' e ((hi.atEnt e').ref_pos he') hpos hk
      exact h.not_trunc hi (he ▸ he') (by rw [hpc]; exact fun h => by cases h) r hr
  | alloc hpc =>
    have := (h.left e r (.inr ⟨p, hpc⟩) hheld).1
    rw [hr] at this
    cases this

omit [Fintype P] [DecidableEq P] [DecidableEq K] [Inhabited C] in
theorem Gets.user (hg : Gets s p a k g) (e : Ent) :
    (g e).user = true ∧ ∀ e', s.pc p ≠ .drop e' := by
  cases hg with
  | path hpc => exact ⟨rfl, fun _ h => by rw [hpc] at h; cases h⟩
  | alloc hpc => exact ⟨rfl, fun _ h => by rw [hpc] at h; cases h⟩

omit [DecidableEq K] [Inhabited C] in
theorem Left.gets (hi : Inv s) (h : Left s) (hg : Gets s p a k g) (hsrc : Sourced s ⟨p, a⟩)
    (hx : x.key = k) (n : Nat) (htr : ∀ r, s.pc r ≠ .trunc e) :
    Left (s.touch p (g e) e x n) := by
  obtain ⟨ht, hm⟩ := hg.occupied h hsrc
  obtain ⟨hgu, hdrop⟩ := hg.user e
  obtain ⟨hgm, hgt, -⟩ := Pc.user_ne hgu
  have hother : ∀ r, r ≠ p → (s.touch p (g e) e x n).pc r = s.pc r :=
    fun r hr => update_of_ne hr ..
  have hself : (s.touch p (g e) e x n).pc p = g e := update_self ..
  refine h.set hi rfl rfl rfl (.inr ⟨hgm, fun e' h => absurd h (hgt e'), fun e' h => absurd h
    (hdrop e')⟩) (.inl rfl) (fun r hv _ => ?_) fun r hr => ?_
  · rw [hx] at hv
    rcases hv with hv | ⟨r', hr'⟩
    · exact absurd hv ht
    · by_cases he : r' = p
      · rw [he, hself] at hr'
        exact absurd hr' (hgm k)
      · rw [hother r' he] at hr'
        exact absurd hr' (hm r' he)
  · by_cases he : r = p
    · rw [he, hself] at hr
      exact absurd hr (hgt e)
    · rw [hother r he] at hr
      exact absurd hr (htr r)

omit [DecidableEq K] [Inhabited C] in
theorem Left.drop (hi : Inv s) (h : Left s) (hpc : s.pc p = .drop e) : Left (unref s p e) := by
  have hother : ∀ r, r ≠ p → (unref s p e).pc r = s.pc r := fun r hr => update_of_ne hr ..
  have hself : (unref s p e).pc p = .idle := update_self ..
  have hheld := ((hi.atEnt e).site p).ent (by rw [hpc]; rfl)
  refine h.set hi rfl rfl rfl
    (.inr ⟨(fun _ h => by cases h), (fun _ h => by cases h), fun e' h => ?_⟩) (.inl rfl)
    (fun r hv hr => ?_) fun r hr => ?_
  · rw [hpc] at h
    exact (Pc.drop.inj h).symm
  · have hv' : Vacant s (s.table e).key := by
      refine Or.imp_right ?_ hv
      rintro ⟨r', hr'⟩
      refine ⟨r', ?_⟩
      by_cases he : r' = p
      · rw [he, hself] at hr'
        cases hr'
      · rwa [hother r' he] at hr'
    by_cases he : r = p
    · rw [he, update_self, (h.left e p hv' hheld).2] at hr
      omega
    · rw [update_of_ne he] at hr ⊢
      rw [hother r he]
      exact h.left e r hv' hr
  · by_cases he : r = p
    · rw [he, hself] at hr
      cases hr
    · rw [hother r he] at hr
      exact absurd hr (h.not_trunc hi hheld (by rw [hpc]; exact fun h => by cases h) r)

theorem Left.truncate (hi : Inv s) (h : Left s) (hpc : s.pc p = .trunc e) :
    Left (truncate s p e) := by
  have hother : ∀ r, r ≠ p → (ITable.truncate s p e).pc r = s.pc r :=
    fun r hr => update_of_ne hr ..
  have hself : (ITable.truncate s p e).pc p = .drop e := update_self ..
  have hat := hi.atEnt e
  have hheld := (hat.site p).ent (by rw [hpc]; rfl)
  obtain ⟨hone, hnone⟩ := hat.only (h.alone p e hpc) hheld
  refine h.set hi rfl rfl rfl
    (.inr ⟨nofun, nofun, fun e' h => ?_⟩)
    (.inr ⟨hat.ref_pos hheld, h.not_vacant hheld (by rw [hpc]; exact nofun),
      fun k hk => update_of_ne hk ..⟩) (fun r _ hr => ?_) fun r hr => ?_
  · rw [hpc] at h
    cases h
  · by_cases he : r = p
    · rw [he, update_self, hself]
      exact ⟨rfl, hone⟩
    · rw [update_of_ne he, hnone r he] at hr
      cases hr
  · by_cases he : r = p
    · rw [he, hself] at hr
      cases hr
    · rw [hother r he] at hr
      have := (hat.site r).ent (by rw [hr]; rfl)
      rw [hnone r he] at this
      cases this

omit [Fintype P] in
theorem Left.ialloc (h : Left s) (hpc : s.pc p = .idle) (hfree : (s.disk k).type = 0) {type : Nat}
    (htype : type ≠ 0) : Left (ialloc s p k type) := by
  have hother : ∀ r, r ≠ p → (ITable.ialloc s p k type).pc r = s.pc r :=
    fun r hr => update_of_ne hr ..
  have hself : (ITable.ialloc s p k type).pc p = .marked k := update_self ..
  have hdisk : ∀ k', k' ≠ k → (ITable.ialloc s p k type).disk k' = s.disk k' :=
    fun k' hk => update_of_ne hk ..
  have hmark : ∀ r k', (ITable.ialloc s p k type).pc r = .marked k' →
      r = p ∧ k' = k ∨ r ≠ p ∧ k' ≠ k ∧ s.pc r = .marked k' := by
    intro r k' hr
    by_cases he : r = p
    · rw [he, hself] at hr
      exact .inl ⟨he, (Pc.marked.inj hr).symm⟩
    · rw [hother r he] at hr
      exact .inr ⟨he, fun hk => (h.marked r k' hr).1 (hk ▸ hfree), hr⟩
  refine ⟨fun r k' hr => ?_, fun r r' k' hr hr' => ?_, fun e q hv hq => ?_, fun r e hr => ?_⟩
  · rcases hmark r k' hr with ⟨-, rfl⟩ | ⟨-, hk, hr⟩
    · simp only [ITable.ialloc, update_self]
      exact ⟨htype, trivial⟩
    · rw [hdisk k' hk]
      exact h.marked r k' hr
  · rcases hmark r k' hr with ⟨rfl, rfl⟩ | ⟨-, hk, hr⟩ <;>
      rcases hmark r' k' hr' with ⟨rfl, hk'⟩ | ⟨-, hk', hr'⟩
    · rfl
    · exact absurd rfl hk'
    · exact absurd hk' hk
    · exact h.marker r r' k' hr hr'
  · have hv' : Vacant s (s.table e).key := by
      by_cases hk : (s.table e).key = k
      · exact .inl (by rw [hk, hfree])
      · rcases hv with hv | ⟨r, hr⟩
        · exact .inl ((congrArg Dinode.type (hdisk _ hk)).symm.trans hv)
        · rcases hmark r _ hr with ⟨-, hk'⟩ | ⟨-, -, hr⟩
          · exact absurd hk' hk
          · exact .inr ⟨r, hr⟩
    obtain ⟨hdrop, h1⟩ := h.left e q hv' hq
    refine ⟨?_, h1⟩
    rw [hother q fun he => ?_, hdrop]
    rw [he, hpc] at hdrop
    cases hdrop
  · by_cases he : r = p
    · rw [he, hself] at hr
      cases hr
    · rw [hother r he] at hr
      exact h.alone r e hr

theorem Left.did (hi : Inv s) (h : Left s) (hsrc : Sourced s ⟨p, a⟩) (hd : Did s p a s') :
    Left s' := by
  cases hd with
  | @hit _ _ g e hg hr hk =>
    subst hk
    refine h.gets hi hg hsrc ?_ _ fun r => hg.not_trunc hi h hsrc
    rfl
  | @recycle _ k g e hg hr hk =>
    refine h.gets hi hg hsrc ?_ _ fun r hr' => ?_
    · rfl
    · have := (hi.atEnt e).unused hr r
      have := ((hi.atEnt e).site r).ent (by rw [hr']; rfl)
      omega
  | @idup q e hpc hheld =>
    exact h.use hi hheld (by rw [hpc]; rfl) rfl rfl rfl rfl (.inl rfl) (fun _ _ => rfl) rfl
  | @ilock _ e y d hl hfree hd =>
    cases hl with
    | use hpc hheld =>
      exact h.use hi hheld (by rw [hpc]; rfl) rfl rfl rfl rfl (.inr ⟨by rw [hpc]; rfl, .inl rfl⟩)
        (fun _ _ => rfl) rfl
    | create hpc =>
      have hheld := ((hi.atEnt e).site p).ent (by rw [hpc]; rfl)
      exact h.use hi hheld (by rw [hpc]; rfl) rfl rfl rfl rfl (.inr ⟨by rw [hpc]; rfl, .inl rfl⟩)
        (fun _ _ => rfl) rfl
  | @change _ e d hpc hl ht =>
    have hheld := (((hi.atEnt e).site p).locked hl).1
    exact h.use hi hheld (by rw [hpc]; rfl) rfl rfl (update_eq_self e s.held).symm
      (update_eq_self p s.pc).symm (.inl rfl) (fun _ _ => rfl) rfl
  | @iupdate e hpc hl =>
    obtain ⟨hheld, -, ht, -⟩ := hi.owned hl
    refine h.use hi hheld (by rw [hpc]; rfl) (update_eq_self e s.table).symm rfl
      (update_eq_self e s.held).symm (update_eq_self p s.pc).symm (.inl rfl)
      (fun _ hk => update_of_ne hk ..) ?_
    simp only [St.iupdate, update_self]
    exact ht
  | @iunlock e hpc hl hc =>
    have hheld := (((hi.atEnt e).site p).locked hl).1
    exact h.use hi hheld (by rw [hpc]; rfl) rfl rfl rfl rfl (.inr ⟨by rw [hpc]; rfl, .inl rfl⟩)
      (fun _ _ => rfl) rfl
  | @check e hpc hheld hfree hr hv hn =>
    exact h.use hi hheld (by rw [hpc]; rfl) rfl rfl rfl rfl
      (.inr ⟨by rw [hpc]; rfl, .inr ⟨rfl, hr⟩⟩) (fun _ _ => rfl) rfl
  | unref hpc hheld hl _ =>
    exact h.use hi hheld (by rw [hpc]; rfl) rfl rfl rfl rfl (.inr ⟨by rw [hpc]; rfl, .inl rfl⟩)
      (fun _ _ => rfl) rfl
  | drop hpc => exact h.drop hi hpc
  | truncate hpc => exact h.truncate hi hpc
  | ialloc hpc hfree htype => exact h.ialloc hpc hfree htype
  | @initialise e hpc =>
    obtain ⟨hheld, -, ht, -⟩ := hi.owned (((hi.atEnt e).site p).lock (by rw [hpc]; rfl))
    refine h.use hi hheld (by rw [hpc]; rfl) rfl rfl (update_eq_self e s.held).symm rfl
      (.inr ⟨by rw [hpc]; rfl, .inl rfl⟩) (fun k hk => ?_) ?_
    · rw [initialise_disk, update_of_ne hk]
    · rw [initialise_disk, update_self]
      exact ht

end Left

/-! ## The table over all runs -/

section Runs
variable {P K C : Type} {s s' : St P K C} {p : P} {a : Act P K C} {k : K} {e : Ent}

/-- After `iinit`, with a disk. -/
def boot [Inhabited C] (k : K) (disk : K → Dinode C) : St P K C where
  table _ := { key := k, mem := ⟨0, 0, default⟩ }
  disk := disk

structure Table [Fintype P] (s : St P K C) : Prop where
  unique : ∀ e e', 0 < (s.table e).ref → 0 < (s.table e').ref →
    (s.table e).key = (s.table e').key → e = e'
  count : ∀ e, (s.table e).ref = ∑ p, s.held e p
  locked : ∀ e p, (s.table e).lock = some p → 0 < s.held e p ∧ (s.table e).valid = true
  coherent : ∀ e, 0 < (s.table e).ref → (s.table e).valid = true → s.changed e = false →
    (s.table e).mem = s.disk (s.table e).key
  changed : ∀ e, s.changed e = true → (s.table e).lock ≠ none
  trunc : ∀ p e, s.pc p = .trunc e → (s.table e).lock = some p ∧ (s.table e).mem.nlink = 0 ∧
    (s.disk (s.table e).key).nlink = 0

/-- A step recycles an entry only if it has no reference, and frees a disk inode only if that has no
link and, when `iput` decided so, had no reference other than the one that it drops. -/
structure Guarded (s : St P K C) (p : P) (s' : St P K C) : Prop where
  recycle : ∀ e, (s'.table e).key ≠ (s.table e).key → (s.table e).ref = 0
  decide : ∀ e, s'.pc p = .trunc e → s.pc p ≠ .trunc e →
    (s.table e).ref = 1 ∧ s.held e p = 1 ∧ (∀ q, q ≠ p → s.held e q = 0) ∧
      (s.table e).mem.nlink = 0
  free : ∀ k, (s.disk k).type ≠ 0 → (s'.disk k).type = 0 →
    ∃ e, s.pc p = .trunc e ∧ (s.table e).key = k ∧ (s.disk k).nlink = 0

theorem Inv.table [Fintype P] (h : Inv s) : Table s where
  unique := h.unique
  count e := (h.atEnt e).count
  locked e p := ((h.atEnt e).site p).locked
  coherent e hr hv := ((h.atEnt e).coherent hr hv).2.2
  changed e := (h.atEnt e).changed
  trunc p e hpc := by
    have hs := (h.atEnt e).site p
    have hl := hs.lock (by rw [hpc]; rfl)
    obtain ⟨hheld, hv⟩ := hs.locked hl
    obtain ⟨hn, hc⟩ := hs.trunc hpc
    refine ⟨hl, hn, ?_⟩
    rw [← ((h.atEnt e).coherent ((h.atEnt e).ref_pos hheld) hv).2.2 hc, hn]

theorem key_update {t : Ent → Inode P K C} {x : Inode P K C} (hx : x.key = (t e).key) (e' : Ent) :
    (update t e x e').key = (t e').key := by
  by_cases he : e' = e
  · rw [he, update_self, hx]
  · rw [update_of_ne he]

variable [DecidableEq P] [DecidableEq K] [Inhabited C]

theorem Did.recycle_unused (hd : Did s p a s') (hk : (s'.table e).key ≠ (s.table e).key) :
    (s.table e).ref = 0 := by
  cases hd with
  | @recycle _ k g e' hg hr _ =>
    by_cases he : e = e'
    · rw [he, hr]
    · exact absurd (congrArg Inode.key (update_of_ne he ..)) hk
  | iupdate _ _ => exact absurd rfl hk
  | ialloc _ _ _ => exact absurd rfl hk
  | _ => exact absurd (key_update (by rfl) e) hk

variable [Fintype P]

theorem Did.decide_alone (hi : Inv s) (hd : Did s p a s') (ht : s'.pc p = .trunc e)
    (hn : s.pc p ≠ .trunc e) :
    (s.table e).ref = 1 ∧ s.held e p = 1 ∧ (∀ q, q ≠ p → s.held e q = 0) ∧
      (s.table e).mem.nlink = 0 := by
  have hmoved : ∀ {q : P} {y : Pc K} {e' : Ent} {x : Inode P K C} {n : Nat},
      (s.touch q y e' x n).pc p = .trunc e → y = .trunc e ∧ q = p := by
    intro q y e' x n h
    by_cases hq : p = q
    · subst hq
      have hself : (s.touch p y e' x n).pc p = y := update_self ..
      exact ⟨hself.symm.trans h, rfl⟩
    · exact absurd ((update_of_ne hq ..).symm.trans h) hn
  cases hd with
  | @check e' hpc hheld hfree hr hv hz =>
    obtain rfl := Pc.trunc.inj (hmoved ht).1
    obtain ⟨hone, hnone⟩ := (hi.atEnt e').only hr hheld
    exact ⟨hr, hone, hnone, hz⟩
  | @hit _ _ _ e' hg _ _ => exact absurd (hmoved ht).1 ((Pc.user_ne (hg.user e').1).2.1 e)
  | @recycle _ _ _ e' hg _ _ => exact absurd (hmoved ht).1 ((Pc.user_ne (hg.user e').1).2.1 e)
  | idup _ _ =>
    obtain ⟨hy, rfl⟩ := hmoved ht
    exact absurd hy hn
  | ilock hl _ _ =>
    have := (hmoved ht).1
    cases hl <;> cases this
  | change _ _ _ => exact absurd ht hn
  | iupdate _ _ => exact absurd ht hn
  | iunlock _ _ _ => cases (hmoved ht).1
  | unref _ _ _ _ => cases (hmoved ht).1
  | drop _ => cases (hmoved ht).1
  | truncate _ => cases (update_self ..).symm.trans ht
  | ialloc _ _ _ => cases (update_self ..).symm.trans ht
  | initialise _ => cases (update_self ..).symm.trans ht

theorem Did.free_unlinked (hi : Inv s) (hd : Did s p a s') (hne : (s.disk k).type ≠ 0)
    (hz : (s'.disk k).type = 0) :
    ∃ e, s.pc p = .trunc e ∧ (s.table e).key = k ∧ (s.disk k).nlink = 0 := by
  -- The copy of the lock holder has the type of the disk inode.
  have hcopy : ∀ {e : Ent} {d : Dinode C}, (s.table e).lock = some p →
      d.type = (s.table e).mem.type →
      (update s.disk (s.table e).key d k).type ≠ 0 := by
    intro e d hl hd
    obtain ⟨-, -, ht, hdt⟩ := hi.owned hl
    by_cases hk : k = (s.table e).key
    · rw [hk, update_self, hd, ht]
      exact hdt
    · rwa [update_of_ne hk]
  cases hd with
  | iupdate _ hl => exact absurd hz (hcopy hl rfl)
  | @initialise e hpc =>
    have hl := ((hi.atEnt e).site p).lock (by rw [hpc]; rfl)
    rw [initialise_disk] at hz
    exact absurd hz (hcopy hl rfl)
  | @truncate e hpc =>
    by_cases hk : (s.table e).key = k
    · exact ⟨e, hpc, hk, hk ▸ (hi.table.trunc p e hpc).2.2⟩
    · have hsame : (ITable.truncate s p e).disk k = s.disk k :=
        update_of_ne (Ne.symm hk) ..
      rw [hsame] at hz
      exact absurd hz hne
  | @ialloc k' type _ hfree htype =>
    by_cases hk : k = k'
    · exact absurd (hk ▸ hfree) hne
    · exact absurd ((congrArg Dinode.type (update_of_ne hk ..)).symm.trans hz) hne
  | _ => exact absurd hz hne

omit [DecidableEq P] [DecidableEq K] in
theorem inv_boot (k : K) (disk : K → Dinode C) : Inv (boot k disk : St P K C) := by
  refine ⟨fun _ _ h => absurd h (Nat.lt_irrefl 0),
    fun e => ⟨?_, fun h => ?_, fun h => ?_, fun p => ?_⟩⟩
  · exact (Finset.sum_eq_zero fun _ _ => rfl).symm
  · exact absurd h (Nat.lt_irrefl 0)
  · cases h
  · exact .calm (fun h => by cases h) (fun h => by cases h) rfl fun h => by cases h

omit [DecidableEq P] [DecidableEq K] [Fintype P] in
theorem left_boot (k : K) (disk : K → Dinode C) : Left (boot k disk : St P K C) := by
  refine ⟨fun _ _ h => ?_, fun _ _ _ h => ?_, fun _ _ _ h => ?_, fun _ _ h => ?_⟩
  · cases h
  · cases h
  · exact absurd h (Nat.lt_irrefl 0)
  · cases h

theorem run_inv {k : K} {disk : K → Dinode C} {ls : List (Lbl P K C)}
    (hr : machine.run (boot k disk) ls = some s) : Inv s :=
  Machine.run_inv_all (fun hi hn => hi.did (did_of_step hn)) (inv_boot k disk) hr

theorem run_left {k : K} {disk : K → Dinode C} {ls : List (Lbl P K C)}
    (hm : machine.Meets Sourced (boot k disk) ls)
    (hr : machine.run (boot k disk) ls = some s) : Left s :=
  (Machine.run_inv (I := fun s => Inv s ∧ Left s) (fun hi hsrc hn => by
    have hd := did_of_step hn
    exact ⟨hi.1.did hd, hi.2.did hi.1 hsrc hd⟩) ⟨inv_boot k disk, left_boot k disk⟩ hm hr).2

/-- **The inode table.** If path lookup gets numbers of inodes with a link only, the reference that
`iput` drops is the only one until the inode is freed. -/
theorem inode_table {k : K} {disk : K → Dinode C} {ls : List (Lbl P K C)}
    (hr : machine.run (boot k disk) ls = some s) :
    Table s ∧ (∀ l s', machine.next s l = some s' → Guarded s l.p s') ∧
      (machine.Meets Sourced (boot k disk) ls → ∀ p e, s.pc p = .trunc e →
        (s.table e).ref = 1 ∧ s.held e p = 1 ∧ ∀ q, q ≠ p → s.held e q = 0) := by
  have hi := run_inv hr
  refine ⟨hi.table, fun l s' hn => ?_, fun hm p e hpc => ?_⟩
  · have hd := did_of_step hn
    exact ⟨fun e => hd.recycle_unused, fun e => hd.decide_alone hi, fun k => hd.free_unlinked hi⟩
  · have h1 := (run_left hm hr).alone p e hpc
    have hheld := ((hi.atEnt e).site p).ent (by rw [hpc]; rfl)
    exact ⟨h1, (hi.atEnt e).only h1 hheld⟩

end Runs

def ent0 : Ent := ⟨0, Nat.succ_pos 49⟩

/-- A disk with one file, of one link and block 7. -/
def oneFile : Unit → Dinode Nat := fun _ => ⟨2, 1, 7⟩

/-- The process `p` looks up the file, unlinks it and puts its reference. -/
def unlinkFile (p : Bool) : List (Lbl Bool Unit Nat) :=
  [⟨p, .iget ()⟩, ⟨p, .ilock ent0⟩, ⟨p, .unlink ent0⟩, ⟨p, .iupdate ent0⟩, ⟨p, .iunlock ent0⟩,
    ⟨p, .iput ent0⟩]

theorem inode_table_unlinkFile :
    ∃ s, machine.run (boot () oneFile) (unlinkFile false) = some s ∧ Table s ∧
      s.pc false = .trunc ent0 ∧ (s.table ent0).ref = 1 ∧ s.held ent0 true = 0 := by
  have hrun : (machine.run (boot () oneFile) (unlinkFile false)).map (fun s => s.pc false) =
      some (.trunc ent0) := by decide +kernel
  obtain ⟨s, hs, hpc⟩ := Option.map_eq_some_iff.mp hrun
  have hsrc : machine.Meets Sourced (boot () oneFile) (unlinkFile false) := by decide +kernel
  obtain ⟨htab, -, halone⟩ := inode_table hs
  obtain ⟨h1, -, hq⟩ := halone hsrc false ent0 hpc
  exact ⟨s, hs, htab, hpc, h1, hq true Bool.noConfusion⟩

/-- Two directories, of which `true` is in `false`. The content of a directory is its entry `..`, if
this is one of the two. -/
def twoDirs : Bool → Dinode (Option Bool)
  | true => ⟨1, 1, some false⟩
  | false => ⟨1, 2, none⟩

def ent1 : Ent := ⟨1, Nat.succ_lt_succ (Nat.succ_pos 48)⟩

/-- The process `true` has the working directory `true`. The process `false` removes `true` and then
`false`, up to the section of `iput` that frees this one. The other process locks its working
directory. -/
def removeBoth : List (Lbl Bool Bool (Option Bool)) :=
  [⟨true, .iget true⟩, ⟨false, .iget false⟩, ⟨false, .ilock ent1⟩, ⟨false, .iget true⟩,
    ⟨false, .ilock ent0⟩, ⟨false, .unlink ent1⟩, ⟨false, .iupdate ent1⟩, ⟨false, .iunlock ent1⟩,
    ⟨false, .iput ent1⟩, ⟨false, .unlink ent0⟩, ⟨false, .iupdate ent0⟩, ⟨false, .iunlock ent0⟩,
    ⟨false, .iput ent0⟩, ⟨false, .iget false⟩, ⟨false, .ilock ent1⟩, ⟨false, .unlink ent1⟩,
    ⟨false, .iupdate ent1⟩, ⟨false, .iunlock ent1⟩, ⟨false, .iput ent1⟩, ⟨true, .ilock ent0⟩]

/-- `..` is looked up in the removed directory. The parent is freed with another reference to it,
and the `ilock` that follows panics. -/
theorem iget_dotdot : ∃ s s₁ s₂, machine.run (boot true twoDirs) removeBoth = some s ∧
    machine.Meets Sourced (boot true twoDirs) removeBoth ∧
    (s.table ent0).lock = some true ∧ (s.table ent0).mem = ⟨1, 0, some false⟩ ∧
    machine.next s ⟨true, .iget false⟩ = some s₁ ∧ s₁.pc false = .trunc ent1 ∧
    (s₁.table ent1).ref = 2 ∧ s₁.held ent1 true = 1 ∧
    machine.next s₁ ⟨false, .step⟩ = some s₂ ∧ (s₂.disk false).type = 0 ∧
    s₂.held ent1 true = 1 ∧ machine.next s₂ ⟨true, .ilock ent1⟩ = none := by
  have hrun : ((machine.run (boot true twoDirs) removeBoth).bind fun s =>
      (machine.next s ⟨true, .iget false⟩).bind fun s₁ =>
      (machine.next s₁ ⟨false, .step⟩).map fun s₂ => decide ((s.table ent0).lock = some true ∧
        (s.table ent0).mem = ⟨1, 0, some false⟩ ∧ s₁.pc false = .trunc ent1 ∧
        (s₁.table ent1).ref = 2 ∧ s₁.held ent1 true = 1 ∧ (s₂.disk false).type = 0 ∧
        s₂.held ent1 true = 1 ∧ (machine.next s₂ ⟨true, .ilock ent1⟩).isNone)) = some true := by
    decide +kernel
  obtain ⟨s, hs, hrun⟩ := Option.bind_eq_some_iff.mp hrun
  obtain ⟨s₁, h₁, hrun⟩ := Option.bind_eq_some_iff.mp hrun
  obtain ⟨s₂, h₂, hd⟩ := Option.map_eq_some_iff.mp hrun
  obtain ⟨hlock, hmem, hpc, href, hheld, htype, hheld₂, hlast⟩ := of_decide_eq_true hd
  exact ⟨s, s₁, s₂, hs, by decide +kernel, hlock, hmem, h₁, hpc, href, hheld, h₂, htype, hheld₂,
    Option.isNone_iff_eq_none.mp hlast⟩

end Xv6.ITable
