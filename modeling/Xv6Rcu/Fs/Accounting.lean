import Xv6Rcu.Fs.Ownership

/-!
# Block ownership over runs

- `itrunc_ok`: `itrunc` frees exactly the blocks of the inode, and never fails.
- `Inv`: `Sound` for the inodes on the disk, and the inodes in use in `itable` are those of the
  disk.
- `Accounted`: what holds between any two calls. `blocks_accounted`: in every run from a consistent
  image.
-/

namespace Xv6.Ino

open Lib Fs Function List
open BitVec (le_def not_lt ofNat toNat_add)

variable {lay : Layout} {D D' : Nat → Dinode} {c : BlockNo → Block} {u : BlockNo → Bool}
  {x y : Dinode} {a b : BlockNo} {i : Nat} {p : Nat × Slot} {sl : Slot} {d d' : Disk}
  {ip ip' : Inode} {R : Nat × Slot → Option BlockNo} {type : BitVec 16} {v : BitVec 32} {op : Op}
  {msg : String}

/-! ## Changes of an inode -/

/-- The fields of an inode that say which blocks it has. -/
def Dinode.Same (x y : Dinode) : Prop := x.type = y.type ∧ x.size = y.size ∧ x.addrs = y.addrs

theorem Dinode.Same.ref (h : x.Same y) : x.ref c = y.ref c := by
  obtain ⟨ht, -, ha⟩ := h
  funext s
  cases s <;> simp only [Dinode.ref, ht, ha]

theorem refs_same (h : ∀ i, (D i).Same (D' i)) : refs D' c = refs D c := by
  funext p
  exact congrFun (h p.1).ref.symm p.2

theorem Sound.same (hs : Sound lay u D c) (h : ∀ i, (D i).Same (D' i)) : Sound lay u D' c := by
  refine ⟨?_, hs.reserved, fun i bn ht hbn => ?_⟩
  · rw [refs_same h]
    exact hs.owns
  · rw [← (h i).1] at ht
    rw [← (h i).2.1] at hbn
    rw [refs_same h]
    exact hs.covered i bn ht hbn

/-- An inode without references may change to another one. -/
theorem Sound.replace (hs : Sound lay u D c) (hx : ∀ s, (D i).ref c s = none)
    (hy : ∀ s, y.ref c s = none) (hsz : y.type = 0 ∨ y.size = 0) :
    Sound lay u (update D i y) c ∧ refs (update D i y) c = refs D c := by
  have hr : refs (update D i y) c = refs D c := by
    funext ⟨j, s⟩
    by_cases hj : j = i
    · subst hj
      rw [refs_update_self, hy, refs, hx]
    · rw [refs_update_of_ne hj]
  refine ⟨⟨?_, hs.reserved, fun j bn ht hbn => ?_⟩, hr⟩
  · rw [hr]
    exact hs.owns
  · rw [hr]
    by_cases hj : j = i
    · subst hj
      rw [update_self] at ht hbn
      rcases hsz with h0 | h0
      · exact absurd h0 ht
      · rw [h0] at hbn
        exact absurd hbn (Nat.not_lt_zero _)
    · rw [update_of_ne hj] at ht hbn
      exact hs.covered j bn ht hbn

theorem ref_zero {t m n l : BitVec 16} (s : Slot) :
    (Dinode.mk t m n l v fun _ => 0).ref c s = none := by
  by_cases ht : t = 0
  · exact ref_free ht s
  · cases s with
    | direct k => exact ref_direct ht
    | indirect => exact ref_indirect ht
    | entry k => exact ref_entry ht

theorem refs_setSize (v : BitVec 32) :
    refs (update D i { x with size := v }) c = refs (update D i x) c := by
  funext ⟨j, s⟩
  by_cases hj : j = i
  · subst hj
    rw [refs_update_self, refs_update_self]
    cases s <;> rfl
  · rw [refs_update_of_ne hj, refs_update_of_ne hj]

/-- The size of an inode changes. -/
theorem Sound.setSize (hs : Sound lay u (update D i x) c)
    (hc : ∀ bn, bn * BSIZE < v.toNat → ∃ s, Slot.ofBlock bn = some s ∧
      refs (update D i x) c (i, s) ≠ none) : Sound lay u (update D i { x with size := v }) c := by
  refine ⟨?_, hs.reserved, fun j bn ht hbn => ?_⟩
  · rw [refs_setSize]
    exact hs.owns
  · rw [refs_setSize]
    by_cases hj : j = i
    · subst hj
      rw [update_self] at hbn
      exact hc bn hbn
    · rw [update_of_ne hj] at ht hbn
      refine hs.covered j bn ?_ ?_ <;> rw [update_of_ne hj] <;> assumption

/-! ## Truncation -/

/-- The blocks in use are the metadata and those of the references `R`. -/
structure Held (lay : Layout) (d : Disk) (R : Nat × Slot → Option BlockNo) : Prop where
  owns : Owns R (used lay d) lay.DataBlock
  reserved : ∀ b, b.toNat < lay.nmeta → used lay d b = true

/-- `d'` differs from `d` in the bitmap only, and has the references `R`. -/
structure Freed (lay : Layout) (d d' : Disk) (R : Nat × Slot → Option BlockNo) : Prop where
  held : Held lay d' R
  dino : dino lay d' = dino lay d
  data : data lay d' = data lay d

theorem Held.bfree (h : Held lay d R) (hp : R p = some b) :
    ∃ d', bfree lay b d = .ok d' ∧ Freed lay d d' (update R p none) := by
  have hb := h.owns.mem hp
  obtain ⟨d', hd', hv⟩ := bfree_eq_ok hb.2 (h.owns.isMarked hp)
  refine ⟨d', hd', ⟨⟨?_, fun b' hb' => ?_⟩, hv.dino, hv.data⟩⟩
  · rw [hv.used]
    exact h.owns.drop hp
  · have hne : b' ≠ b := by
      rintro rfl
      exact not_lt.mpr hb.1 hb'
    rw [hv.used, update_of_ne hne]
    exact h.reserved b' hb'

theorem Freed.trans {d'' : Disk} {R' : Nat × Slot → Option BlockNo} (h : Freed lay d d' R)
    (h' : Freed lay d' d'' R') : Freed lay d d'' R' :=
  ⟨h'.held, h'.dino.trans h.dino, h'.data.trans h.data⟩

theorem truncDirect_ok {l : List (Fin NDIRECT)} (hn : l.Nodup) (h : Held lay d R)
    (hR : ∀ k ∈ l, R (i, .direct k) = toRef (ip.addrs k.castSucc)) :
    ∃ f d', truncDirect lay (l.map Fin.castSucc) ip d = .ok ({ ip with addrs := f }, d') ∧
      Freed lay d d' (clear R (l.map fun k => (i, .direct k))) ∧
      ∀ k, f k = if k ∈ l.map Fin.castSucc then 0 else ip.addrs k := by
  induction l generalizing ip d R with
  | nil =>
    refine ⟨ip.addrs, d, rfl, ⟨?_, rfl, rfl⟩, fun k => rfl⟩
    exact h
  | cons k l ih =>
    obtain ⟨hk, hn⟩ := nodup_cons.mp hn
    have hRk := hR k (mem_cons_self ..)
    rw [map_cons, map_cons, truncDirect, clear_cons]
    by_cases h0 : ip.addrs k.castSucc = 0
    · rw [h0, toRef_zero] at hRk
      obtain ⟨f, d', hd', hf, hfk⟩ := ih hn h fun k' hk' => hR k' (mem_cons_of_mem _ hk')
      refine ⟨f, d', by rw [if_pos h0, hd'], ?_, fun k' => ?_⟩
      · rwa [← hRk, update_eq_self]
      · rw [hfk k']
        by_cases hkk : k' = k.castSucc <;> simp [hkk, h0]
    · rw [toRef_of_ne h0] at hRk
      obtain ⟨d1, hd1, hf1⟩ := h.bfree hRk
      have hne : ∀ k' ∈ l, k' ≠ k := by
        rintro k' hk' rfl
        exact hk hk'
      have hR1 : ∀ k' ∈ l, update R (i, .direct k) none (i, .direct k') =
          toRef (update ip.addrs k.castSucc 0 k'.castSucc) := by
        intro k' hk'
        have hc : k'.castSucc ≠ k.castSucc := fun he => hne k' hk' (Fin.castSucc_inj.mp he)
        rw [update_of_ne (by simp [hne k' hk']), update_of_ne hc]
        exact hR k' (mem_cons_of_mem _ hk')
      obtain ⟨f, d', hd', hf, hfk⟩ :=
        @ih _ { ip with addrs := update ip.addrs k.castSucc 0 } _ hn hf1.held hR1
      refine ⟨f, d', ?_, hf1.trans hf, fun k' => ?_⟩
      · rw [if_neg h0, hd1]
        exact hd'
      · rw [hfk k']
        by_cases hkk : k' = k.castSucc <;> simp [hkk]

theorem truncEntries_ok {l : List (Fin NINDIRECT)} (hn : l.Nodup) (hb : lay.nmeta ≤ b.toNat)
    (h : Held lay d R) (hR : ∀ k ∈ l, R (i, .entry k) = toRef ((d b).int k)) :
    ∃ d', truncEntries lay b (l.map Fin.val) d = .ok d' ∧
      Freed lay d d' (clear R (l.map fun k => (i, .entry k))) := by
  induction l generalizing d R with
  | nil =>
    refine ⟨d, rfl, ⟨?_, rfl, rfl⟩⟩
    exact h
  | cons k l ih =>
    obtain ⟨hk, hn⟩ := nodup_cons.mp hn
    have hRk := hR k (mem_cons_self ..)
    rw [map_cons, map_cons, truncEntries, clear_cons]
    by_cases h0 : (d b).int k = 0
    · rw [h0, toRef_zero] at hRk
      obtain ⟨d', hd', hf⟩ := ih hn h fun k' hk' => hR k' (mem_cons_of_mem _ hk')
      refine ⟨d', by rw [if_pos h0, hd'], ?_⟩
      rwa [← hRk, update_eq_self]
    · rw [toRef_of_ne h0] at hRk
      obtain ⟨d1, hd1, hf1⟩ := h.bfree hRk
      have hdb : d1 b = d b := by
        have := congrFun hf1.data b
        rwa [data, data, if_pos hb, if_pos hb] at this
      obtain ⟨d', hd', hf⟩ := ih hn hf1.held fun k' hk' => by
        have hne : k' ≠ k := by
          rintro rfl
          exact hk hk'
        rw [update_of_ne (by simp [hne]), hdb]
        exact hR k' (mem_cons_of_mem _ hk')
      refine ⟨d', ?_, hf1.trans hf⟩
      rw [if_neg h0, hd1]
      exact hd'

/-- The positions of the indirect block of the inode `i`. -/
def indirects (i : Nat) : List (Nat × Slot) :=
  (List.finRange NINDIRECT).map (fun k => (i, .entry k)) ++ [(i, .indirect)]

theorem truncIndirect_ok (ip : Inode) (h : Held lay d R)
    (hi : R (i, .indirect) = toRef (ip.addrs INDIRECT))
    (hR : ∀ k, R (i, .entry k) =
      (toRef (ip.addrs INDIRECT)).bind fun b => toRef ((data lay d b).int k)) :
    ∃ d', truncIndirect lay ip d =
        .ok ({ ip with addrs := update ip.addrs INDIRECT 0 }, d') ∧
      Freed lay d d' (clear R (indirects i)) := by
  unfold truncIndirect
  by_cases h0 : ip.addrs INDIRECT = 0
  · rw [h0] at hi
    refine ⟨d, ?_, ⟨?_, rfl, rfl⟩⟩
    · rw [if_pos h0, ← h0, update_eq_self]
    · rw [clear_of_none]
      · exact h
      · intro p hp
        rcases mem_append.mp hp with hp | hp
        · obtain ⟨k, -, rfl⟩ := mem_map.mp hp
          rw [hR, h0]
          rfl
        · rw [mem_singleton.mp hp]
          exact hi
  · rw [toRef_of_ne h0] at hi hR
    have hb := (h.owns.mem hi).1
    have hRe : ∀ k ∈ finRange NINDIRECT,
        R (i, .entry k) = toRef ((d (ip.addrs INDIRECT)).int k) := by
      intro k _
      rw [hR, Option.bind_some, data, if_pos hb]
    obtain ⟨d1, hd1, hf1⟩ := truncEntries_ok (nodup_finRange _) hb h hRe
    have hi1 : clear R ((finRange NINDIRECT).map fun k => (i, .entry k)) (i, .indirect) =
        some (ip.addrs INDIRECT) := by
      rw [clear, if_neg (by simp), hi]
    obtain ⟨d2, hd2, hf2⟩ := hf1.held.bfree hi1
    refine ⟨d2, ?_, ?_⟩
    · rw [if_neg h0, ← map_coe_finRange_eq_range, hd1]
      dsimp only
      rw [hd2]
    · rw [indirects, clear_append, clear_cons]
      exact hf1.trans hf2

/-- The positions of the inode `i`. -/
def slots (i : Nat) : List (Nat × Slot) :=
  (List.finRange NDIRECT).map (fun k => (i, .direct k)) ++ indirects i

theorem clear_slots (hy : ∀ s, y.ref c s = none) :
    clear (refs (update D i x) c) (slots i) = refs (update D i y) c := by
  funext ⟨j, s⟩
  by_cases hj : j = i
  · subst hj
    rw [refs_update_self, hy, clear]
    cases s <;> simp [slots, indirects]
  · rw [refs_update_of_ne hj, clear, refs_update_of_ne hj]
    simp [slots, indirects, Ne.symm hj, hj]

/-- No position has got a block that was used. -/
def NoReuse (lay : Layout) (d d' : Disk) : Prop := ∀ p b,
  refs (dino lay d') (data lay d') p = some b →
    refs (dino lay d) (data lay d) p = some b ∨ used lay d b = false

/-- The inode `ip` has changed to `ip'`, which is on the disk. -/
structure Stored (lay : Layout) (d : Disk) (ip : Inode) (d' : Disk) (ip' : Inode) : Prop where
  sound : Sound lay (used lay d') (dino lay d') (data lay d')
  dino : ∃ x, dino lay d' = Function.update (dino lay d) ip.inum x ∧ x.Same ip'.toDinode
  inum : ip'.inum = ip.inum
  ref : ip'.ref = ip.ref
  type : ip'.type = ip.type
  fresh : ∀ p b, refs (Ino.dino lay d') (data lay d') p = some b →
    refsAt lay d ip p = some b ∨ used lay d b = false

theorem itrunc_ok (h : SoundAt lay d ip) (ht : ip.type ≠ 0) (hi : ip.inum < lay.ninodes) :
    ∃ d', itrunc lay ip d = .ok ({ ip with size := 0, addrs := fun _ => 0 }, d') ∧
      Stored lay d ip d' { ip with size := 0, addrs := fun _ => 0 } := by
  obtain ⟨f, d1, hd1, hf1, hf⟩ := truncDirect_ok (i := ip.inum) (nodup_finRange NDIRECT)
    (R := refsAt lay d ip) ⟨h.owns, h.reserved⟩ fun k _ => by rw [refsAt_inum, ref_direct ht]
  have hfi : f INDIRECT = ip.addrs INDIRECT := by
    rw [hf, if_neg]
    intro hmem
    obtain ⟨k, -, hk⟩ := mem_map.mp hmem
    exact absurd (congrArg Fin.val hk) (ne_of_lt k.isLt)
  have hkeep : ∀ s, (∀ k, s ≠ .direct k) → clear (refsAt lay d ip)
      ((finRange NDIRECT).map fun k => (ip.inum, .direct k)) (ip.inum, s) =
        ip.toDinode.ref (data lay d) s := by
    intro s hs
    rw [clear, if_neg, refsAt_inum]
    intro hmem
    obtain ⟨k, -, hk⟩ := mem_map.mp hmem
    exact hs k (congrArg Prod.snd hk).symm
  obtain ⟨d2, hd2, hf2⟩ := truncIndirect_ok (i := ip.inum) { ip with addrs := f } hf1.held
    (by rw [hkeep _ fun _ => Slot.noConfusion, ref_indirect ht, ← hfi])
    (fun k => by rw [hkeep _ fun _ => Slot.noConfusion, ref_entry ht, ← hfi, hf1.data])
  have hzero : update f INDIRECT 0 = fun _ => 0 := by
    funext k
    by_cases hk : k = INDIRECT
    · rw [hk, update_self]
    · have hlt : k.val < NDIRECT := by
        have hne : k.val ≠ NDIRECT := fun hv => hk (Fin.ext hv)
        have := k.isLt
        omega
      rw [update_of_ne hk, hf, if_pos]
      exact mem_map.mpr ⟨⟨k.val, hlt⟩, mem_finRange _, rfl⟩
  have hv := iupdate_views (d := d2) { ip with size := 0, addrs := fun _ => 0 } hi
  rw [hf2.dino, hf1.dino, hf2.data, hf1.data] at hv
  have hr : clear (clear (refsAt lay d ip)
      ((finRange NDIRECT).map fun k => (ip.inum, .direct k))) (indirects ip.inum) =
        refs (update (dino lay d) ip.inum
          { ip.toDinode with size := 0, addrs := fun _ => 0 }) (data lay d) := by
    rw [← clear_append]
    exact clear_slots ref_zero
  refine ⟨_, ?_, ⟨⟨?_, ?_, ?_⟩, ⟨_, hv.dino, rfl, rfl, rfl⟩, rfl, rfl, rfl, fun p b hb => .inl ?_⟩⟩
  · unfold itrunc
    rw [hd1]
    dsimp only
    rw [hd2, hzero]
  · rw [hv.used, hv.dino, hv.data]
    have ho := hf2.held.owns
    rwa [hr] at ho
  · rw [hv.used]
    exact hf2.held.reserved
  · rw [hv.dino, hv.data]
    intro j bn hj hbn
    by_cases hji : j = ip.inum
    · rw [hji, update_self] at hbn
      exact absurd hbn (Nat.not_lt_zero _)
    · rw [update_of_ne hji] at hj hbn
      have hcov := h.covered j bn
      rw [current, update_of_ne hji] at hcov
      obtain ⟨s, hs, hne⟩ := hcov hj hbn
      rw [refs_update_of_ne hji] at hne
      refine ⟨s, hs, ?_⟩
      rwa [refs_update_of_ne hji]
  · rw [hv.dino, hv.data] at hb
    have hb' : refs (update (dino lay d) ip.inum
        { ip.toDinode with size := 0, addrs := fun _ => 0 }) (data lay d) p = some b := hb
    rw [← hr] at hb'
    exact clear_eq_some (clear_eq_some hb')

/-! ## Writing -/

/-- An inode that has taken blocks and is written back, with a size up to which they are there. -/
theorem Grown.stored (hg : Grown lay d ip d' ip') (hi : ip.inum < lay.ninodes)
    (hc : CoveredTo lay d' ip' v.toNat) :
    Stored lay d ip (iupdate lay { ip' with size := v } d') { ip' with size := v } := by
  have hv := iupdate_views (d := d') { ip' with size := v } (by rwa [hg.inum])
  have hs := Sound.setSize hg.sound hc
  refine ⟨?_, ⟨{ ip'.toDinode with size := v }, ?_, rfl, rfl, rfl⟩, hg.inum, ?_, hg.type, ?_⟩
  · rw [hv.used, hv.dino, hv.data]
    exact hs
  · rw [hv.dino, hg.dino]
    rw [hg.inum]
  · obtain ⟨f, rfl⟩ := hg.addrs
    rfl
  · intro p b hb
    rw [hv.dino, hv.data] at hb
    exact hg.fresh p b ((congrFun (refs_setSize v) p).symm.trans hb)

theorem Stored.refl (h : SoundAt lay d ip) (hd : (Ino.dino lay d ip.inum).Same ip.toDinode) :
    Stored lay d ip d ip := by
  have hs : ∀ j, (current lay d ip j).Same (Ino.dino lay d j) := by
    intro j
    by_cases hj : j = ip.inum
    · rw [hj, current, update_self]
      exact ⟨hd.1.symm, hd.2.1.symm, hd.2.2.symm⟩
    · rw [current, update_of_ne hj]
      exact ⟨rfl, rfl, rfl⟩
  refine ⟨Sound.same h hs, ⟨_, (update_eq_self ..).symm, hd⟩, rfl, rfl, rfl,
    fun p b hb => .inl ?_⟩
  rwa [refs_same hs] at hb

theorem writei_stored {copyin : Copyin} {off n : BitVec 32} {v : Int} (h : SoundAt lay d ip)
    (hd : (dino lay d ip.inum).Same ip.toDinode) (ht : ip.type ≠ 0) (hi : ip.inum < lay.ninodes)
    (hw : writei lay copyin ip off n d = .ok (v, ip', d')) : Stored lay d ip d' ip' := by
  unfold writei at hw
  split at hw
  · cases hw
    exact .refl h hd
  · next hoff =>
    split at hw
    · cases hw
      exact .refl h hd
    · next hmax =>
      split at hw
      · cases hw
      · next tot off' ip1 d1 hl =>
        rw [not_or, not_lt, not_lt, le_def, le_def,
          toNat_add] at hoff
        have hc : CoveredTo lay d ip off.toNat := fun bn hbn =>
          h.coveredTo ht bn (lt_of_lt_of_le hbn hoff.1)
        obtain ⟨hg, hc', hle⟩ := writeLoop_grown h ht hc hl
        cases hw
        split
        · next hlt =>
          have hv : (ofNat 32 off').toNat = off' := by
            rw [BitVec.toNat_ofNat]
            omega
          exact hg.stored hi (by rwa [hv])
        · exact hg.stored hi (hg.sound.coveredTo (by rwa [hg.type]))

theorem writei_eq_error {copyin : Copyin} {off n : BitVec 32}
    (hw : writei lay copyin ip off n d = .error msg) : msg = "balloc: out of blocks" := by
  unfold writei at hw
  split at hw
  · cases hw
  · next hoff =>
    split at hw
    · cases hw
    · next hmax =>
      split at hw
      · next hl =>
        cases hw
        refine writeLoop_eq_error ?_ hl
        rw [not_or, not_lt, not_lt, le_def, le_def,
          toNat_add] at hoff
        rw [toNat_add] at hmax
        omega
      · cases hw

/-! ## The inode table -/

/-- The entries of `itable` that are in use are for different inodes. -/
structure TableOk (lay : Layout) (f : Fin NINODE → Inode) : Prop where
  lt : ∀ k, 0 < (f k).ref → (f k).inum < lay.ninodes
  inj : ∀ k k', 0 < (f k).ref → 0 < (f k').ref → (f k).inum = (f k').inum → k = k'

/-- `ip` is an inode of the disk, if it was read. -/
def Copy (lay : Layout) (d : Disk) (ip : Inode) : Prop :=
  ip.InUse → ip.type ≠ 0 ∧ (dino lay d ip.inum).Same ip.toDinode

structure Inv (lay : Layout) (s : St) : Prop where
  sound : Sound lay (used lay s.disk) (dino lay s.disk) (data lay s.disk)
  table : TableOk lay s.inode
  copy : ∀ k, Copy lay s.disk (s.inode k)

variable {s s' : St} {k : Fin NINODE} {f : Fin NINODE → Inode}

/-- The entry `k` changes, but not its inode. -/
theorem TableOk.set (h : TableOk lay f) (hn : ip.inum = (f k).inum)
    (hr : 0 < ip.ref → 0 < (f k).ref) : TableOk lay (update f k ip) := by
  have hold : ∀ j, (update f k ip j).inum = (f j).inum ∧
      (0 < (update f k ip j).ref → 0 < (f j).ref) := by
    intro j
    by_cases hj : j = k
    · subst hj
      rw [update_self]
      exact ⟨hn, hr⟩
    · rw [update_of_ne hj]
      exact ⟨rfl, id⟩
  refine ⟨fun j hj => ?_, fun j j' hj hj' he => ?_⟩
  · rw [(hold j).1]
    exact h.lt j ((hold j).2 hj)
  · rw [(hold j).1, (hold j').1] at he
    exact h.inj j j' ((hold j).2 hj) ((hold j').2 hj') he

/-- A free entry takes an inode that no entry has. -/
theorem TableOk.add (h : TableOk lay f) (hi : ip.inum < lay.ninodes)
    (hno : ∀ j, 0 < (f j).ref → (f j).inum ≠ ip.inum) : TableOk lay (update f k ip) := by
  refine ⟨fun j hj => ?_, fun j j' hj hj' he => ?_⟩
  · by_cases hjk : j = k
    · rwa [hjk, update_self]
    · rw [update_of_ne hjk] at hj ⊢
      exact h.lt j hj
  · refine eq_of_update (P := fun x : Inode => 0 < x.ref ∧ x.inum = (update f k ip j').inum)
      (fun i i' hi hi' => h.inj i i' hi.1 hi'.1 (hi.2.trans hi'.2.symm))
      (fun hk i _ hi => hno i hi.1 (hi.2.trans hk.2.symm)) ⟨hj, he⟩ ⟨hj', rfl⟩

/-- Only the inode `i` of the disk changes, and the entry `k`. -/
theorem copy_update (h : ∀ j, Copy lay d (f j))
    (hd : dino lay d' = update (dino lay d) i x)
    (hno : ∀ j, j ≠ k → (f j).InUse → (f j).inum ≠ i) (hk : Copy lay d' ip) (j : Fin NINODE) :
    Copy lay d' (update f k ip j) := by
  by_cases hj : j = k
  · rw [hj, update_self]
    exact hk
  · rw [update_of_ne hj]
    intro hu
    rw [hd, update_of_ne (hno j hj hu)]
    exact h j hu

theorem Inv.soundAt (h : Inv lay s) (hk : (s.inode k).InUse) : SoundAt lay s.disk (s.inode k) := by
  refine Sound.same h.sound fun j => ?_
  by_cases hj : j = (s.inode k).inum
  · rw [hj, current, update_self]
    exact (h.copy k hk).2
  · rw [current, update_of_ne hj]
    exact ⟨rfl, rfl, rfl⟩

theorem Inv.refsAt (h : Inv lay s) (hk : (s.inode k).InUse) :
    refsAt lay s.disk (s.inode k) = refs (dino lay s.disk) (data lay s.disk) := by
  refine refs_same fun j => ?_
  by_cases hj : j = (s.inode k).inum
  · rw [hj, current, update_self]
    exact (h.copy k hk).2
  · rw [current, update_of_ne hj]
    exact ⟨rfl, rfl, rfl⟩

theorem NoReuse.refl : NoReuse lay d d := fun _ _ => .inl

/-- The entry `k` changes. -/
theorem Inv.set (h : Inv lay s) (hn : ip.inum = (s.inode k).inum)
    (hr : 0 < ip.ref → 0 < (s.inode k).ref) (hc : Copy lay s.disk ip) : Inv lay (s.set k ip) := by
  refine ⟨h.sound, h.table.set hn hr, fun j => ?_⟩
  show Copy lay s.disk (update s.inode k ip j)
  by_cases hj : j = k
  · rwa [hj, update_self]
  · rw [update_of_ne hj]
    exact h.copy j

/-- The entry `k` changes, with its inode on the disk. -/
theorem Inv.stored (h : Inv lay s) (hk : (s.inode k).InUse)
    (hst : Stored lay s.disk (s.inode k) d' ip') :
    Inv lay { s.set k ip' with disk := d' } ∧ NoReuse lay s.disk d' := by
  obtain ⟨x, hx, hsame⟩ := hst.dino
  refine ⟨⟨hst.sound, h.table.set hst.inum ?_, ?_⟩, ?_⟩
  · rw [hst.ref]
    exact id
  · refine copy_update h.copy hx (fun j hj hu he => hj (h.table.inj j k hu.1 hk.1 he))
      fun _ => ⟨?_, ?_⟩
    · rw [hst.type]
      exact (h.copy k hk).1
    · rw [hst.inum, hx, update_self]
      exact hsame
  · intro p b hb
    rw [← h.refsAt hk]
    exact hst.fresh p b hb

theorem igetLoop_spec {l : List (Fin NINODE)} {e : Option (Fin NINODE)} :
    match igetLoop i f l e with
    | .inl k => 0 < (f k).ref ∧ (f k).inum = i
    | .inr _ => ∀ k ∈ l, 0 < (f k).ref → (f k).inum ≠ i := by
  induction l generalizing e with
  | nil =>
    nofun
  | cons k l ih =>
    rw [igetLoop]
    by_cases hk : 0 < (f k).ref ∧ (f k).inum = i
    · rw [if_pos hk]
      exact hk
    · rw [if_neg hk]
      have := @ih (if e = none ∧ (f k).ref = 0 then some k else e)
      split
      · next hl =>
        rwa [hl] at this
      · next hl =>
        rw [hl] at this
        intro k' hk' hr he
        rcases mem_cons.mp hk' with rfl | hk'
        · exact hk ⟨hr, he⟩
        · exact this k' hk' hr he

theorem Inv.iget (h : Inv lay s) (hi : i < lay.ninodes) (hg : iget i s = .ok (k, s')) :
    Inv lay s' ∧ s'.disk = s.disk := by
  unfold Ino.iget at hg
  have hl := @igetLoop_spec i s.inode (finRange NINODE) none
  split at hg
  · next k' he =>
    rw [he] at hl
    cases hg
    exact ⟨h.set rfl (fun _ => hl.1) fun hu => h.copy k ⟨hl.1, hu.2⟩, rfl⟩
  · next k' he =>
    rw [he] at hl
    cases hg
    refine ⟨⟨h.sound, h.table.add hi fun j => hl j (mem_finRange j), fun j => ?_⟩, rfl⟩
    show Copy lay s.disk (update s.inode k _ j)
    by_cases hj : j = k
    · rw [hj, update_self]
      exact fun hu => nomatch hu.2
    · rw [update_of_ne hj]
      exact h.copy j
  · cases hg

theorem iallocFrom_eq_ok {n : Nat} (h : iallocFrom lay type n i s =
    .ok (k, s')) :
    ∃ j < lay.ninodes, (dino lay s.disk j).type = 0 ∧
      iget j { s with
        disk := update s.disk (IBLOCK lay j)
          (Dinode.put (s.disk (IBLOCK lay j)) (j % IPB) { type }) } = .ok (k, s') := by
  induction n generalizing i with
  | zero => cases h
  | succ n ih =>
    rw [iallocFrom] at h
    split at h
    · next hi =>
      dsimp only at h
      split at h
      · next h0 => exact ⟨i, hi, by rwa [dino, if_pos hi], h⟩
      · exact ih h
    · cases h

theorem Inv.ialloc (h : Inv lay s) (he : ialloc lay type s = .ok (k, s')) :
    Inv lay s' ∧ NoReuse lay s.disk s'.disk := by
  obtain ⟨j, hj, h0, hg⟩ := iallocFrom_eq_ok he
  have hv := views_put (d := s.disk) hj (x := { type })
  obtain ⟨hs, hr⟩ := h.sound.replace (fun t => ref_free h0 t)
    (ref_zero) (.inr rfl)
  have hinv : Inv lay { s with
      disk := update s.disk (IBLOCK lay j)
        (Dinode.put (s.disk (IBLOCK lay j)) (j % IPB) { type }) } := by
    refine ⟨?_, h.table, fun k' hu => ?_⟩
    · rw [hv.used, hv.dino, hv.data]
      exact hs
    · obtain ⟨ht, hsame⟩ := h.copy k' hu
      refine ⟨ht, ?_⟩
      rw [hv.dino, update_of_ne]
      · exact hsame
      · intro hjk
        rw [hjk] at hsame
        exact ht (hsame.1.symm.trans h0)
  obtain ⟨hinv', hd⟩ := hinv.iget hj hg
  refine ⟨hinv', fun p b hb => .inl ?_⟩
  rwa [hd, hv.dino, hv.data, hr] at hb

theorem Inv.ilock (h : Inv lay s) (he : ilock lay k s = .ok s') :
    Inv lay s' ∧ NoReuse lay s.disk s'.disk := by
  unfold Ino.ilock at he
  dsimp only at he
  split at he
  · cases he
  · next href =>
    split at he
    · cases he
      exact ⟨h, .refl⟩
    · split at he
      · cases he
      · next ht =>
        cases he
        have hlt := h.table.lt k (Nat.pos_of_ne_zero fun h0 => href (by rw [h0]; decide))
        refine ⟨h.set rfl (fun hr => hr) fun _ => ⟨ht, ?_⟩, .refl⟩
        rw [dino, if_pos hlt]
        exact ⟨rfl, rfl, rfl⟩

theorem Inv.iput (h : Inv lay s) (hk : 0 < (s.inode k).ref) : ∃ s', iput lay k s = .ok s' ∧
    Inv lay s' ∧ NoReuse lay s.disk s'.disk := by
  unfold Ino.iput
  dsimp only
  split
  · next hfree =>
    have hu : (s.inode k).InUse := ⟨hk, hfree.2.1⟩
    have hlt := h.table.lt k hk
    obtain ⟨d1, hd1, hst⟩ := itrunc_ok (h.soundAt hu) (h.copy k hu).1 hlt
    obtain ⟨x, hx, hsame⟩ := hst.dino
    rw [hd1]
    dsimp only
    have hv := iupdate_views (d := d1)
      { s.inode k with size := 0, addrs := fun _ => 0, type := 0 } hlt
    obtain ⟨hs, hr⟩ := hst.sound.replace (i := (s.inode k).inum)
      (y := { (s.inode k).toDinode with size := 0, addrs := fun _ => 0, type := 0 })
      (fun t => by rw [hx, update_self, hsame.ref]; exact ref_zero t)
      (ref_zero) (.inr rfl)
    refine ⟨_, rfl, ⟨?_, h.table.set rfl fun _ => hk, ?_⟩, fun p b hb => ?_⟩
    · dsimp only
      rw [hv.used, hv.dino, hv.data]
      exact hs
    · refine copy_update h.copy
        (x := { (s.inode k).toDinode with size := 0, addrs := fun _ => 0, type := 0 }) ?_
        (fun j hj hu' he => hj (h.table.inj j k hu'.1 hk he)) fun hu' => nomatch hu'.2
      rw [hv.dino, hx]
      exact update_idem ..
    · rw [hv.dino, hv.data] at hb
      rw [← h.refsAt hu]
      exact hst.fresh p b ((congrFun hr p).symm.trans hb)
  · refine ⟨_, rfl, h.set rfl (fun _ => hk) fun hu => ?_, .refl⟩
    exact h.copy k ⟨hk, hu.2⟩

/-! ## Runs -/

theorem map_eq_ok {α β : Type} {e : Except String α} {g : α → β} {v : β} (h : e.map g = .ok v) :
    ∃ w, e = .ok w ∧ g w = v := by
  cases e with
  | error msg => cases h
  | ok w =>
    cases h
    exact ⟨w, rfl, rfl⟩

theorem map_eq_error {α β : Type} {e : Except String α} {g : α → β} (h : e.map g = .error msg) :
    e = .error msg := by
  cases e with
  | error msg' =>
    cases h
    rfl
  | ok w => cases h

theorem set_self (s : St) (k : Fin NINODE) : s.set k (s.inode k) = s := by
  simp [St.set]

theorem Inv.exec (h : Inv lay s) (hl : op.Legal lay s) (he : exec lay s op = .ok s') :
    Inv lay s' ∧ NoReuse lay s.disk s'.disk := by
  cases op with
  | ialloc type =>
    obtain ⟨⟨k, s1⟩, h1, rfl⟩ := map_eq_ok he
    exact h.ialloc h1
  | iget inum =>
    obtain ⟨⟨k, s1⟩, h1, rfl⟩ := map_eq_ok he
    obtain ⟨hinv, hd⟩ := h.iget hl h1
    refine ⟨hinv, ?_⟩
    rw [hd]
    exact .refl
  | idup k =>
    cases he
    exact ⟨h.set rfl (fun _ => hl) fun hu => h.copy k ⟨hl, hu.2⟩, .refl⟩
  | ilock k => exact h.ilock he
  | setattr k major minor nlink =>
    cases he
    exact ⟨h.set rfl id (h.copy k), .refl⟩
  | iupdate k =>
    cases he
    have hst : Stored lay s.disk (s.inode k) (iupdate lay (s.inode k) s.disk) (s.inode k) :=
      (Grown.refl (h.soundAt hl)).stored (h.table.lt k hl.1)
        ((h.soundAt hl).coveredTo (h.copy k hl).1)
    have := h.stored hl hst
    rwa [set_self] at this
  | readi k copyout off n =>
    obtain ⟨v, hv⟩ := readi_same copyout off n (h.soundAt hl)
      (h.copy k hl).1
    obtain ⟨_, h1, rfl⟩ := map_eq_ok he
    cases hv.symm.trans h1
    dsimp only
    rw [set_self]
    exact ⟨h, .refl⟩
  | writei k copyin off n =>
    obtain ⟨⟨v, ip, d⟩, h1, rfl⟩ := map_eq_ok he
    obtain ⟨ht, hd⟩ := h.copy k hl
    exact h.stored hl (writei_stored (h.soundAt hl) hd ht (h.table.lt k hl.1) h1)
  | itrunc k =>
    obtain ⟨d', hd', hst⟩ := itrunc_ok (h.soundAt hl) (h.copy k hl).1 (h.table.lt k hl.1)
    obtain ⟨_, h1, rfl⟩ := map_eq_ok he
    cases hd'.symm.trans h1
    exact h.stored hl hst
  | iput k =>
    obtain ⟨s1, h1, h2⟩ := h.iput hl
    cases h1.symm.trans he
    exact h2

theorem iget_eq_error (h : iget i s = .error msg) : msg = "iget: no inodes" := by
  unfold iget at h
  split at h
  · cases h
  · cases h
  · cases h
    rfl

theorem iallocFrom_eq_error {n : Nat} (h : iallocFrom lay type n i s = .error msg) :
    msg = "ialloc: no inodes" ∨ msg = "iget: no inodes" := by
  induction n generalizing i with
  | zero =>
    cases h
    exact .inl rfl
  | succ n ih =>
    rw [iallocFrom] at h
    split at h
    · dsimp only at h
      split at h
      · exact .inr (iget_eq_error h)
      · exact ih h
    · cases h
      exact .inl rfl

theorem ilock_eq_error (h : ilock lay k s = .error msg) :
    msg = "ilock" ∨ msg = "ilock: no type" := by
  unfold ilock at h
  dsimp only at h
  split at h
  · cases h
    exact .inl rfl
  · split at h
    · cases h
    · split at h
      · cases h
        exact .inr rfl
      · cases h

/-- The panics that a call can end in. -/
theorem Inv.exec_error (h : Inv lay s) (hl : op.Legal lay s) (he : Ino.exec lay s op = .error msg) :
    msg ∈ ["balloc: out of blocks", "ialloc: no inodes",
      "iget: no inodes", "ilock", "ilock: no type"] := by
  cases op with
  | ialloc type => rcases iallocFrom_eq_error (map_eq_error he) with rfl | rfl <;> decide
  | iget inum =>
    rw [iget_eq_error (map_eq_error he)]
    decide
  | idup k => cases he
  | ilock k => rcases ilock_eq_error he with rfl | rfl <;> decide
  | setattr k major minor nlink => cases he
  | iupdate k => cases he
  | readi k copyout off n =>
    obtain ⟨v, hv⟩ := readi_same copyout off n (h.soundAt hl)
      (h.copy k hl).1
    cases hv.symm.trans (map_eq_error he)
  | writei k copyin off n =>
    rw [writei_eq_error (map_eq_error he)]
    decide
  | itrunc k =>
    obtain ⟨d', hd', -⟩ := itrunc_ok (h.soundAt hl) (h.copy k hl).1 (h.table.lt k hl.1)
    cases hd'.symm.trans (map_eq_error he)
  | iput k =>
    obtain ⟨s1, h1, -⟩ := h.iput hl
    cases h1.symm.trans he

/-- A consistent image: each block has at most one reference from an inode, the bitmap has the
metadata and the blocks with a reference, and the blocks below the size of an inode are there. -/
structure Consistent (lay : Layout) (d : Disk) : Prop where
  isData : ∀ {p b}, refs (dino lay d) (data lay d) p = some b → lay.DataBlock b
  unique : ∀ {p q b}, refs (dino lay d) (data lay d) p = some b →
    refs (dino lay d) (data lay d) q = some b → p = q
  bitmap : ∀ b, b.toNat < lay.size → (used lay d b = true ↔
    b.toNat < lay.nmeta ∨ ∃ p, refs (dino lay d) (data lay d) p = some b)
  covered : ∀ i bn, (dino lay d i).type ≠ 0 → bn * BSIZE < (dino lay d i).size.toNat →
    ∃ s, Slot.ofBlock bn = some s ∧ refs (dino lay d) (data lay d) (i, s) ≠ none

theorem consistent_iff :
    Consistent lay d ↔ Sound lay (used lay d) (dino lay d) (data lay d) := by
  constructor
  · intro h
    refine ⟨⟨h.unique, h.isData, fun {b} hb => ?_⟩, fun b hb => ?_, h.covered⟩
    · rw [h.bitmap b hb.2, or_iff_right (not_lt.mpr hb.1)]
    · exact (h.bitmap b (lt_of_lt_of_le hb lay.nmeta_le)).mpr (.inl hb)
  · intro h
    refine ⟨h.owns.mem, h.owns.inj, fun b hb => ?_, h.covered⟩
    by_cases hm : b.toNat < lay.nmeta
    · exact ⟨fun _ => .inl hm, fun _ => h.reserved b hm⟩
    · rw [h.owns.marked ⟨Nat.le_of_not_lt hm, hb⟩, or_iff_right hm]

/-- What holds between calls: the disk is consistent, an inode in use has the references that it has
on the disk, no call frees a free block, and a call takes only blocks that have no reference. -/
structure Accounted (lay : Layout) (s : St) : Prop where
  consistent : Consistent lay s.disk
  inUse : ∀ k, (s.inode k).InUse → ∀ t, (s.inode k).toDinode.ref (data lay s.disk) t =
    refs (dino lay s.disk) (data lay s.disk) ((s.inode k).inum, t)
  bfree : ∀ op, op.Legal lay s → exec lay s op ≠ .error "freeing free block"
  balloc : ∀ {a d'}, balloc lay s.disk = .ok (a, d') →
    lay.DataBlock a ∧ ∀ p, refs (dino lay s.disk) (data lay s.disk) p ≠ some a
  taken : ∀ {op s' p b}, (machine lay).next s op = some s' →
    refs (dino lay s'.disk) (data lay s'.disk) p = some b →
      refs (dino lay s.disk) (data lay s.disk) p = some b ∨
        ∀ q, refs (dino lay s.disk) (data lay s.disk) q ≠ some b

theorem next_eq_some (h : (machine lay).next s op = some s') :
    op.Legal lay s ∧ exec lay s op = .ok s' := by
  unfold machine at h
  dsimp only at h
  split at h
  · next hl =>
    cases he : exec lay s op with
    | error msg =>
      rw [he] at h
      cases h
    | ok s1 =>
      rw [he] at h
      cases h
      exact ⟨hl, rfl⟩
  · cases h

theorem Inv.accounted (h : Inv lay s) : Accounted lay s := by
  refine ⟨consistent_iff.mpr h.sound, fun k hk t => ?_, fun op hl he => ?_, fun {a d'} hb => ?_,
    fun {op s' p b} hn hp => ?_⟩
  · rw [← h.refsAt hk, refsAt_inum]
  · exact absurd (h.exec_error hl he) (by decide)
  · obtain ⟨ha, hu, -⟩ := balloc_eq_ok h.sound.reserved hb
    exact ⟨ha, h.sound.owns.fresh hu⟩
  · obtain ⟨hl, he⟩ := next_eq_some hn
    exact ((h.exec hl he).2 p b hp).imp_right h.sound.owns.fresh

theorem inv_of_run (lay : Layout) {d : Disk} (hd : Consistent lay d) {ops : List Op} {s : St}
    (hr : (machine lay).run { disk := d } ops = some s) : Inv lay s := by
  have h0 : Inv lay { disk := d } :=
    ⟨consistent_iff.mp hd, ⟨fun _ hk => absurd hk (lt_irrefl 0),
      fun _ _ hk => absurd hk (lt_irrefl 0)⟩, fun _ hu => absurd hu.1 (lt_irrefl 0)⟩
  refine Machine.run_inv_all (fun hi hn => ?_) h0 hr
  obtain ⟨hl, he⟩ := next_eq_some hn
  exact (hi.exec hl he).1

/-- From a consistent image, any sequence of calls keeps the ownership of the blocks. -/
theorem blocks_accounted (lay : Layout) {d : Disk} (hd : Consistent lay d) {ops : List Op} {s : St}
    (hr : (machine lay).run { disk := d } ops = some s) : Accounted lay s :=
  (inv_of_run lay hd hr).accounted

/-- Three blocks of metadata and five for data. -/
def smallLayout : Layout where
  size := 8
  ninodes := 16
  inodestart := 1
  bmapstart := 2
  nmeta := 3
  inode_lt := by decide
  bmap_lt := by decide
  nmeta_pos := by decide
  nmeta_le := by decide
  size_lt := by decide

/-- An image without files. -/
def emptyImage : Disk := fun b j => if b = 2 ∧ j.val = 0 then 7 else 0

theorem consistent_emptyImage : Consistent smallLayout emptyImage := by
  have ht : ∀ i, (dino smallLayout emptyImage i).type = 0 := by
    intro i
    unfold dino
    split
    · next hi =>
      have hb : emptyImage (IBLOCK smallLayout i) = fun _ => 0 := by
        have : IBLOCK smallLayout i ≠ 2 := by
          intro he
          have h := IBLOCK_lt hi
          rw [he] at h
          exact absurd h (by decide)
        funext j
        exact if_neg fun h => this h.1
      rw [hb]
      show ((Block.int (fun _ => 0) _).extractLsb' 0 16 : BitVec 16) = 0
      rw [int_zero]
      rfl
    · rfl
  have hr : ∀ p, refs (dino smallLayout emptyImage) (data smallLayout emptyImage) p = none :=
    fun p => ref_free (ht p.1) p.2
  have hu : ∀ n < 8, used smallLayout emptyImage (ofNat 32 n) = decide (n < 3) := by
    decide +kernel
  refine ⟨fun {p b} h => ?_, fun {p q b} h => ?_, fun b hb => ?_, fun i bn h => absurd (ht i) h⟩
  · rw [hr] at h
    cases h
  · rw [hr] at h
    cases h
  · have := hu b.toNat hb
    rw [BitVec.ofNat_toNat, BitVec.setWidth_eq] at this
    simp only [this, hr]
    simp [smallLayout]

/-- The first entry of `itable`. -/
def entry0 : Fin NINODE := ⟨0, by decide⟩

/-- A file is made, and gets a block although the copy fails. -/
def failedWrite : List Op :=
  [.ialloc 2, .ilock entry0, .setattr entry0 0 0 1, .iupdate entry0,
    .writei entry0 (fun _ _ _ b => (b, false)) 0 5]

theorem blocks_accounted_failedWrite : ∃ s,
    (machine smallLayout).run { disk := emptyImage } failedWrite = some s ∧
      refs (dino smallLayout s.disk) (data smallLayout s.disk) (1, .direct ⟨0, by decide⟩) =
        some 3 ∧
      used smallLayout s.disk 3 = true ∧ Accounted smallLayout s := by
  have h : ((machine smallLayout).run { disk := emptyImage } failedWrite).map (fun s =>
      (refs (dino smallLayout s.disk) (data smallLayout s.disk) (1, .direct ⟨0, by decide⟩),
        used smallLayout s.disk 3)) = some (some 3, true) := by
    decide +kernel
  obtain ⟨s, hs, he⟩ := Option.map_eq_some_iff.mp h
  obtain ⟨hp, hu⟩ := Prod.mk.inj he
  exact ⟨s, hs, hp, hu, blocks_accounted smallLayout consistent_emptyImage hs⟩

end Xv6.Ino
