import Xv6Rcu.Fs.DiskView
import Xv6Rcu.Lib.Pool

/-!
# Block ownership

- `refs D c`: the block that a position of an inode refers to: a direct slot, the slot of the
  indirect block, or an entry of the indirect block. `D` are the inodes and `c` the data blocks.
- `Sound`: every data block has at most one reference, the bitmap has the metadata and the blocks
  with a reference, and the blocks below an inode's size are there.
-/

namespace Xv6.Ino

open Lib Fs Function
open Option (bind_none bind_some some_ne_none)
open BitVec (le_def not_lt toNat_add)

/-! ## References -/

/-- Where an inode can refer to a block. -/
inductive Slot where
  | direct (k : Fin NDIRECT)
  | indirect
  | entry (j : Fin NINDIRECT)
  deriving DecidableEq

/-- The address 0 is no reference. -/
def toRef (a : BlockNo) : Option BlockNo := if a = 0 then none else some a

/-- What an allocated inode refers to. -/
def Dinode.ref (x : Dinode) (c : BlockNo → Block) : Slot → Option BlockNo
  | .direct k => if x.type = 0 then none else toRef (x.addrs k.castSucc)
  | .indirect => if x.type = 0 then none else toRef (x.addrs INDIRECT)
  | .entry j =>
    if x.type = 0 then none else (toRef (x.addrs INDIRECT)).bind fun b => toRef ((c b).int j)

def refs (D : Nat → Dinode) (c : BlockNo → Block) (p : Nat × Slot) : Option BlockNo :=
  (D p.1).ref c p.2

/-- The slot of the block `bn` of a file. -/
def Slot.ofBlock (bn : Nat) : Option Slot :=
  if h : bn < NDIRECT then some (.direct ⟨bn, h⟩)
  else if h : bn - NDIRECT < NINDIRECT then some (.entry ⟨bn - NDIRECT, h⟩) else none

theorem Slot.ofBlock_ne {bn : Nat} {s : Slot} (h : Slot.ofBlock bn = some s) : s ≠ .indirect := by
  rintro rfl
  rw [ofBlock] at h
  split at h
  · cases h
  · split at h <;> cases h

structure Sound (lay : Layout) (u : BlockNo → Bool) (D : Nat → Dinode) (c : BlockNo → Block) :
    Prop where
  owns : Owns (refs D c) u lay.DataBlock
  reserved : ∀ b, b.toNat < lay.nmeta → u b = true
  covered : ∀ i bn, (D i).type ≠ 0 → bn * BSIZE < (D i).size.toNat →
    ∃ s, Slot.ofBlock bn = some s ∧ refs D c (i, s) ≠ none

variable {lay : Layout} {D D' : Nat → Dinode} {c c' : BlockNo → Block} {u : BlockNo → Bool}
  {x : Dinode} {a b : BlockNo} {i : Nat} {p : Nat × Slot} {s : Slot}

theorem Layout.DataBlock.ne_zero (h : lay.DataBlock a) : a ≠ 0 := by
  rintro rfl
  have h0 : lay.nmeta ≤ 0 := h.1
  have := lay.nmeta_pos
  omega

theorem toRef_eq_some (h : toRef a = some b) : a = b ∧ b ≠ 0 := by
  unfold toRef at h
  split at h
  · cases h
  · next ha =>
    cases h
    exact ⟨rfl, ha⟩

theorem toRef_zero : toRef 0 = none := if_pos rfl

theorem toRef_of_ne (h : a ≠ 0) : toRef a = some a := if_neg h

theorem ref_direct {k : Fin NDIRECT} (ht : x.type ≠ 0) :
    x.ref c (.direct k) = toRef (x.addrs k.castSucc) := if_neg ht

theorem ref_indirect (ht : x.type ≠ 0) : x.ref c .indirect = toRef (x.addrs INDIRECT) := if_neg ht

theorem ref_entry {j : Fin NINDIRECT} (ht : x.type ≠ 0) : x.ref c (.entry j) =
    (toRef (x.addrs INDIRECT)).bind fun b => toRef ((c b).int j) := if_neg ht

theorem ref_free (ht : x.type = 0) (s : Slot) : x.ref c s = none := by
  cases s <;> exact if_pos ht

theorem refs_update_self : refs (update D i x) c (i, s) = x.ref c s := by
  simp [refs]

theorem refs_update_of_ne {j : Nat} (h : j ≠ i) :
    refs (update D i x) c (j, s) = refs D c (j, s) := by
  simp [refs, h]

/-- The contents of a block matter only if it is an indirect block. -/
theorem refs_update_data {v : Block} (h : ∀ j, refs D c (j, .indirect) ≠ some a) :
    refs D (update c a v) = refs D c := by
  funext ⟨j, s⟩
  have hj := h j
  unfold refs at hj ⊢
  by_cases ht : (D j).type = 0
  · rw [ref_free ht, ref_free ht]
  · cases s with
    | direct k => rw [ref_direct ht, ref_direct ht]
    | indirect => rw [ref_indirect ht, ref_indirect ht]
    | entry k =>
      rw [ref_indirect ht] at hj
      rw [ref_entry ht, ref_entry ht]
      cases hb : toRef ((D j).addrs INDIRECT) with
      | none => rw [bind_none, bind_none]
      | some b =>
        have hba : b ≠ a := by
          rintro rfl
          exact hj hb
        simp [update_of_ne hba]

/-- A new reference in a direct slot. -/
theorem refs_setDirect {k : Fin NDIRECT} (ht : x.type ≠ 0) (ha : a ≠ 0) :
    refs (update D i { x with addrs := update x.addrs k.castSucc a }) c =
      update (refs (update D i x) c) (i, .direct k) (some a) := by
  funext ⟨j, s⟩
  by_cases hp : (j, s) = (i, .direct k)
  · rw [hp, refs_update_self, ref_direct (by exact ht)]
    simp [toRef_of_ne ha]
  · rw [update_of_ne hp]
    by_cases hj : j = i
    · subst hj
      rw [refs_update_self, refs_update_self]
      have hk : INDIRECT ≠ k.castSucc := fun h => absurd (congrArg Fin.val h) (ne_of_gt k.isLt)
      cases s with
      | direct k' =>
        have hk' : k'.castSucc ≠ k.castSucc := by
          intro h
          rw [Fin.castSucc_inj] at h
          exact hp (by rw [h])
        rw [ref_direct (by exact ht), ref_direct ht]
        simp [update_of_ne hk']
      | indirect =>
        rw [ref_indirect (by exact ht), ref_indirect ht]
        simp [update_of_ne hk]
      | entry j =>
        rw [ref_entry (by exact ht), ref_entry ht]
        simp [update_of_ne hk]
    · rw [refs_update_of_ne hj, refs_update_of_ne hj]

theorem int_zero (j : Nat) : Block.int (fun _ => 0) j = 0 := by
  simp [Block.int, Block.byte]

/-- A new indirect block, which has no entries. -/
theorem refs_setIndirect (ht : x.type ≠ 0) (h0 : x.addrs INDIRECT = 0) (ha : a ≠ 0)
    (hz : ∀ j : Fin NINDIRECT, (c a).int j = 0) :
    refs (update D i { x with addrs := update x.addrs INDIRECT a }) c =
      update (refs (update D i x) c) (i, .indirect) (some a) := by
  funext ⟨j, s⟩
  by_cases hp : (j, s) = (i, .indirect)
  · rw [hp, refs_update_self, ref_indirect (by exact ht)]
    simp [toRef_of_ne ha]
  · rw [update_of_ne hp]
    by_cases hj : j = i
    · subst hj
      rw [refs_update_self, refs_update_self]
      cases s with
      | direct k =>
        have hk : k.castSucc ≠ INDIRECT := fun h => absurd (congrArg Fin.val h)
            (ne_of_lt k.isLt)
        rw [ref_direct (by exact ht), ref_direct ht]
        simp [update_of_ne hk]
      | indirect => exact absurd rfl hp
      | entry k =>
        rw [ref_entry (by exact ht), ref_entry ht, h0]
        simp only [update_self, toRef_of_ne ha, toRef_zero, bind_some, hz,
          bind_none]
    · rw [refs_update_of_ne hj, refs_update_of_ne hj]

theorem int_setInt (v : Block) {j k : Fin NINDIRECT} :
    (v.setInt k a).int j = if j = k then a else v.int j := by
  have hj : 4 * j.val + 3 < BSIZE := by
    simp only [NINDIRECT] at *
    omega
  by_cases h : j = k
  · rw [if_pos h, ← h, Block.int_setInt_self _ _ hj]
  · rw [if_neg h, Block.int_setInt_of_ne _ _ hj fun h' => h (Fin.ext h')]

/-- A new reference in the indirect block of the inode `i`, which no other inode has. -/
theorem refs_setEntry {k : Fin NINDIRECT} (ho : Owns (refs D c) u lay.DataBlock) (ha : a ≠ 0)
    (hb : refs D c (i, .indirect) = some b) :
    refs D (update c b ((c b).setInt k a)) =
      update (refs D c) (i, .entry k) (some a) := by
  funext ⟨j, s⟩
  cases s with
  | direct k' =>
    simp [refs, Dinode.ref]
  | indirect =>
    simp [refs, Dinode.ref]
  | entry k' =>
    unfold refs at hb ⊢
    by_cases hj : j = i
    · subst hj
      have ht : (D j).type ≠ 0 := fun ht => by
        rw [ref_free ht] at hb
        cases hb
      rw [ref_indirect ht] at hb
      rw [ref_entry ht, hb, bind_some, update_self, int_setInt]
      by_cases hk : k' = k
      · rw [hk, update_self, if_pos rfl, toRef_of_ne ha]
      · rw [if_neg hk, update_of_ne (by simp [hk]), ref_entry ht, hb]
        rfl
    · rw [update_of_ne (by simp [hj])]
      by_cases ht : (D j).type = 0
      · rw [ref_free ht, ref_free ht]
      · rw [ref_entry ht, ref_entry ht]
        cases hb' : toRef ((D j).addrs INDIRECT) with
        | none => rw [bind_none, bind_none]
        | some b' =>
          have hne : b' ≠ b := by
            rintro rfl
            have hj' : refs D c (j, .indirect) = some b' := (ref_indirect ht).trans hb'
            exact hj (congrArg Prod.fst (ho.inj hj' hb))
          simp [update_of_ne hne]

/-- A position that has no reference takes a block. -/
theorem Sound.take (h : Sound lay u D c) (hp : refs D c p = none) (ha : lay.DataBlock a)
    (hu : u a = false) (hr : refs D' c' = update (refs D c) p (some a))
    (hs : ∀ i, (D' i).type = (D i).type ∧ (D' i).size = (D i).size) :
    Sound lay (update u a true) D' c' := by
  refine ⟨?_, fun b hb => ?_, fun i bn ht hbn => ?_⟩
  · rw [hr]
    exact h.owns.take hp ha hu
  · by_cases hba : b = a
    · rw [hba, update_self]
    · rw [update_of_ne hba]
      exact h.reserved b hb
  · rw [(hs i).1] at ht
    rw [(hs i).2] at hbn
    obtain ⟨s, hs, hne⟩ := h.covered i bn ht hbn
    refine ⟨s, hs, ?_⟩
    rw [hr]
    by_cases hip : (i, s) = p
    · rw [hip, update_self]
      exact some_ne_none _
    · rw [update_of_ne hip]
      exact hne

/-! ## Mapping the blocks of an inode -/

/-- The inodes, of which one has the fields of its copy `ip`. -/
def current (lay : Layout) (d : Disk) (ip : Inode) : Nat → Dinode :=
  Function.update (dino lay d) ip.inum ip.toDinode

def SoundAt (lay : Layout) (d : Disk) (ip : Inode) : Prop :=
  Sound lay (used lay d) (current lay d ip) (data lay d)

def refsAt (lay : Layout) (d : Disk) (ip : Inode) : Nat × Slot → Option BlockNo :=
  refs (current lay d ip) (data lay d)

/-- The inode `ip` has taken blocks that were not used. -/
structure Grown (lay : Layout) (d : Disk) (ip : Inode) (d' : Disk) (ip' : Inode) : Prop where
  sound : SoundAt lay d' ip'
  dino : dino lay d' = dino lay d
  addrs : ∃ addrs, ip' = { ip with addrs := addrs }
  kept : ∀ p b, refsAt lay d ip p = some b → refsAt lay d' ip' p = some b
  fresh : ∀ p b, refsAt lay d' ip' p = some b → refsAt lay d ip p = some b ∨ used lay d b = false
  mono : ∀ b, used lay d b = true → used lay d' b = true

section Grown
variable {d d' d'' : Disk} {ip ip' ip'' : Inode} {bn : Nat}

theorem Grown.refl (h : SoundAt lay d ip) : Grown lay d ip d ip :=
  ⟨h, rfl, ⟨ip.addrs, rfl⟩, fun _ _ => id, fun _ _ => .inl, fun _ => id⟩

theorem Grown.trans (h : Grown lay d ip d' ip') (h' : Grown lay d' ip' d'' ip'') :
    Grown lay d ip d'' ip'' := by
  refine ⟨h'.sound, h'.dino.trans h.dino, ?_, fun p b hb => h'.kept p b (h.kept p b hb), ?_,
    fun b hb => h'.mono b (h.mono b hb)⟩
  · obtain ⟨f, rfl⟩ := h.addrs
    obtain ⟨g, rfl⟩ := h'.addrs
    exact ⟨g, rfl⟩
  · intro p b hb
    rcases h'.fresh p b hb with hb | hu
    · exact h.fresh p b hb
    · refine .inr (Bool.eq_false_iff.mpr fun hu' => ?_)
      rw [h.mono b hu'] at hu
      cases hu

theorem Grown.inum (h : Grown lay d ip d' ip') : ip'.inum = ip.inum := by
  obtain ⟨f, rfl⟩ := h.addrs
  rfl

theorem Grown.type (h : Grown lay d ip d' ip') : ip'.type = ip.type := by
  obtain ⟨f, rfl⟩ := h.addrs
  rfl

section
variable (h : SoundAt lay d ip)
include h

/-- A slot of the inode takes a new block. -/
theorem Grown.take {f : Fin (NDIRECT + 1) → BlockNo} (ha : lay.DataBlock a)
    (hu : used lay d a = false) (hp : refsAt lay d ip (ip.inum, s) = none)
    (hv : Views lay d' (update (used lay d) a true) (Ino.dino lay d) c')
    (hr : refs (update (Ino.dino lay d) ip.inum { ip.toDinode with addrs := f }) c' =
      update (refsAt lay d ip) (ip.inum, s) (some a)) : Grown lay d ip d' { ip with addrs := f } ∧
      refsAt lay d' { ip with addrs := f } (ip.inum, s) = some a := by
  have hcur : current lay d' { ip with addrs := f } =
      update (Ino.dino lay d) ip.inum { ip.toDinode with addrs := f } := by
    rw [current, hv.dino]
  have hr' : refsAt lay d' { ip with addrs := f } =
      update (refsAt lay d ip) (ip.inum, s) (some a) := by
    rw [refsAt, hcur, hv.data, hr]
  refine ⟨⟨?_, hv.dino, ⟨f, rfl⟩, fun p b hb => ?_, fun p b hb => ?_, fun b hb => ?_⟩, ?_⟩
  · rw [SoundAt, hcur, hv.used, hv.data]
    refine Sound.take h hp ha hu hr fun i => ?_
    rw [current]
    by_cases hi : i = ip.inum
    · rw [hi, update_self, update_self]
      exact ⟨rfl, rfl⟩
    · rw [update_of_ne hi, update_of_ne hi]
      exact ⟨rfl, rfl⟩
  · have hne : p ≠ (ip.inum, s) := by
      rintro rfl
      rw [hp] at hb
      cases hb
    rw [hr', update_of_ne hne, hb]
  · rw [hr'] at hb
    by_cases hpe : p = (ip.inum, s)
    · rw [hpe, update_self] at hb
      cases hb
      exact .inr hu
    · rw [update_of_ne hpe] at hb
      exact .inl hb
  · rw [hv.used]
    by_cases hba : b = a
    · rw [hba, update_self]
    · rw [update_of_ne hba, hb]
  · rw [hr', update_self]

/-- A write to a block of the contents changes no reference. -/
theorem Grown.write {v : Block} (hs : Slot.ofBlock bn = some s)
    (ha : refsAt lay d ip (ip.inum, s) = some a) : Grown lay d ip (update d a v) ip := by
  have hno : ∀ j, refsAt lay d ip (j, .indirect) ≠ some a := by
    intro j hj
    exact Slot.ofBlock_ne hs (congrArg Prod.snd (h.owns.inj hj ha)).symm
  have hv := views_data (d := d) (h.owns.mem ha).1 (x := v)
  have hcur : current lay (update d a v) ip = current lay d ip := by
    rw [current, hv.dino, current]
  have hr : refsAt lay (update d a v) ip = refsAt lay d ip := by
    rw [refsAt, hcur, hv.data, refs_update_data hno]
    rfl
  refine ⟨⟨?_, ?_, ?_⟩, hv.dino, ⟨ip.addrs, rfl⟩, fun p b hb => ?_, fun p b hb => ?_,
    fun b hb => ?_⟩
  · show Owns (refsAt lay (update d a v) ip) _ _
    rw [hr, hv.used]
    exact h.owns
  · rw [hv.used]
    exact h.reserved
  · intro i bn ht hbn
    show ∃ s, _ ∧ refsAt lay (update d a v) ip (i, s) ≠ none
    rw [hcur] at ht hbn
    rw [hr]
    exact h.covered i bn ht hbn
  · rwa [hr]
  · rw [hr] at hb
    exact .inl hb
  · rwa [hv.used]

omit h in
theorem refsAt_inum : refsAt lay d ip (ip.inum, s) = ip.toDinode.ref (data lay d) s :=
  refs_update_self

/-- The contents of a block without reference do not matter. -/
theorem refs_fresh (hu : used lay d a = false) :
    refs (update (Ino.dino lay d) ip.inum ip.toDinode)
      (update (data lay d) a fun _ => 0) = refsAt lay d ip :=
  refs_update_data fun _ => h.owns.fresh hu _

/-- The blocks of contents that were there have what they had. -/
def KeepsData (lay : Layout) (d : Disk) (ip : Inode) (d' : Disk) : Prop :=
  ∀ p b, refsAt lay d ip p = some b → p.2 ≠ .indirect → data lay d' b = data lay d b

theorem balloc_keeps (hb : balloc lay d = .ok (a, d')) : KeepsData lay d ip d' := by
  obtain ⟨-, hu, hv⟩ := balloc_eq_ok h.reserved hb
  intro p b hp _
  have hba : b ≠ a := by
    rintro rfl
    exact h.owns.fresh hu p hp
  rw [hv.data, update_of_ne hba]

theorem balloc_direct {k : Fin NDIRECT} (ht : ip.type ≠ 0) (h0 : ip.addrs k.castSucc = 0)
    (hb : balloc lay d = .ok (a, d')) :
    Grown lay d ip d' { ip with addrs := update ip.addrs k.castSucc a } ∧
      refsAt lay d' { ip with addrs := update ip.addrs k.castSucc a }
        (ip.inum, .direct k) = some a := by
  obtain ⟨ha, hu, hv⟩ := balloc_eq_ok h.reserved hb
  refine Grown.take h ha hu ?_ hv ?_
  · rw [refsAt_inum, ref_direct ht, h0, toRef_zero]
  · rw [refs_setDirect ht ha.ne_zero, refs_fresh h hu]

end

section
variable (h : SoundAt lay d ip) (ht : ip.type ≠ 0)
include h ht

theorem balloc_indirect (h0 : ip.addrs INDIRECT = 0) (hb : balloc lay d = .ok (a, d')) :
    Grown lay d ip d' { ip with addrs := update ip.addrs INDIRECT a } ∧
      refsAt lay d' { ip with addrs := update ip.addrs INDIRECT a }
        (ip.inum, .indirect) = some a := by
  obtain ⟨ha, hu, hv⟩ := balloc_eq_ok h.reserved hb
  refine Grown.take h ha hu ?_ hv ?_
  · rw [refsAt_inum, ref_indirect ht, h0, toRef_zero]
  · rw [refs_setIndirect ht h0 ha.ne_zero, refs_fresh h hu]
    intro j
    rw [update_self, int_zero]

theorem refsAt_entry {k : Fin NINDIRECT} (hi : refsAt lay d ip (ip.inum, .indirect) = some b) :
    refsAt lay d ip (ip.inum, .entry k) = toRef ((d b).int k) := by
  have hdb : data lay d b = d b := if_pos (h.owns.mem hi).1
  rw [refsAt_inum, ref_indirect ht] at hi
  rw [refsAt_inum, ref_entry ht, hi, bind_some, hdb]

theorem balloc_entry {k : Fin NINDIRECT} (hi : refsAt lay d ip (ip.inum, .indirect) = some b)
    (h0 : (d b).int k = 0) (hb : balloc lay d = .ok (a, d')) :
    KeepsData lay d ip (update d' b ((d' b).setInt k a)) ∧
      Grown lay d ip (update d' b ((d' b).setInt k a)) ip ∧
      refsAt lay (update d' b ((d' b).setInt k a)) ip (ip.inum, .entry k) = some a := by
  obtain ⟨ha, hu, hv⟩ := balloc_eq_ok h.reserved hb
  have hbm := (h.owns.mem hi).1
  have hdb' : d' b = update (data lay d) a (fun _ => 0) b := by
    rw [← hv.data, data, if_pos hbm]
  have hw := views_data (d := d') hbm (x := (d' b).setInt k a)
  have hkeep : KeepsData lay d ip (update d' b ((d' b).setInt k a)) := by
    intro p b' hp hne
    have hbb : b' ≠ b := by
      rintro rfl
      exact hne (congrArg Prod.snd (h.owns.inj hp hi))
    rw [hw.data, update_of_ne hbb]
    exact balloc_keeps h hb p b' hp hne
  rw [hv.used, hv.dino, hv.data] at hw
  have hfresh : refs (current lay d ip) (update (data lay d) a fun _ => 0) =
      refsAt lay d ip := refs_fresh h hu
  refine ⟨hkeep, Grown.take (f := ip.addrs) h ha hu ?_ hw ?_⟩
  · rw [refsAt_entry h ht hi, h0, toRef_zero]
  · have ho := h.owns
    rw [← refsAt, ← hfresh] at ho
    have := refs_setEntry (k := k) ho ha.ne_zero hi
    rwa [hfresh, ← hdb'] at this

/-- `bmap` returns the block of the contents, and takes new blocks where there is none. -/
theorem bmap_grown (hb : bmap lay ip bn d = .ok (a, ip', d')) :
    Grown lay d ip d' ip' ∧ KeepsData lay d ip d' ∧
      ∃ s, Slot.ofBlock bn = some s ∧ refsAt lay d' ip' (ip.inum, s) = some a := by
  have hrefl : KeepsData lay d ip d := fun _ _ _ _ => rfl
  unfold bmap at hb
  split at hb
  · next hbn =>
    have hs : Slot.ofBlock bn = some (.direct ⟨bn, hbn⟩) := dif_pos hbn
    dsimp only at hb
    split at hb
    · next h0 =>
      split at hb
      · cases hb
      · next hal =>
        cases hb
        obtain ⟨hg, hr⟩ := balloc_direct (k := ⟨bn, hbn⟩) h ht h0 hal
        exact ⟨hg, balloc_keeps h hal, _, hs, hr⟩
    · next h0 =>
      cases hb
      refine ⟨.refl h, hrefl, _, hs, ?_⟩
      rw [refsAt_inum, ref_direct ht]
      exact toRef_of_ne h0
  · next hbn =>
    dsimp only at hb
    split at hb
    · next hbn' =>
      have hs : Slot.ofBlock bn = some (.entry ⟨bn - NDIRECT, hbn'⟩) := by
        rw [Slot.ofBlock, dif_neg hbn, dif_pos hbn']
      split at hb
      · cases hb
      · next addr d1 hal =>
        -- the indirect block is there now
        have hg1 : KeepsData lay d ip d1 ∧
            Grown lay d ip d1 { ip with addrs := update ip.addrs INDIRECT addr } ∧
            refsAt lay d1 { ip with addrs := update ip.addrs INDIRECT addr }
              (ip.inum, .indirect) = some addr := by
          split at hal
          · next h0 => exact ⟨balloc_keeps h hal, balloc_indirect h ht h0 hal⟩
          · next h0 =>
            cases hal
            rw [update_eq_self]
            refine ⟨hrefl, .refl h, ?_⟩
            rw [refsAt_inum, ref_indirect ht, toRef_of_ne h0]
        obtain ⟨hk1, hg1, hi⟩ := hg1
        split at hb
        · next h0 =>
          split at hb
          · cases hb
          · next hal2 =>
            cases hb
            obtain ⟨hk2, hg2, hr⟩ :=
              balloc_entry (k := ⟨bn - NDIRECT, hbn'⟩) hg1.sound ht hi h0 hal2
            refine ⟨hg1.trans hg2, fun p b hp hne => ?_, _, hs, hr⟩
            exact (hk2 p b (hg1.kept p b hp) hne).trans (hk1 p b hp hne)
        · next h0 =>
          cases hb
          exact ⟨hg1, hk1, _, hs, (refsAt_entry hg1.sound ht hi).trans (toRef_of_ne h0)⟩
    · cases hb

end

variable {n off r tot : Nat} {msg : String}

theorem balloc_eq_error (h : balloc lay d = .error msg) :
    msg = "balloc: out of blocks" := ballocFrom_eq_error h

theorem bmap_eq_error (hbn : bn < MAXFILE) (h : bmap lay ip bn d = .error msg) :
    msg = "balloc: out of blocks" := by
  unfold bmap at h
  split at h
  · dsimp only at h
    split at h
    · split at h
      · next hal =>
        cases h
        exact balloc_eq_error hal
      · cases h
    · cases h
  · next hn =>
    rw [if_pos (by unfold MAXFILE at hbn; omega)] at h
    split at h
    · next hal =>
      cases h
      split at hal
      · exact balloc_eq_error hal
      · cases hal
    · split at h
      · split at h
        · next hal =>
          cases h
          exact balloc_eq_error hal
        · cases h
      · cases h

/-- Where `bmap` finds a block that is there. -/
theorem slot_found (h : SoundAt lay d ip) (ht : ip.type ≠ 0) (hs : Slot.ofBlock bn = some s)
    (hr : refsAt lay d ip (ip.inum, s) = some a) : a ≠ 0 ∧
      ((∃ hbn : bn < NDIRECT, ip.addrs ⟨bn, Nat.lt_succ_of_lt hbn⟩ = a) ∨
        ¬ bn < NDIRECT ∧ bn - NDIRECT < NINDIRECT ∧ ip.addrs INDIRECT ≠ 0 ∧
          (d (ip.addrs INDIRECT)).int (bn - NDIRECT) = a) := by
  unfold Slot.ofBlock at hs
  split at hs
  · next hbn =>
    cases hs
    rw [refsAt_inum, ref_direct ht] at hr
    obtain ⟨rfl, h0⟩ := toRef_eq_some hr
    exact ⟨h0, .inl ⟨hbn, rfl⟩⟩
  · next hbn =>
    split at hs
    · next hbn' =>
      cases hs
      cases hi : refsAt lay d ip (ip.inum, .indirect) with
      | none =>
        rw [refsAt_inum, ref_indirect ht] at hi
        rw [refsAt_inum, ref_entry ht, hi] at hr
        cases hr
      | some b =>
        rw [refsAt_entry h ht hi] at hr
        rw [refsAt_inum, ref_indirect ht] at hi
        obtain ⟨rfl, hb0⟩ := toRef_eq_some hi
        obtain ⟨rfl, h0⟩ := toRef_eq_some hr
        exact ⟨h0, .inr ⟨hbn, hbn', hb0, rfl⟩⟩
    · cases hs

/-- `bmap` of a block that is there changes nothing. -/
theorem bmap_found (h : SoundAt lay d ip) (ht : ip.type ≠ 0) (hs : Slot.ofBlock bn = some s)
    (hr : refsAt lay d ip (ip.inum, s) = some a) : bmap lay ip bn d = .ok (a, ip, d) := by
  unfold bmap
  obtain ⟨h0, ⟨hbn, rfl⟩ | ⟨hbn, hbn', hb0, rfl⟩⟩ := slot_found h ht hs hr
  · rw [dif_pos hbn]
    exact if_neg h0
  · simp only [dif_neg hbn, if_pos hbn', if_neg hb0, update_eq_self]
    exact if_neg h0

/-! ## Reading and writing -/

/-- The blocks of the contents below `off` are there. -/
def CoveredTo (lay : Layout) (d : Disk) (ip : Inode) (off : Nat) : Prop :=
  ∀ bn, bn * BSIZE < off → ∃ s, Slot.ofBlock bn = some s ∧ refsAt lay d ip (ip.inum, s) ≠ none

theorem SoundAt.coveredTo (h : SoundAt lay d ip) (ht : ip.type ≠ 0) :
    CoveredTo lay d ip ip.size.toNat := by
  intro bn hbn
  refine h.covered ip.inum bn ?_ ?_ <;> rw [current, update_self]
  · exact ht
  · exact hbn

theorem Grown.coveredTo (h : Grown lay d ip d' ip') (hc : CoveredTo lay d ip off) :
    CoveredTo lay d' ip' off := by
  intro bn hbn
  obtain ⟨s, hs, hne⟩ := hc bn hbn
  refine ⟨s, hs, ?_⟩
  obtain ⟨b, hb⟩ := Option.ne_none_iff_exists'.mp hne
  rw [h.inum, h.kept _ b hb]
  exact some_ne_none _

/-- One more block is there. -/
theorem CoveredTo.add {m : Nat} (hc : CoveredTo lay d ip off)
    (hs : Slot.ofBlock (off / BSIZE) = some s) (hr : refsAt lay d ip (ip.inum, s) = some a)
    (hm : m ≤ BSIZE - off % BSIZE) : CoveredTo lay d ip (off + m) := by
  intro bn hbn
  by_cases hlt : bn * BSIZE < off
  · exact hc bn hlt
  · have he : bn = off / BSIZE := by
      simp only [BSIZE] at *
      omega
    refine ⟨s, by rw [he, hs], ?_⟩
    rw [hr]
    exact some_ne_none _

theorem writeLoop_grown {copyin : Copyin} {tot' off' : Nat} (h : SoundAt lay d ip)
    (ht : ip.type ≠ 0) (hc : CoveredTo lay d ip off)
    (hw : writeLoop lay copyin n r tot off ip d = .ok (tot', off', ip', d')) :
    Grown lay d ip d' ip' ∧ CoveredTo lay d' ip' off' ∧ off' ≤ off + (n - tot) := by
  induction r generalizing tot off ip d with
  | zero =>
    cases hw
    exact ⟨.refl h, hc, Nat.le_add_right ..⟩
  | succ r ih =>
    rw [writeLoop] at hw
    split at hw
    · split at hw
      · cases hw
      · next a ip1 d1 hb =>
        obtain ⟨hg, -, s, hs, hr⟩ := bmap_grown h ht hb
        rw [← hg.inum] at hr
        have hg2 := Grown.write
          (v := (copyin tot (off % BSIZE) (min (n - tot) (BSIZE - off % BSIZE)) (d1 a)).1)
          hg.sound hs hr
        have hc2 := hg2.coveredTo ((hg.coveredTo hc).add hs hr (min_le_right (n - tot) _))
        dsimp only at hw
        split at hw
        · obtain ⟨hg3, hc3, hle⟩ := ih hg2.sound (by rwa [hg.type]) hc2 hw
          refine ⟨(hg.trans hg2).trans hg3, hc3, ?_⟩
          omega
        · cases hw
          exact ⟨hg.trans hg2, hg2.coveredTo (hg.coveredTo hc), Nat.le_add_right ..⟩
    · cases hw
      exact ⟨.refl h, hc, Nat.le_add_right ..⟩

theorem writeLoop_eq_error {copyin : Copyin} (hoff : off + (n - tot) ≤ MAXFILE * BSIZE)
    (hw : writeLoop lay copyin n r tot off ip d = .error msg) : msg = "balloc: out of blocks" := by
  induction r generalizing tot off ip d with
  | zero => cases hw
  | succ r ih =>
    rw [writeLoop] at hw
    split at hw
    · next htot =>
      split at hw
      · next hb =>
        cases hw
        refine bmap_eq_error (Nat.div_lt_of_lt_mul ?_) hb
        rw [mul_comm]
        omega
      · dsimp only at hw
        split at hw
        · exact ih (by omega) hw
        · cases hw
    · cases hw

/-- `readi` takes no block. -/
theorem readLoop_same {copyout : Copyout} (h : SoundAt lay d ip) (ht : ip.type ≠ 0)
    (hoff : tot ≤ n → off + (n - tot) ≤ ip.size.toNat) :
    ∃ v, readLoop lay copyout n r tot off ip d = .ok (v, ip, d) := by
  induction r generalizing tot off with
  | zero => exact ⟨_, rfl⟩
  | succ r ih =>
    rw [readLoop]
    split
    · next htot =>
      have hlt : off / BSIZE * BSIZE < ip.size.toNat := by
        have := Nat.div_mul_le_self off BSIZE
        omega
      obtain ⟨s, hs, hne⟩ := h.coveredTo ht _ hlt
      obtain ⟨a, ha⟩ := Option.ne_none_iff_exists'.mp hne
      rw [bmap_found h ht hs ha]
      dsimp only
      split
      · exact ih fun _ => by omega
      · exact ⟨_, rfl⟩
    · exact ⟨_, rfl⟩

theorem readi_same (copyout : Copyout) (off n : BitVec 32) (h : SoundAt lay d ip)
    (ht : ip.type ≠ 0) : ∃ v, readi lay copyout ip off n d = .ok (v, ip, d) := by
  unfold readi
  split
  · exact ⟨_, rfl⟩
  · next hle =>
    refine readLoop_same h ht fun _ => ?_
    rw [not_or, not_lt, not_lt, le_def, le_def, toNat_add] at hle
    split
    · next hlt =>
      rw [BitVec.toNat_sub_of_le (le_def.mpr hle.1)]
      omega
    · next hlt =>
      rw [not_lt, le_def, toNat_add] at hlt
      omega

end Grown

end Xv6.Ino
