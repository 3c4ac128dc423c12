import Xv6Rcu.Fs.Inode

/-!
# What the blocks of the disk hold

The metadata of the file system, read off its blocks, and how each kind of write changes it.

- `used`: the bitmap. `dino`: the inodes. `data`: the blocks after the metadata.
- `Views`: all three of a disk. `views_bit`, `views_put`, `views_data`: a write to one kind of block
  changes nothing else.
- `balloc_eq_ok`, `bfree_eq_ok`, `iupdate_views`: what the functions do to them.
-/

namespace Xv6.Ino

open Lib Fs Function BitVec

/-! ## Blocks -/

section Block
variable {b : Block} {bi bj : Nat}

theorem and_shift_ne (x : BitVec 8) {i : Nat} (hi : i < 8) :
    (x &&& (1#8 <<< i) != 0) = x.getLsbD i := by
  have h : x &&& (1#8 <<< i) = if x.getLsbD i then 1#8 <<< i else 0#8 := by
    split <;> grind
  have h1 : 1#8 <<< i ≠ 0 := by
    intro h0
    have := congrArg (fun y => y.getLsbD i) h0
    simp [hi] at this
  rw [h]
  cases x.getLsbD i with
  | true => simpa using h1
  | false => rfl

theorem bit_eq (b : Block) (bi : Nat) : bit b bi = (b.byte (bi / 8)).getLsbD (bi % 8) :=
  and_shift_ne _ (Nat.mod_lt _ (by decide))

theorem getLsbD_shift {i j : Nat} (hj : j < 8) : (1#8 <<< i).getLsbD j = decide (j = i) := by
  grind

theorem bit_setBit (hj : bj < BPB) :
    bit (setBit b bi) bj = if bj = bi then true else bit b bj := by
  have hlt : bj / 8 < BSIZE := by simp only [BPB] at hj; omega
  have h8 : bj % 8 < 8 := Nat.mod_lt _ (by decide)
  rw [bit_eq, bit_eq]
  simp only [Block.byte, setBit, hlt, dif_pos]
  by_cases hbyte : bj / 8 = bi / 8
  · rw [if_pos hbyte, getLsbD_or, getLsbD_shift h8]
    by_cases hb : bj = bi
    · simp [hb]
    · have : bj % 8 ≠ bi % 8 := by omega
      simp [hb, this]
  · rw [if_neg hbyte, if_neg (by omega)]

theorem bit_clearBit (hj : bj < BPB) :
    bit (clearBit b bi) bj = if bj = bi then false else bit b bj := by
  have hlt : bj / 8 < BSIZE := by simp only [BPB] at hj; omega
  have h8 : bj % 8 < 8 := Nat.mod_lt _ (by decide)
  rw [bit_eq, bit_eq]
  simp only [Block.byte, clearBit, hlt, dif_pos]
  by_cases hbyte : bj / 8 = bi / 8
  · rw [if_pos hbyte, getLsbD_and, getLsbD_not, getLsbD_shift h8]
    by_cases hb : bj = bi
    · simp [hb]
    · have : bj % 8 ≠ bi % 8 := by omega
      simp [hb, this, h8]
  · rw [if_neg hbyte, if_neg (by omega)]

theorem byte_setInts {f : Nat → BitVec 32} {k j : Nat} (hj : j < BSIZE) : (setInts b k f).byte j =
    if k ≤ j / 4 ∧ j / 4 < k + 16 then (f (j / 4 - k)).extractLsb' (8 * (j % 4)) 8
    else b.byte j := by
  simp [Block.byte, setInts, hj]

theorem int_setInts {f : Nat → BitVec 32} {k j : Nat} (hj : 4 * j + 3 < BSIZE) :
    (setInts b k f).int j = if k ≤ j ∧ j < k + 16 then f (j - k) else b.int j := by
  have hw : ∀ r, r < 4 → (4 * j + r) / 4 = j ∧ (4 * j + r) % 4 = r := by
    omega
  have hb : ∀ r, r < 4 → (setInts b k f).byte (4 * j + r) = if k ≤ j ∧ j < k + 16 then
      (f (j - k)).extractLsb' (8 * r) 8 else b.byte (4 * j + r) := by
    intro r hr
    rw [byte_setInts (by omega), (hw r hr).1, (hw r hr).2]
  unfold Block.int
  rw [hb 3 (by decide), hb 2 (by decide), hb 1 (by decide), show 4 * j = 4 * j + 0 from rfl,
    hb 0 (by decide)]
  split
  · ext n hn
    simp only [getElem_append]
    grind
  · rfl

theorem extract_lo (x y : BitVec 16) : (x ++ y).extractLsb' 0 16 = y := by
  grind

theorem extract_hi (x y : BitVec 16) : (x ++ y).extractLsb' 16 16 = x := by
  grind

theorem get_put_self {x : Dinode} {j : Nat} (hj : j < IPB) :
    Dinode.get (Dinode.put b j x) j = x := by
  have hw : ∀ k, k < 16 → (Dinode.put b j x).int (16 * j + k) = x.word k := by
    intro k hk
    rw [Dinode.put, int_setInts (by simp only [IPB, BSIZE] at *; omega), if_pos (by omega),
      Nat.add_sub_cancel_left]
  have haddrs : (fun k : Fin (NDIRECT + 1) => (Dinode.put b j x).int (16 * j + (k.val + 3))) =
      x.addrs := by
    funext k
    have hk := k.isLt
    rw [hw _ (by simp only [NDIRECT] at hk; omega), Dinode.word, dif_pos hk]
  unfold Dinode.get
  rw [haddrs, hw 1 (by decide), hw 2 (by decide), show 16 * j = 16 * j + 0 from rfl,
    hw 0 (by decide)]
  simp [Dinode.word, extract_lo, extract_hi]

theorem get_put_of_ne {x : Dinode} {j j' : Nat} (hj : j' < IPB) (hne : j' ≠ j) :
    Dinode.get (Dinode.put b j x) j' = Dinode.get b j' := by
  have hw : ∀ k, k < 16 → (Dinode.put b j x).int (16 * j' + k) = b.int (16 * j' + k) := by
    intro k hk
    rw [Dinode.put, int_setInts (by simp only [IPB, BSIZE] at *; omega), if_neg (by omega)]
  simp only [Dinode.get]
  rw [hw 1 (by decide), hw 2 (by decide), show 16 * j' = 16 * j' + 0 from rfl, hw 0 (by decide)]
  simp only [Dinode.mk.injEq, true_and]
  funext k
  have hk := k.isLt
  exact hw _ (by simp only [NDIRECT] at hk; omega)
end Block

/-! ## The views -/

section Views
variable (lay : Layout)

/-- The bitmap. -/
def used (d : Disk) (b : BlockNo) : Bool :=
  if b.toNat < lay.size then bit (d (BBLOCK lay b.toNat)) (b.toNat % BPB) else true

/-- The inodes. -/
def dino (d : Disk) (i : Nat) : Dinode :=
  if i < lay.ninodes then Dinode.get (d (IBLOCK lay i)) (i % IPB) else {}

/-- The blocks after the metadata. -/
def data (d : Disk) (b : BlockNo) : Block := if lay.nmeta ≤ b.toNat then d b else fun _ => 0

/-- What the disk `d` holds. -/
structure Views (d : Disk) (u : BlockNo → Bool) (i : Nat → Dinode) (c : BlockNo → Block) :
    Prop where
  used : used lay d = u
  dino : dino lay d = i
  data : data lay d = c

variable {lay} {d : Disk} {b : BlockNo} {i : Nat}

theorem nmeta_lt (lay : Layout) : lay.nmeta < 2 ^ 31 := Nat.lt_of_le_of_lt lay.nmeta_le lay.size_lt

theorem bmapstart_lt (lay : Layout) : lay.bmapstart < lay.nmeta :=
  lt_of_le_of_lt (Nat.le_add_left ..)
    (lay.bmap_lt 0 (lt_of_lt_of_le lay.nmeta_pos lay.nmeta_le))

theorem BBLOCK_toNat (hi : i < lay.size) : (BBLOCK lay i).toNat = i / BPB + lay.bmapstart := by
  refine Nat.mod_eq_of_lt (lt_trans (lay.bmap_lt i hi) (lt_trans (nmeta_lt lay) ?_))
  decide

theorem BBLOCK_lt (hi : i < lay.size) :
    lay.bmapstart ≤ (BBLOCK lay i).toNat ∧ (BBLOCK lay i).toNat < lay.nmeta := by
  rw [BBLOCK_toNat hi]
  exact ⟨Nat.le_add_left .., lay.bmap_lt i hi⟩

theorem IBLOCK_toNat (hi : i < lay.ninodes) : (IBLOCK lay i).toNat = i / IPB + lay.inodestart := by
  refine Nat.mod_eq_of_lt (lt_trans (lay.inode_lt i hi) (lt_trans (bmapstart_lt lay)
    (lt_trans (nmeta_lt lay) ?_)))
  decide

theorem IBLOCK_lt (hi : i < lay.ninodes) : (IBLOCK lay i).toNat < lay.bmapstart := by
  rw [IBLOCK_toNat hi]
  exact lay.inode_lt i hi

/-- Inodes and the bitmap are in different blocks. -/
theorem IBLOCK_ne_BBLOCK {b : Nat} (hi : i < lay.ninodes) (hb : b < lay.size) :
    IBLOCK lay i ≠ BBLOCK lay b := by
  intro he
  have hI := IBLOCK_lt hi
  rw [he] at hI
  exact not_lt.mpr (BBLOCK_lt hb).1 hI

/-- A write to a block of the bitmap that changes the bit of `b`. -/
theorem views_bit (hb : b.toNat < lay.size) {x : Block} {v : Bool}
    (hx : ∀ bj < BPB, bit x bj = if bj = b.toNat % BPB then v else
      bit (d (BBLOCK lay b.toNat)) bj) :
    Views lay (update d (BBLOCK lay b.toNat) x) (update (used lay d) b v)
      (dino lay d) (data lay d) := by
  refine ⟨?_, ?_, ?_⟩
  · funext c
    unfold used
    by_cases hc : c.toNat < lay.size
    · rw [if_pos hc]
      by_cases hblk : BBLOCK lay c.toNat = BBLOCK lay b.toNat
      · rw [hblk, update_self, hx _ (Nat.mod_lt _ (by decide))]
        have hdiv : c.toNat / BPB = b.toNat / BPB := by
          have h := congrArg BitVec.toNat hblk
          rw [BBLOCK_toNat hc, BBLOCK_toNat hb] at h
          exact add_right_cancel h
        by_cases hcb : c = b
        · subst hcb
          rw [if_pos rfl, update_self]
        · rw [update_of_ne hcb, if_neg, if_pos hc, hblk]
          intro hmod
          refine hcb (eq_of_toNat_eq ?_)
          rw [← Nat.div_add_mod c.toNat BPB, ← Nat.div_add_mod b.toNat BPB, hdiv, hmod]
      · have hcb : c ≠ b := by
          rintro rfl
          exact hblk rfl
        rw [update_of_ne hblk, update_of_ne hcb, if_pos hc]
    · have hcb : c ≠ b := by
        rintro rfl
        exact hc hb
      rw [if_neg hc, update_of_ne hcb, if_neg hc]
  · funext j
    unfold dino
    by_cases hj : j < lay.ninodes
    · rw [if_pos hj, if_pos hj, update_of_ne (IBLOCK_ne_BBLOCK hj hb)]
    · rw [if_neg hj, if_neg hj]
  · funext c
    unfold data
    by_cases hc : lay.nmeta ≤ c.toNat
    · have hne : c ≠ BBLOCK lay b.toNat := by
        rintro rfl
        exact not_lt.mpr hc (BBLOCK_lt hb).2
      rw [if_pos hc, if_pos hc, update_of_ne hne]
    · rw [if_neg hc, if_neg hc]

/-- A write of an inode. -/
theorem views_put (hi : i < lay.ninodes) {x : Dinode} :
    Views lay (update d (IBLOCK lay i) (Dinode.put (d (IBLOCK lay i)) (i % IPB) x))
      (used lay d) (update (dino lay d) i x) (data lay d) := by
  refine ⟨?_, ?_, ?_⟩
  · funext c
    unfold used
    by_cases hc : c.toNat < lay.size
    · rw [if_pos hc, if_pos hc, update_of_ne (IBLOCK_ne_BBLOCK hi hc).symm]
    · rw [if_neg hc, if_neg hc]
  · funext j
    by_cases hji : j = i
    · subst hji
      rw [update_self, dino, if_pos hi, update_self,
        get_put_self (Nat.mod_lt _ (by decide))]
    · rw [update_of_ne hji]
      unfold dino
      by_cases hj : j < lay.ninodes
      · by_cases hblk : IBLOCK lay j = IBLOCK lay i
        · rw [hblk, update_self, get_put_of_ne (Nat.mod_lt _ (by decide))]
          intro hmod
          have hdiv : j / IPB = i / IPB := by
            have h := congrArg BitVec.toNat hblk
            rw [IBLOCK_toNat hj, IBLOCK_toNat hi] at h
            exact add_right_cancel h
          refine hji ?_
          rw [← Nat.div_add_mod j IPB, ← Nat.div_add_mod i IPB, hdiv, hmod]
        · rw [update_of_ne hblk]
      · rw [if_neg hj, if_neg hj]
  · funext c
    unfold data
    by_cases hc : lay.nmeta ≤ c.toNat
    · have hne : c ≠ IBLOCK lay i := by
        rintro rfl
        exact not_lt.mpr hc (lt_trans (IBLOCK_lt hi) (bmapstart_lt lay))
      rw [if_pos hc, if_pos hc, update_of_ne hne]
    · rw [if_neg hc, if_neg hc]

/-- A write of a block after the metadata. -/
theorem views_data (hb : lay.nmeta ≤ b.toNat) {x : Block} :
    Views lay (update d b x) (used lay d) (dino lay d)
      (update (data lay d) b x) := by
  refine ⟨?_, ?_, ?_⟩
  · funext c
    unfold used
    by_cases hc : c.toNat < lay.size
    · have hne : BBLOCK lay c.toNat ≠ b := by
        rintro rfl
        exact not_lt.mpr hb (BBLOCK_lt hc).2
      rw [if_pos hc, if_pos hc, update_of_ne hne]
    · rw [if_neg hc, if_neg hc]
  · funext j
    unfold dino
    by_cases hj : j < lay.ninodes
    · have hne : IBLOCK lay j ≠ b := by
        rintro rfl
        exact not_lt.mpr hb (lt_trans (IBLOCK_lt hj) (bmapstart_lt lay))
      rw [if_pos hj, if_pos hj, update_of_ne hne]
    · rw [if_neg hj, if_neg hj]
  · funext c
    by_cases hcb : c = b
    · subst hcb
      rw [update_self, data, if_pos hb, update_self]
    · rw [update_of_ne hcb]
      unfold data
      rw [update_of_ne hcb]

/-! ## The functions -/

/-- `b` is a block for data. -/
def Layout.DataBlock (lay : Layout) (b : BlockNo) : Prop := lay.nmeta ≤ b.toNat ∧ b.toNat < lay.size

theorem ballocScan_eq_some {blk : Block} {b n bi bk : Nat}
    (h : ballocScan lay blk b n bi = some bk) :
    bk < bi + n ∧ b + bk < lay.size ∧ bit blk bk = false := by
  induction n generalizing bi with
  | zero => cases h
  | succ n ih =>
    rw [ballocScan] at h
    split at h
    · next hlt =>
      split at h
      · obtain ⟨hbk, hlt, hbit⟩ := ih h
        exact ⟨by omega, hlt, hbit⟩
      · next hbit =>
        cases h
        exact ⟨by omega, hlt, by simpa using hbit⟩
    · cases h

theorem ballocFrom_eq_ok {n b : Nat} {a : BlockNo} {d' : Disk} (hb : b % BPB = 0)
    (h : ballocFrom lay n b d = .ok (a, d')) : a.toNat < lay.size ∧ used lay d a = false ∧
      d' = bzero a (update d (BBLOCK lay a.toNat)
        (setBit (d (BBLOCK lay a.toNat)) (a.toNat % BPB))) := by
  induction n generalizing b with
  | zero => cases h
  | succ n ih =>
    rw [ballocFrom] at h
    split at h
    · split at h
      · next bi hs =>
        obtain ⟨hbi, hlt, hbit⟩ := ballocScan_eq_some hs
        rw [zero_add] at hbi
        have ha : (BitVec.ofNat 32 (b + bi)).toNat = b + bi := by
          have := lay.size_lt
          rw [BitVec.toNat_ofNat]
          omega
        have hmod : (b + bi) % BPB = bi := by
          rw [Nat.add_mod, hb, zero_add, Nat.mod_mod, Nat.mod_eq_of_lt hbi]
        have hdiv : (b + bi) / BPB = b / BPB := by
          rw [Nat.add_div (by decide), Nat.div_eq_of_lt hbi, hb, zero_add,
            Nat.mod_eq_of_lt hbi, if_neg (not_le.mpr hbi), Nat.add_zero]
        have hblk : BBLOCK lay (b + bi) = BBLOCK lay b := by
          rw [BBLOCK, BBLOCK, hdiv]
        cases h
        rw [used, ha, hmod, hblk]
        exact ⟨hlt, by rw [if_pos hlt]; exact hbit, rfl⟩
      · exact ih (by rw [Nat.add_mod_right]; exact hb) h
    · cases h

/-- `balloc` returns a block that is not used. -/
theorem balloc_eq_ok {a : BlockNo} {d' : Disk} (hm : ∀ b, b.toNat < lay.nmeta → used lay d b = true)
    (h : balloc lay d = .ok (a, d')) : lay.DataBlock a ∧ used lay d a = false ∧
      Views lay d' (update (used lay d) a true) (dino lay d)
        (update (data lay d) a fun _ => 0) := by
  obtain ⟨hlt, hu, rfl⟩ := ballocFrom_eq_ok (Nat.zero_mod _) h
  have hle : lay.nmeta ≤ a.toNat := by
    by_contra hn
    rw [hm a (Nat.lt_of_not_le hn)] at hu
    cases hu
  obtain ⟨h1, h2, h3⟩ := views_bit hlt (fun bj hbj => bit_setBit hbj)
  have hv := views_data (d := update d (BBLOCK lay a.toNat)
    (setBit (d (BBLOCK lay a.toNat)) (a.toNat % BPB))) hle (x := fun _ => 0)
  rw [h1, h2, h3] at hv
  exact ⟨⟨hle, hlt⟩, hu, hv⟩

theorem ballocFrom_eq_error {n b : Nat} {msg : String} (h : ballocFrom lay n b d = .error msg) :
    msg = "balloc: out of blocks" := by
  induction n generalizing b with
  | zero =>
    cases h
    rfl
  | succ n ih =>
    rw [ballocFrom] at h
    split at h
    · split at h
      · cases h
      · exact ih h
    · cases h
      rfl

/-- `bfree` of a used block. -/
theorem bfree_eq_ok (hb : b.toNat < lay.size) (hu : used lay d b = true) : ∃ d',
    bfree lay b d = .ok d' ∧
      Views lay d' (update (used lay d) b false) (dino lay d) (data lay d) := by
  rw [used, if_pos hb] at hu
  refine ⟨_, ?_, views_bit hb fun bj hbj => bit_clearBit hbj⟩
  rw [bfree, if_pos hu]

theorem iupdate_views (ip : Inode) (hi : ip.inum < lay.ninodes) : Views lay (iupdate lay ip d)
    (used lay d) (update (dino lay d) ip.inum ip.toDinode) (data lay d) :=
  views_put hi

end Views

end Xv6.Ino
