import Xv6Rcu.Fs.Accounting
import Xv6Rcu.Fs.Trans

/-!
# The log budget of `filewrite`

`filewrite` writes in chunks. Each chunk is one transaction, for which `begin_op` has set aside
`MAXOPBLOCKS` blocks of the log.

- `ballocLog`, `bmapLog`, `writeiLog`: the blocks that a call passes to `log_write`, in order.
- `Within`: the blocks are so many of the contents, so many of the bitmap and the indirect block.
- **The theorem** (`filewrite_budget`): the blocks of each chunk are at most `MAXOPBLOCKS`, so these
  are calls that `Fs/Trans` allows (`filewrite_allowed`).
-/

namespace Xv6.Ino

open Lib Fs Function List

section Code
variable (lay : Layout)

/-- The calls of `log_write` in `balloc`: for the bitmap block of the new block, and in `bzero`. -/
def ballocLog (d : Disk) : List BlockNo :=
  match balloc lay d with
  | .error _ => []
  | .ok (addr, _) => [BBLOCK lay addr.toNat, addr]

/-- The calls in `bmap` for the entry `bn` of the indirect block `addr`. -/
def entryLog (addr : BlockNo) (bn : Nat) (d : Disk) : List BlockNo :=
  if (d addr).int bn = 0 then
    ballocLog lay d ++
      match balloc lay d with
      | .error _ => []
      | .ok _ => [addr]
  else []

def bmapLog (ip : Inode) (bn : Nat) (d : Disk) : List BlockNo :=
  if h : bn < NDIRECT then
    if ip.addrs ⟨bn, Nat.lt_succ_of_lt h⟩ = 0 then ballocLog lay d else []
  else
    let bn := bn - NDIRECT
    if bn < NINDIRECT then
      (if ip.addrs INDIRECT = 0 then ballocLog lay d else []) ++
        match if ip.addrs INDIRECT = 0 then balloc lay d else .ok (ip.addrs INDIRECT, d) with
        | .error _ => []
        | .ok (addr, d) => entryLog lay addr bn d
    else []

def writeLoopLog (copyin : Copyin) (n : Nat) : Nat → Nat → Nat → Inode → Disk → List BlockNo
  | 0, _, _, _, _ => []
  | r + 1, tot, off, ip, d =>
    if tot < n then
      bmapLog lay ip (off / BSIZE) d ++
        match bmap lay ip (off / BSIZE) d with
        | .error _ => []
        | .ok (addr, ip, d) =>
          let m := min (n - tot) (BSIZE - off % BSIZE)
          let (data, ok) := copyin tot (off % BSIZE) m (d addr)
          if ok then addr :: writeLoopLog copyin n r (tot + m) (off + m) ip (update d addr data)
          else []
    else []

def writeiLog (copyin : Copyin) (ip : Inode) (off n : BitVec 32) (d : Disk) : List BlockNo :=
  if ip.size < off ∨ off + n < off then []
  else if MAXFILE * BSIZE < (off + n).toNat then []
  else
    writeLoopLog lay copyin n.toNat n.toNat 0 off.toNat ip d ++
      match writeLoop lay copyin n.toNat n.toNat 0 off.toNat ip d with
      | .error _ => []
      -- `iupdate`
      | .ok _ => [IBLOCK lay ip.inum]

/-- `max` in `filewrite`. -/
def filewriteMax : Nat := (MAXOPBLOCKS - 1 - 1 - 2) / 2 * BSIZE

variable (k : Fin NINODE) (copyin : Nat → Copyin) (s : Nat → St) (off : Nat → BitVec 32) (n : Int)

/-- The calls of `log_write` of each round of the loop of `filewrite` on the inode `k`. Other
processes run between the rounds: the round `j` finds the state `s j` and `f->off = off j` once it
has the lock of the inode. The last argument but two bounds the rounds: each one writes a byte. -/
def filewriteLoopLog : Nat → Nat → Int → List (List BlockNo)
  | 0, _, _ => []
  | r + 1, j, i =>
    if i < n then
      let n1 := min (n - i) filewriteMax
      let ip := (s j).inode k
      writeiLog lay (copyin j) ip (off j) (.ofInt 32 n1) (s j).disk ::
        match writei lay (copyin j) ip (off j) (.ofInt 32 n1) (s j).disk with
        | .error _ => []
        | .ok (v, _) => if v = n1 then filewriteLoopLog r (j + 1) (i + v) else []
    else []

def filewriteLog : List (List BlockNo) := filewriteLoopLog lay k copyin s off n n.toNat 0 0

end Code

variable {lay : Layout} {d d' : Disk} {ip : Inode} {a i : BlockNo} {bn n r tot off : Nat}
  {copyin : Copyin} {l l' : List BlockNo} {nd nb : Nat} {msg : String}

/-! ## The blocks of a call -/

/-- The blocks of `l` are the indirect block, whose address in the inode is `i`, at most `nd` blocks
of the contents and the bitmap blocks of at most `nb` allocations, and of that of the indirect block
if there is none yet. -/
def Within (i : BlockNo) (nd nb : Nat) (l : List BlockNo) : Prop :=
  ∃ x D M, (i ≠ 0 → x = i) ∧ D.length ≤ nd ∧ M.length ≤ nb + (if i = 0 then 1 else 0) ∧
    l ⊆ x :: (D ++ M)

theorem Within.nil : Within i nd nb [] :=
  ⟨i, [], [], fun _ => rfl, Nat.zero_le _, Nat.zero_le _, nil_subset _⟩

theorem Within.subset (h : Within i nd nb l) (hl : l' ⊆ l) : Within i nd nb l' := by
  obtain ⟨x, D, M, hx, hD, hM, hs⟩ := h
  exact ⟨x, D, M, hx, hD, hM, fun _ hb => hs (hl hb)⟩

theorem Within.card (h : Within i nd nb l) (hl : l' ⊆ [a]) :
    (l ++ l').toFinset.card ≤ nd + nb + 3 := by
  obtain ⟨x, D, M, -, hD, hM, hs⟩ := h
  have hM' : M.length ≤ nb + 1 := hM.trans (Nat.add_le_add_left (by split <;> decide) nb)
  have hsub : l ++ l' ⊆ a :: x :: (D ++ M) := append_subset.mpr
    ⟨fun _ hb => mem_cons_of_mem _ (hs hb), fun _ hb => by simp [mem_singleton.mp (hl hb)]⟩
  calc (l ++ l').toFinset.card ≤ (a :: x :: (D ++ M)).toFinset.card :=
        Finset.card_le_card fun b hb => mem_toFinset.mpr (hsub (mem_toFinset.mp hb))
    _ ≤ (a :: x :: (D ++ M)).length := toFinset_card_le _
    _ ≤ nd + nb + 3 := by
      simp only [length_cons, length_append]
      omega

theorem Within.found (h : Within i nd nb l) (a : BlockNo) : Within i (nd + 1) nb (a :: l) := by
  obtain ⟨x, D, M, hx, hD, hM, hs⟩ := h
  refine ⟨x, a :: D, M, hx, Nat.succ_le_succ hD, hM, fun c hc => ?_⟩
  have := @hs c
  simp only [mem_append, mem_cons] at *
  tauto

/-- A new block of the contents. Its number may go to the indirect block. -/
theorem Within.new (h : Within i nd nb l) (m a : BlockNo) (hl : i ≠ 0 ∧ l' = [i] ∨ l' = []) :
    Within i (nd + 1) (nb + 1) (m :: a :: l' ++ a :: l) := by
  obtain ⟨x, D, M, hx, hD, hM, hs⟩ := h
  refine ⟨x, a :: D, m :: M, hx, Nat.succ_le_succ hD, ?_, fun c hc => ?_⟩
  · rw [length_cons]
    omega
  · have := @hs c
    rcases hl with ⟨hi, rfl⟩ | rfl <;> simp only [mem_append, mem_cons, not_mem_nil] at *
    · rw [hx hi] at *
      tauto
    · tauto

/-- A block of the contents that was there. -/
theorem Within.old (h : Within i nd nb l) : Within i (nd + 1) (nb + 1) (a :: l) :=
  (h.new 0 a (.inr rfl)).subset (subset_append_right ..)

/-- The indirect block is new. -/
theorem Within.indirect (h : Within i nd nb l) (hi : i ≠ 0) (m : BlockNo) :
    Within 0 nd nb (m :: i :: l) := by
  obtain ⟨x, D, M, hx, hD, hM, hs⟩ := h
  rw [if_neg hi] at hM
  refine ⟨x, D, m :: M, fun h => absurd rfl h, hD, Nat.succ_le_succ hM, fun c hc => ?_⟩
  have := @hs c
  rw [hx hi] at *
  simp only [mem_append, mem_cons] at *
  tauto

/-! ## `bmap` and `writei` -/

/-- The blocks `l` of a call of `bmap`, with those of what follows on the block that it returns. -/
def Mapped (i : BlockNo) (l : List BlockNo) : Except String (BlockNo × Inode × Disk) → Prop
  | .error _ => ∀ nd nb, Within i nd nb l
  | .ok (a, ip, _) =>
    ∀ nd nb l', Within (ip.addrs INDIRECT) nd nb l' → Within i (nd + 1) (nb + 1) (l ++ a :: l')

theorem Mapped.indirect {res : Except String (BlockNo × Inode × Disk)} (h : Mapped i l res)
    (hi : i ≠ 0) (m : BlockNo) : Mapped 0 ([m, i] ++ l) res := by
  cases res with
  | error msg => exact fun nd nb => (h nd nb).indirect hi m
  | ok v => exact fun nd nb l' hl => (h nd nb l' hl).indirect hi m

/-- The part of `bmap` that follows when the indirect block is there. -/
theorem mapped_entry (hi : ip.addrs INDIRECT = i) (hne : i ≠ 0) :
    Mapped i (entryLog lay i bn d)
      (if (d i).int bn = 0 then
        match balloc lay d with
        | .error msg => .error msg
        | .ok (a, d) => .ok (a, ip, update d i ((d i).setInt bn a))
      else .ok ((d i).int bn, ip, d)) := by
  unfold entryLog
  split
  · cases hal : balloc lay d with
    | error msg =>
      rw [ballocLog, hal]
      exact fun _ _ => .nil
    | ok v =>
      rw [ballocLog, hal]
      intro nd nb l' hl
      rw [hi] at hl
      exact hl.new _ v.1 (.inl ⟨hne, rfl⟩)
  · intro nd nb l' hl
    rw [hi] at hl
    exact hl.old

theorem mapped_bmap (h : SoundAt lay d ip) (bn : Nat) :
    Mapped (ip.addrs INDIRECT) (bmapLog lay ip bn d) (bmap lay ip bn d) := by
  unfold bmap bmapLog
  split
  · next hbn =>
    dsimp only
    split
    · have hk : INDIRECT ≠ ⟨bn, Nat.lt_succ_of_lt hbn⟩ := fun h =>
        absurd (congrArg Fin.val h) (ne_of_gt hbn)
      cases hal : balloc lay d with
      | error msg =>
        rw [ballocLog, hal]
        exact fun _ _ => .nil
      | ok v =>
        rw [ballocLog, hal]
        intro nd nb l' hl
        dsimp only at hl
        rw [update_of_ne hk] at hl
        exact hl.new _ v.1 (.inr rfl)
    · intro nd nb l' hl
      exact hl.old
  · dsimp only
    split
    · by_cases h0 : ip.addrs INDIRECT = 0
      · rw [if_pos h0, if_pos h0, h0]
        cases hal : balloc lay d with
        | error msg =>
          rw [ballocLog, hal]
          exact fun _ _ => .nil
        | ok v =>
          have hne := (balloc_eq_ok h.reserved hal).1.ne_zero
          rw [ballocLog, hal]
          exact (mapped_entry (update_self INDIRECT v.1 ip.addrs) hne).indirect hne _
      · rw [if_neg h0, if_neg h0]
        exact mapped_entry (update_self INDIRECT _ ip.addrs) h0
    · exact fun _ _ => .nil

/-- Nothing is written for a block that is there. -/
theorem bmapLog_found {s : Slot} (h : SoundAt lay d ip) (ht : ip.type ≠ 0)
    (hs : Slot.ofBlock bn = some s) (hr : refsAt lay d ip (ip.inum, s) = some a) :
    bmapLog lay ip bn d = [] := by
  unfold bmapLog
  obtain ⟨h0, ⟨hbn, rfl⟩ | ⟨hbn, hbn', hb0, rfl⟩⟩ := slot_found h ht hs hr
  · rw [dif_pos hbn, if_neg h0]
  · simp only [dif_neg hbn, if_pos hbn', if_neg hb0]
    exact if_neg h0

/-- The rounds of `writei` that begin in `q` blocks. -/
theorem within_writeLoop (h : SoundAt lay d ip) (ht : ip.type ≠ 0) {q : Nat}
    (hq : tot < n → off % BSIZE + (n - tot) ≤ q * BSIZE) :
    Within (ip.addrs INDIRECT) q q (writeLoopLog lay copyin n r tot off ip d) := by
  induction r generalizing tot off ip d q with
  | zero => exact .nil
  | succ r ih =>
    rw [writeLoopLog]
    split
    · next htot =>
      have hmap := mapped_bmap h (off / BSIZE)
      cases hb : bmap lay ip (off / BSIZE) d with
      | error msg =>
        rw [hb] at hmap
        exact (hmap q q).subset (by simp)
      | ok v =>
        obtain ⟨a, ip', d'⟩ := v
        rw [hb] at hmap
        obtain ⟨hg, -, s, hs, hr⟩ := bmap_grown h ht hb
        rw [← hg.inum] at hr
        have hg2 := Grown.write
          (v := (copyin tot (off % BSIZE) (min (n - tot) (BSIZE - off % BSIZE)) (d' a)).1)
          hg.sound hs hr
        have hq' := hq htot
        obtain ⟨q, rfl⟩ : ∃ q', q = q' + 1 := Nat.exists_eq_succ_of_ne_zero (by rintro rfl; omega)
        dsimp only
        split
        · refine hmap _ _ _ (ih hg2.sound (by rwa [hg.type]) fun hlt => ?_)
          simp only [BSIZE] at *
          omega
        · exact (hmap q q [] .nil).subset (by simp)
    · exact .nil

/-- `writei` of at most three blocks, from any offset. -/
theorem within_writei {off n : BitVec 32} (h : SoundAt lay d ip) (ht : ip.type ≠ 0)
    (hoff : off.toNat ≤ ip.size.toNat) (hn : n.toNat ≤ filewriteMax) (copyin : Copyin) :
    ∃ nd nb, nd + nb ≤ 7 ∧ Within (ip.addrs INDIRECT) nd nb
      (writeLoopLog lay copyin n.toNat n.toNat 0 off.toNat ip d) := by
  have hmax : n.toNat ≤ 3 * BSIZE := hn
  by_cases h0 : off.toNat % BSIZE = 0
  · exact ⟨3, 3, by decide, within_writeLoop h ht fun _ => by omega⟩
  · -- the write begins inside a block, which is below the size and so was there
    refine ⟨4, 3, le_rfl, ?_⟩
    have hlt : off.toNat / BSIZE * BSIZE < ip.size.toNat := by
      have := Nat.div_add_mod' off.toNat BSIZE
      omega
    obtain ⟨s, hs, hne⟩ := h.coveredTo ht _ hlt
    obtain ⟨a, ha⟩ := Option.ne_none_iff_exists'.mp hne
    cases hr : n.toNat with
    | zero => exact .nil
    | succ r =>
      rw [writeLoopLog, if_pos (Nat.succ_pos r), bmapLog_found h ht hs ha, bmap_found h ht hs ha]
      dsimp only
      split
      · refine (within_writeLoop (Grown.write h hs ha).sound ht fun hlt => ?_).found a
        simp only [BSIZE] at *
        omega
      · exact .nil

theorem writei_budget {off n : BitVec 32} (h : SoundAt lay d ip) (ht : ip.type ≠ 0)
    (hn : n.toNat ≤ filewriteMax) :
    (writeiLog lay copyin ip off n d).toFinset.card ≤ MAXOPBLOCKS := by
  unfold writeiLog
  split
  · exact Nat.zero_le _
  · next hoff =>
    split
    · exact Nat.zero_le _
    · rw [not_or, BitVec.not_lt, BitVec.le_def] at hoff
      obtain ⟨nd, nb, hle, hw⟩ := within_writei h ht hoff.1 hn copyin
      refine (hw.card (a := IBLOCK lay ip.inum) ?_).trans (Nat.add_le_add_right hle 3)
      split
      · exact nil_subset _
      · exact Subset.refl _

section
variable (lay) (k : Fin NINODE) (copyin : Nat → Copyin) (off : Nat → BitVec 32) (n : Int)
  {s : Nat → St} (hs : ∀ j, Inv lay (s j) ∧ ((s j).inode k).InUse)
include hs

theorem filewriteLoop_budget {j : Nat} {i : Int} (hi : 0 ≤ i) :
    ∀ l ∈ filewriteLoopLog lay k copyin s off n r j i, l.toFinset.card ≤ MAXOPBLOCKS := by
  induction r generalizing j i with
  | zero => exact forall_mem_nil _
  | succ r ih =>
    rw [filewriteLoopLog]
    split
    · next hlt =>
      obtain ⟨hinv, hk⟩ := hs j
      refine forall_mem_cons.mpr ⟨?_, ?_⟩
      · refine writei_budget (hinv.soundAt hk) (hinv.copy k hk).1 ?_
        rw [BitVec.toNat_ofInt]
        have : filewriteMax = 3072 := rfl
        omega
      · split
        · exact forall_mem_nil _
        · split
          · next hv => exact ih (by omega)
          · exact forall_mem_nil _
    · exact forall_mem_nil _

/-- **`filewrite` stays within its budget**: the blocks that a chunk passes to `log_write` are at
most `MAXOPBLOCKS`. -/
theorem filewrite_budget :
    ∀ l ∈ filewriteLog lay k copyin s off n, l.toFinset.card ≤ MAXOPBLOCKS :=
  filewriteLoop_budget lay k copyin off n hs le_rfl

/-- After some of its calls a chunk may make the next one in the sense of `Fs/Trans`. -/
theorem filewrite_allowed (hl : l ∈ filewriteLog lay k copyin s off n) (hp : l' ++ [a] <+: l)
    {o : Trans.Op} (hn : o.called.Nodup) (ho : o.called ⊆ l') : o.Allows a := by
  by_cases ha : a ∈ o.called
  · exact .inl ha
  · have hsub : a :: o.called ⊆ l := cons_subset.mpr
      ⟨hp.subset (by simp), fun b hb => hp.subset (mem_append_left _ (ho hb))⟩
    refine .inr (Nat.succ_le_iff.mp ?_)
    calc (a :: o.called).length = (a :: o.called).toFinset.card :=
          (toFinset_card_of_nodup (nodup_cons.mpr ⟨ha, hn⟩)).symm
      _ ≤ l.toFinset.card := Finset.card_le_card fun b hb =>
          mem_toFinset.mpr (hsub (mem_toFinset.mp hb))
      _ ≤ MAXOPBLOCKS := filewriteLoop_budget lay k copyin off n hs le_rfl l hl

end

/-- A file of 100 bytes. -/
def shortFile : List Op :=
  [.ialloc 2, .ilock entry0, .setattr entry0 0 0 1, .iupdate entry0,
    .writei entry0 (fun _ _ _ b => (b, true)) 0 100]

/-- 3072 bytes are written at its end, inside its first block. -/
def appendLog (s : St) : List (List BlockNo) :=
  filewriteLog smallLayout entry0 (fun _ _ _ _ b => (b, true)) (fun _ => s) (fun _ => 100) 3072

theorem filewrite_budget_shortFile : ∃ s,
    (machine smallLayout).run { disk := emptyImage } shortFile = some s ∧
      appendLog s = [[3, 2, 4, 4, 2, 5, 5, 2, 6, 6, 1]] ∧
      ∀ l ∈ appendLog s, l.toFinset.card ≤ MAXOPBLOCKS := by
  have h : ((machine smallLayout).run { disk := emptyImage } shortFile).map (fun s =>
      (appendLog s, decide (s.inode entry0).InUse)) =
        some ([[3, 2, 4, 4, 2, 5, 5, 2, 6, 6, 1]], true) := by
    decide +kernel
  obtain ⟨s, hs, he⟩ := Option.map_eq_some_iff.mp h
  obtain ⟨hl, hu⟩ := Prod.mk.inj he
  exact ⟨s, hs, hl, filewrite_budget _ _ _ _ _ fun _ =>
    ⟨inv_of_run smallLayout consistent_emptyImage hs, of_decide_eq_true hu⟩⟩

end Xv6.Ino
