import Xv6Rcu.Fs.Log
import Xv6Rcu.Fs.Trans

/-!
# The buffers that a commit needs

`commit` reads and writes the log through the buffer cache while the log still pins the buffers of
the transaction, and the cache has no more buffers (`NBUF`) than the log has entries (`LOGSIZE`).

- `full_transaction_panics`: three operations within their budgets fill the log, all buffers are
  then pinned, and the first `bread` of the commit finds none for its log block.
- `commit_panics_iff`: this happens exactly for a transaction of `NBUF` blocks; every smaller one is
  committed.
-/

namespace Xv6.Fs

open Lib List

variable {sb : Superblock} {tx : List (BlockNo × Block)} {d : Disk} {mem : Mem}

/-- A transaction of `NBUF` blocks pins every buffer. -/
theorem Ongoing.all_pinned (ho : Ongoing sb tx mem) (hf : Fits sb tx) (hlen : tx.length = NBUF)
    (i : Fin NBUF) : ∃ p ∈ tx, (mem.bcache.buf i).Is ROOTDEV p.1 ∧
      0 < (mem.bcache.buf i).refcnt := by
  choose f hf' using fun t : Fin tx.length => ho.cached tx[t] (getElem_mem t.isLt)
  have hinj : Function.Injective f := by
    intro t u htu
    have ht := (hf' t).1.2
    rw [htu] at ht
    exact Fin.ext (hf.inj t.isLt u.isLt (ht.symm.trans (hf' u).1.2))
  have hsurj : Function.Surjective f :=
    ((Fintype.bijective_iff_injective_and_card f).mpr ⟨hinj, by simp [hlen]⟩).2
  obtain ⟨t, rfl⟩ := hsurj i
  exact ⟨tx[t], getElem_mem t.isLt, (hf' t).1, (hf' t).2.2.1⟩

/-- The first `bread` of the commit of such a transaction panics. -/
theorem commit_full (hf : Fits sb tx) (ho : Ongoing sb tx mem) (hlen : tx.length = NBUF) :
    Exec (fun _ _ => True) (· = .panic "bget: no buffers") commit ⟨mem, d, []⟩
      fun _ _ => False := by
  have hn : mem.log.lh.n.toInt.toNat = NBUF := by
    rw [ho.names.n, toNat_ofNat hf.len, hlen]
  have hpos : 0 < mem.log.lh.n.toInt := by
    by_contra hneg
    rw [Int.toNat_eq_zero.mpr (by omega)] at hn
    cases hn
  have ht : 0 < tx.length := by
    rw [hlen]
    decide
  have hfirst : ∀ Q, Exec (fun _ _ => True) (· = .panic "bget: no buffers") (writeLogOne 0)
      ⟨mem, d, []⟩ Q := by
    intro Q
    apply Exec.read
    dsimp only
    rw [ho.names.dev, ho.names.start]
    apply Exec.bind
    apply Exec.bind
    refine bget_exec ho.ready.toWF (fun i _ => ho.ready.unlocked i) (.inr rfl) (fun i hi => ?_)
      fun i h0 _ => ?_
    · -- the buffer holds a home block
      obtain ⟨p, hp, hip, -⟩ := ho.all_pinned hf hlen i
      exact absurd (hi.2.symm.trans hip.2 ▸ inLog_logBlock hf ht) (hf.home p hp)
    · obtain ⟨p, -, -, hr⟩ := ho.all_pinned hf hlen i
      exact absurd h0 hr.ne'
  apply Exec.read
  rw [if_pos hpos]
  apply Exec.bind
  apply Exec.read
  unfold forInt
  rw [hn]
  refine (Exec.range (fun t w => t = 0 ∧ w = ⟨mem, d, []⟩) ⟨rfl, rfl⟩ ?_).mono
    fun _ _ h => absurd h.1 (by decide)
  rintro t - w ⟨rfl, rfl⟩
  exact hfirst _

/-- The only references to buffers are the pins of the transaction. -/
def NoOtherInUse (tx : List (BlockNo × Block)) (buf : Fin NBUF → Buf) : Prop :=
  ∀ i, (buf i).refcnt =
    if (buf i).dev = ROOTDEV ∧ (buf i).blockno ∈ tx.map Prod.fst then 1 else 0

theorem NoOtherInUse.onlyPins {buf : Fin NBUF → Buf} (h : NoOtherInUse tx buf)
    (hp : ∀ p ∈ tx, Pinned buf ROOTDEV p.1 p.2) : OnlyPins tx 0 buf := by
  refine ⟨fun i => ?_, fun p hp' => ⟨p.2, hp p hp'⟩⟩
  rw [h i]
  by_cases hd : (buf i).dev = ROOTDEV
  · rw [if_pos hd]
    exact if_congr (and_iff_right hd) rfl rfl
  · rw [if_neg hd, if_neg fun h => hd h.1]

/-- `commit`, when no other buffer is in use, runs out of buffers exactly if the transaction has as
many blocks as there are buffers; otherwise it returns. -/
theorem commit_panics_iff (hf : Fits sb tx) (ho : Ongoing sb tx mem)
    (hu : NoOtherInUse tx mem.bcache.buf) :
    ((∃ w', commit ⟨mem, d, []⟩ = .error (.panic "bget: no buffers") w') ↔ tx.length = NBUF) ∧
      (tx.length < NBUF → ∃ w', commit ⟨mem, d, []⟩ = .ok () w') := by
  have hreturns : tx.length < NBUF → ∃ w', commit ⟨mem, d, []⟩ = .ok () w' := by
    intro hlt
    have henough : Enough false tx 0 mem.bcache.buf := ⟨hlt, hu.onlyPins ho.cached⟩
    obtain ⟨⟨⟩, w', hw, -⟩ := (commit_exec hf ho
      (fun _ _ _ _ => trivial) (fun _ _ _ => trivial) (.inl henough)).returns
    exact ⟨w', hw⟩
  refine ⟨⟨fun ⟨w', hw⟩ => ?_, fun hlen => ?_⟩, hreturns⟩
  · have hle : tx.length ≤ NBUF := hf.len
    rcases lt_or_eq_of_le hle with hlt | heq
    · obtain ⟨w'', hw'⟩ := hreturns hlt
      rw [hw] at hw'
      cases hw'
    · exact heq
  · have h := commit_full (d := d) hf ho hlen
    unfold Exec at h
    split at h
    · exact h.2.elim
    · next e w' hw =>
      obtain ⟨-, rfl⟩ := h
      exact ⟨w', hw⟩

/-! ## The largest transaction -/

/-- Thirty blocks from the block 100 on. -/
def fullBlock (i : Nat) : BlockNo := 100 + BitVec.ofNat 32 i

def fullSb : Superblock := ⟨31, 2⟩

def fullTx : List (BlockNo × Block) := (List.range NBUF).map fun i => (fullBlock i, fun _ => 7)

/-- Each buffer holds one of the blocks, pinned. -/
def fullMem : Mem where
  bcache.buf i :=
    { valid := true, dev := ROOTDEV, blockno := fullBlock i, refcnt := 1, data := fun _ => 7 }
  bcache.lru := List.finRange NBUF
  log := { start := 2, size := 31, dev := ROOTDEV, lh := ⟨30, Vector.ofFn fun i => fullBlock i⟩ }

/-- The three operations of `Trans.fullRun` end. -/
def fullCommitRun : List (Trans.Lbl 3) :=
  Trans.fullRun ++ [⟨0, .endOp⟩, ⟨1, .endOp⟩, ⟨2, .endOp⟩]

/-- The third operation commits the transaction of all three, and panics. -/
theorem full_transaction_panics : ∃ s w',
    Trans.machine.Meets Trans.Distinct (Trans.boot 3 31) fullCommitRun ∧
    Trans.machine.run (Trans.boot 3 31) fullCommitRun = some s ∧ s.pc 2 = .commit ∧
    s.log.block = fullTx.map Prod.fst ∧
    (∀ i, (fullMem.bcache.buf i).refcnt = s.pins (fullMem.bcache.buf i).blockno) ∧
    commit ⟨fullMem, demoDisk, []⟩ = .error (.panic "bget: no buffers") w' := by
  have h : (Trans.machine.run (Trans.boot 3 31) fullCommitRun).map (fun s => decide (
      s.pc 2 = .commit ∧ s.log.block = fullTx.map Prod.fst ∧
      ∀ i, (fullMem.bcache.buf i).refcnt = s.pins (fullMem.bcache.buf i).blockno)) =
      some true := by
    decide +kernel
  obtain ⟨s, hs, h⟩ := Option.map_eq_some_iff.mp h
  obtain ⟨hpc, hblock, hpins⟩ := of_decide_eq_true h
  exact ⟨s, _, by decide +kernel, hs, hpc, hblock, hpins, rfl⟩

theorem fullBlock_inj {i j : Nat} (hi : i < NBUF) (hj : j < NBUF) (h : fullBlock i = fullBlock j) :
    i = j := by
  have : i < 30 := hi
  have : j < 30 := hj
  unfold fullBlock at h
  bv_omega

theorem full_fits : Fits fullSb fullTx := by
  refine ⟨by decide, by decide, by decide +kernel, ?_⟩
  rintro p hp ⟨j, hj, he⟩
  obtain ⟨i, hi, rfl⟩ := mem_map.mp hp
  have : i < 30 := mem_range.mp hi
  have : j < 31 := hj
  simp only [fullSb, fullBlock] at he
  bv_omega

theorem full_ongoing : Ongoing fullSb fullTx fullMem := by
  refine ⟨⟨rfl, rfl, rfl, fun t ht => ?_⟩, fun p hp => ?_,
    ⟨mem_finRange, fun i j b hi hj => ?_, fun _ _ => rfl⟩, fun _ => rfl⟩
  · have htl : t < NBUF := by simpa [fullTx] using ht
    have htl' : t < LOGSIZE := htl
    simp [fullTx, fullMem, htl']
  · obtain ⟨i, hi, rfl⟩ := mem_map.mp hp
    exact ⟨⟨i, mem_range.mp hi⟩, ⟨rfl, rfl⟩, rfl, one_pos, rfl⟩
  · exact Fin.ext (fullBlock_inj i.isLt j.isLt (hi.2.trans hj.2.symm))

theorem commit_panics_iff_full : fullTx.length = NBUF ∧
    ∃ w', commit ⟨fullMem, demoDisk, []⟩ = .error (.panic "bget: no buffers") w' := by
  have hu : NoOtherInUse fullTx fullMem.bcache.buf := by
    intro i
    rw [if_pos ⟨rfl, mem_map.mpr ⟨_, mem_map_of_mem (mem_range.mpr i.isLt), rfl⟩⟩]
    rfl
  exact ⟨by decide, (commit_panics_iff full_fits full_ongoing hu).1.mpr (by decide)⟩

end Xv6.Fs
