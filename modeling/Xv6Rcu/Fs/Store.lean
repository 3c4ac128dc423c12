import Xv6Rcu.Fs.Cache
import Xv6Rcu.Fs.Log
import Xv6Rcu.Fs.Trans

/-!
# The block store: cache, log and disk together

The buffer cache (`Cache`) and the log transactions (`Trans`) on one disk, with the contents of the
buffers. Any number of uses read and write blocks (`bread`, changes of `b->data`, `log_write`,
`brelse`), any number of processes bracket operations, and `commit` runs at every point that
`end_op` allows, one bread, copy, disk write or release at a time. The commit has the uses 0 and 1
for its two buffers; the other ones are free.

- A use changes and logs only blocks outside the log area, and logs what it has changed before it
  releases the buffer. Reading is free.
- `contents d₀ logged`: the block array that the users should see: the last logged contents of each
  block, or those of the initial disk `d₀`.
- `Coherent`: how the buffers, the log and the disk represent it, with one lemma for each kind of
  step.
-/

namespace Xv6.Store

open Lib Fs Function
open Cache (Buf Inv goto_buf goto_pc)

/-! ## The machine -/

/-- What the commit does next. `t` is the local variable `tail` of its loops. -/
inductive Stage where
  | idle
  /-- `write_log`: `bread` of the log block, then of the home block. -/
  | readTo (t : Nat)
  | readFrom (t : Nat)
  /-- `memmove`, `bwrite`, `brelse(from)`, `brelse(to)`. -/
  | copyLog (t : Nat)
  | writeTo (t : Nat)
  | relseFrom (t : Nat)
  | relseTo (t : Nat)
  | nextLog (t : Nat)
  /-- `write_head`. -/
  | readHead
  | setHead
  | writeHead
  | relseHead
  | headDone
  /-- `install_trans`: `bread` of the log block, then of the home block. -/
  | readLbuf (t : Nat)
  | readDbuf (t : Nat)
  /-- `memmove`, `bwrite`, `bunpin`, `brelse(lbuf)`, `brelse(dbuf)`. -/
  | copyHome (t : Nat)
  | writeHome (t : Nat)
  | unpin (t : Nat)
  | relseLbuf (t : Nat)
  | relseDbuf (t : Nat)
  | nextInstall (t : Nat)
  deriving DecidableEq

/-- `want u` is the block of the current `bread` of the use `u`. It has changed `b->data` without
logging it if `dirty u`. `logged` lists what was logged, the last one first. -/
structure St (m n : Nat) where
  cache : Cache.St (m + 2)
  trans : Trans.St n
  data : Fin NBUF → Block := fun _ _ => 0
  disk : Disk
  stage : Stage := .idle
  want : Fin (m + 2) → BlockNo := fun _ => 0
  dirty : Fin (m + 2) → Bool := fun _ => false
  logged : List (BlockNo × Block) := []

/-- The system after `binit` and `initlog`, with an empty log. -/
def boot (sb : Superblock) (d₀ : Disk) (m n : Nat) : St m n where
  cache := Cache.binit (m + 2)
  trans := Trans.boot n sb.nlog.toInt
  disk := d₀

inductive Act (n : Nat) where
  | bread (b : BlockNo)
  | acquiresleep
  | fill
  /-- A change of `b->data`. -/
  | modify (v : Block)
  /-- `log_write`, called by the process `p`. -/
  | logWrite (p : Fin n)
  | releasesleep
  | drop

inductive Lbl (m n : Nat) where
  | use (u : Fin (m + 2)) (act : Act n)
  | beginOp (p : Fin n)
  | endOp (p : Fin n)
  | commit (p : Fin n)

variable {m n : Nat}

/-- A step of the cache. -/
def St.cacheStep (s : St m n) (u : Fin (m + 2)) (act : Cache.Act) : Option (St m n) :=
  (Cache.machine.next s.cache ⟨u, act⟩).map fun c => { s with cache := c }

/-- A step of the log. -/
def St.transStep (s : St m n) (p : Fin n) (act : Trans.Act) : Option (St m n) :=
  (Trans.machine.next s.trans ⟨p, act⟩).map fun t => { s with trans := t }

/-- The buffer that the last `bread` of the use returned. -/
def St.held (s : St m n) (u : Fin (m + 2)) : Option (Fin NBUF) :=
  match s.cache.pc u with
  | .holding i => some i
  | _ => none

/-- The start of a `bread`. -/
def St.bread (s : St m n) (dev : BitVec 32) (u : Fin (m + 2)) (b : BlockNo) : Option (St m n) :=
  ({ s with want := update s.want u b }).cacheStep u (.bget dev b)

/-- `bwrite`. -/
def St.bwrite (s : St m n) (i : Fin NBUF) : St m n :=
  { s with disk := update s.disk (s.cache.buf i).blockno (s.data i) }

/-- The block is outside the log area. -/
def Home (sb : Superblock) (b : BlockNo) : Prop := ¬ InLog sb b

instance (sb : Superblock) (b : BlockNo) : Decidable (Home sb b) :=
  inferInstanceAs (Decidable (¬ ∃ j < sb.nlog.toNat, b = sb.logstart + BitVec.ofNat 32 j))

/-- A step of the use `u`. -/
def useStep (sb : Superblock) (dev : BitVec 32) (s : St m n) (u : Fin (m + 2)) :
    Act n → Option (St m n)
  | .bread b => if 2 ≤ u.val then s.bread dev u b else none
  | .acquiresleep => s.cacheStep u .acquiresleep
  | .fill =>
    match s.cache.pc u with
    | .locked i =>
      let data := if (s.cache.buf i).valid then s.data
        else update s.data i (s.disk (s.cache.buf i).blockno)
      { s with data }.cacheStep u .fill
    | _ => none
  | .modify v =>
    match s.held u with
    | some i =>
      if 2 ≤ u.val ∧ Home sb (s.cache.buf i).blockno then
        some { s with data := update s.data i v, dirty := update s.dirty u true }
      else none
    | none => none
  | .logWrite p =>
    match s.held u with
    | some i =>
      let b := (s.cache.buf i).blockno
      if 2 ≤ u.val ∧ Home sb b then do
        let s' ← s.transStep p (.logWrite b)
        let s' ← if b ∈ s.trans.log.block then some s' else s'.cacheStep u .bpin
        return { s' with
          dirty := update s.dirty u false
          logged := (b, s.data i) :: s.logged }
      else none
    | none => none
  | .releasesleep => if 2 ≤ u.val ∧ s.dirty u = false then s.cacheStep u .releasesleep else none
  | .drop => s.cacheStep u .drop

/-- The header block: `hb->n = log.lh.n`, and the block numbers. -/
def header (block : List BlockNo) (old : Block) : Block :=
  (block.zipIdx).foldl (fun d e => d.setInt (e.2 + 1) e.1)
    (old.setInt 0 (BitVec.ofNat 32 block.length))

/-- A step of the commit, by the process `p`. -/
def commitStep (sb : Superblock) (dev : BitVec 32) (s : St m n) (p : Fin n) : Option (St m n) :=
  let block := s.trans.log.block
  if (s.trans.pc p).phase = none then none else
  match s.stage with
  | .idle =>
    if s.trans.pc p = .commit ∧ block ≠ [] then some { s with stage := .readTo 0 }
    else s.transStep p .commit
  | .readTo t =>
    if t < block.length then
      { s with stage := .readFrom t }.bread dev 0 (logBlock sb.logstart t)
    else some { s with stage := .readHead }
  | .readFrom t => do
    let _ ← s.held 0
    { s with stage := .copyLog t }.bread dev 1 (block.getD t 0)
  | .copyLog t => do
    let i ← s.held 0
    let j ← s.held 1
    return { s with data := update s.data i (s.data j), stage := .writeTo t }
  | .writeTo t => do
    let i ← s.held 0
    return { s.bwrite i with stage := .relseFrom t }
  | .relseFrom t => { s with stage := .relseTo t }.cacheStep 1 .releasesleep
  | .relseTo t =>
    if s.cache.pc 1 = .idle then { s with stage := .nextLog t }.cacheStep 0 .releasesleep else none
  | .nextLog t => if s.cache.pc 0 = .idle then some { s with stage := .readTo (t + 1) } else none
  | .readHead => { s with stage := .setHead }.bread dev 0 sb.logstart
  | .setHead => do
    let i ← s.held 0
    return { s with data := update s.data i (header block (s.data i)),
                    stage := .writeHead }
  | .writeHead => do
    let i ← s.held 0
    return { s.bwrite i with stage := .relseHead }
  | .relseHead => { s with stage := .headDone }.cacheStep 0 .releasesleep
  | .headDone =>
    if s.cache.pc 0 = .idle then
      match s.trans.pc p with
      | .commit => { s with stage := .readLbuf 0 }.transStep p .commit
      | .committed => some { s with stage := .idle }
      | _ => none
    else none
  | .readLbuf t =>
    if t < block.length then
      { s with stage := .readDbuf t }.bread dev 0 (logBlock sb.logstart t)
    -- `log.lh.n = 0`
    else { s with stage := .readHead }.transStep p .commit
  | .readDbuf t => do
    let _ ← s.held 0
    { s with stage := .copyHome t }.bread dev 1 (block.getD t 0)
  | .copyHome t => do
    let i ← s.held 0
    let j ← s.held 1
    return { s with data := update s.data j (s.data i), stage := .writeHome t }
  | .writeHome t => do
    let j ← s.held 1
    return { s.bwrite j with stage := .unpin t }
  | .unpin t => do
    let j ← s.held 1
    let s' ← { s with stage := .relseLbuf t }.cacheStep 1 (.bunpin j)
    s'.transStep p .commit
  | .relseLbuf t => { s with stage := .relseDbuf t }.cacheStep 0 .releasesleep
  | .relseDbuf t =>
    if s.cache.pc 0 = .idle then { s with stage := .nextInstall t }.cacheStep 1 .releasesleep
    else none
  | .nextInstall t =>
    if s.cache.pc 1 = .idle then some { s with stage := .readLbuf (t + 1) } else none

def machine (sb : Superblock) (dev : BitVec 32) : Machine (St m n) (Lbl m n) where
  next s
    | .use u act => useStep sb dev s u act
    | .beginOp p => s.transStep p .beginOp
    | .endOp p => s.transStep p .endOp
    | .commit p => commitStep sb dev s p

/-! ## The block array that the users see -/

/-- The initial disk with the logged contents, the last one first. -/
def contents (d₀ : Disk) (logged : List (BlockNo × Block)) : Disk :=
  logged.foldr (fun e d => update d e.1 e.2) d₀

/-- The buffer has the identity `(dev, b)`. -/
def Is {k : Nat} (dev : BitVec 32) (c : Cache.St k) (i : Fin NBUF) (b : BlockNo) : Prop :=
  (c.buf i).dev = dev ∧ (c.buf i).blockno = b

/-- What the users' block array `val` is represented by. The blocks of `pending` are logged and not
installed. `copies b v`: the log block `b` holds the committed contents `v`. -/
structure View (k : Nat) where
  cache : Cache.St k
  want : Fin k → BlockNo
  dirty : Fin k → Bool
  data : Fin NBUF → Block
  disk : Disk
  val : Disk
  pending : List BlockNo
  copies : BlockNo → Block → Prop

structure Coherent {k : Nat} (sb : Superblock) (dev : BitVec 32) (w : View k) : Prop where
  inv : ∃ xs, Inv w.cache xs
  wanted : ∀ u i, (w.cache.pc u).buf = some i → Is dev w.cache i (w.want u)
  valid : ∀ u i, w.cache.pc u = .holding i → (w.cache.buf i).valid = true
  dirty_held : ∀ u, w.dirty u = true → ∃ i, w.cache.pc u = .holding i
  /-- A buffer that nobody is changing holds the block. -/
  clean : ∀ i b, Is dev w.cache i b → (w.cache.buf i).valid = true → Home sb b →
    (∀ u, w.cache.pc u = .holding i → w.dirty u = false) → w.data i = w.val b
  /-- What is installed is on disk. -/
  home : ∀ b, Home sb b → b ∉ w.pending → w.disk b = w.val b
  /-- What is not installed is in the cache, and cannot be recycled. -/
  pinned : ∀ b ∈ w.pending, Home sb b ∧
    ∃ i, Is dev w.cache i b ∧ (w.cache.buf i).valid = true ∧ 0 < w.cache.pins i
  copied : ∀ b v, w.copies b v → ¬ Home sb b ∧ w.disk b = v ∧
    ∀ i, Is dev w.cache i b → (w.cache.buf i).valid = true → w.data i = v

namespace Coherent

variable {k : Nat} {sb : Superblock} {dev : BitVec 32} {w : View k} {c : Cache.St k}
  {u v : Fin k} {i j : Fin NBUF} {b : BlockNo}

section
variable (h : Coherent sb dev w)
include h

theorem refcnt_pos (hu : (w.cache.pc u).buf = some i) : 0 < (w.cache.buf i).refcnt := by
  obtain ⟨xs, hc⟩ := h.inv
  exact hc.refcnt_pos hu

theorem refcnt_of_pins (hi : 0 < w.cache.pins i) : 0 < (w.cache.buf i).refcnt := by
  obtain ⟨xs, hc⟩ := h.inv
  have := hc.refcnt i
  omega

/-- No block is in two buffers. -/
theorem inj (hi : Is dev w.cache i b) (hj : Is dev w.cache j b) (hai : (w.cache.buf i).Active)
    (haj : (w.cache.buf j).Active) : i = j := by
  obtain ⟨xs, hc⟩ := h.inv
  by_contra hne
  exact hc.unique hne hai ⟨hi.1.trans hj.1.symm, hi.2.trans hj.2.symm⟩ haj

/-- No buffer has two holders. -/
theorem holder (hu : (w.cache.pc u).held = some i) (hv : (w.cache.pc v).held = some i) : u = v := by
  obtain ⟨xs, hc⟩ := h.inv
  have hl := hc.locks u i hu
  rw [hc.locks v i hv] at hl
  exact (Option.some.inj hl).symm

/-- A step of the cache that keeps what the buffers hold. -/
theorem quiet {want : Fin k → BlockNo} (hc : ∃ xs, Inv c xs)
    (hk : ∀ i, (c.buf i).Same (w.cache.buf i) ∧ (c.buf i).valid = (w.cache.buf i).valid)
    (hp : ∀ i, ∀ b ∈ w.pending, Is dev w.cache i b → 0 < w.cache.pins i → 0 < c.pins i)
    (hw : ∀ v i, (c.pc v).buf = some i → Is dev w.cache i (want v))
    (hh : ∀ v i, c.pc v = .holding i → w.cache.pc v = .holding i)
    (hd : ∀ v i, w.cache.pc v = .holding i → w.dirty v = true → c.pc v = .holding i) :
    Coherent sb dev { w with cache := c, want } := by
  have hIs : ∀ i b, Is dev c i b ↔ Is dev w.cache i b := by
    intro i b
    unfold Is
    rw [(hk i).1.1, (hk i).1.2]
  refine ⟨hc, fun v i hv => (hIs i _).mpr (hw v i hv), fun v i hv => ?_, fun v hv => ?_,
    fun i b hi hval hb hcl => ?_, h.home, fun b hb => ?_, fun b w hcp => ?_⟩
  · rw [(hk i).2]
    exact h.valid v i (hh v i hv)
  · obtain ⟨i, hi⟩ := h.dirty_held v hv
    exact ⟨i, hd v i hi hv⟩
  · refine h.clean i b ((hIs i b).mp hi) (by rw [← (hk i).2]; exact hval) hb fun v hv => ?_
    rw [Bool.eq_false_iff]
    exact fun hdv => Bool.eq_false_iff.mp (hcl v (hd v i hv hdv)) hdv
  · obtain ⟨hhome, i, hi, hval, hpi⟩ := h.pinned b hb
    exact ⟨hhome, i, (hIs i b).mpr hi, by rw [(hk i).2]; exact hval, hp i b hb hi hpi⟩
  · obtain ⟨hb, hdisk, hdata⟩ := h.copied b w hcp
    exact ⟨hb, hdisk, fun i hi hval => hdata i ((hIs i b).mp hi) (by rw [← (hk i).2]; exact hval)⟩

theorem not_dirty (hu : ∀ i, w.cache.pc u ≠ .holding i) : w.dirty u = false := by
  rw [Bool.eq_false_iff]
  intro hd
  obtain ⟨i, hi⟩ := h.dirty_held u hd
  exact hu i hi

omit h in
theorem same_update {buf : Fin NBUF → Buf k} {x : Buf k} (hs : x.Same (buf i))
    (hv : x.valid = (buf i).valid) (j : Fin NBUF) :
    (update buf i x j).Same (buf j) ∧
      (update buf i x j).valid = (buf j).valid := by
  by_cases hji : j = i
  · subst hji
    rw [update_self]
    exact ⟨hs, hv⟩
  · rw [update_of_ne hji]
    exact ⟨⟨rfl, rfl⟩, rfl⟩

/-- A step of a use that is not changing its buffer, to a place where it does not hold one. -/
theorem move {x : Buf k} {pc : Cache.Pc} (hc : ∃ xs, Inv c xs)
    (hbuf : c.buf = update w.cache.buf i x) (hs : x.Same (w.cache.buf i))
    (hval : x.valid = (w.cache.buf i).valid) (hpc : c.pc = update w.cache.pc u pc)
    (hpins : c.pins = w.cache.pins) (hb : ∀ j, pc.buf = some j → (w.cache.pc u).buf = some j)
    (hno : ∀ j, pc ≠ .holding j) (hd : w.dirty u = false) :
    Coherent sb dev { w with cache := c } := by
  refine h.quiet hc (fun j => by rw [hbuf]; exact same_update hs hval j)
    (fun j _ _ _ => by rw [hpins]; exact id) (fun v j hv => h.wanted v j ?_) (fun v j hv => ?_)
    fun v j hv hdv => ?_
  all_goals rw [hpc] at *
  · by_cases hvu : v = u
    · subst hvu
      rw [update_self] at hv
      exact hb j hv
    · rwa [update_of_ne hvu] at hv
  · by_cases hvu : v = u
    · subst hvu
      rw [update_self] at hv
      exact absurd hv (hno j)
    · rwa [update_of_ne hvu] at hv
  · have hvu : v ≠ u := by
      rintro rfl
      rw [hd] at hdv
      cases hdv
    rwa [update_of_ne hvu]

theorem acquiresleep (hn : Cache.machine.next w.cache ⟨u, .acquiresleep⟩ = some c) :
    Coherent sb dev { w with cache := c } := by
  obtain ⟨xs, hc⟩ := h.inv
  have hc' := hc.step hn
  obtain ⟨i, hp, rfl⟩ := Cache.next_acquiresleep hn
  refine h.move hc' rfl ⟨rfl, rfl⟩ rfl rfl rfl (fun j hj => by rw [hp]; exact hj) nofun
    (h.not_dirty fun j => by rw [hp]; exact nofun)

theorem releasesleep (hn : Cache.machine.next w.cache ⟨u, .releasesleep⟩ = some c)
    (hd : w.dirty u = false) : Coherent sb dev { w with cache := c } := by
  obtain ⟨xs, hc⟩ := h.inv
  have hc' := hc.step hn
  obtain ⟨i, hp, rfl⟩ := Cache.next_releasesleep hn
  exact h.move hc' rfl ⟨rfl, rfl⟩ rfl rfl rfl (fun j hj => by rw [hp]; exact hj) nofun hd

theorem drop (hn : Cache.machine.next w.cache ⟨u, .drop⟩ = some c) :
    Coherent sb dev { w with cache := c } := by
  obtain ⟨xs, hc⟩ := h.inv
  obtain ⟨i, hp, hbuf, hpc, hpins⟩ := Cache.next_drop hn
  exact h.move (hc.step hn) hbuf ⟨rfl, rfl⟩ rfl hpc hpins nofun nofun
    (h.not_dirty fun j => by rw [hp]; exact nofun)

/-- The buffer that `bget` gives the use may be recycled: it was not in use. -/
theorem bget (hn : Cache.machine.next w.cache ⟨u, .bget dev b⟩ = some c) :
    Coherent sb dev { w with cache := c, want := update w.want u b } := by
  obtain ⟨xs, hc⟩ := h.inv
  have hc' := hc.step hn
  obtain ⟨hidle, i, x, rfl, hdev, hblk, hcase⟩ := Cache.next_bget hc hn
  have hhold : ∀ v j, update w.cache.pc u (.waiting i) v = .holding j ↔
      w.cache.pc v = .holding j := by
    intro v j
    by_cases hvu : v = u
    · subst hvu
      simp [hidle]
    · rw [update_of_ne hvu]
  rcases hcase with ⟨hs, hval⟩ | ⟨h0, hval⟩
  · refine h.quiet hc' (same_update hs hval) (fun _ _ _ _ => id) (fun v j hv => ?_)
      (fun v j => (hhold v j).mp) fun v j hv _ => (hhold v j).mpr hv
    rw [goto_pc] at hv
    by_cases hvu : v = u
    · subst hvu
      rw [update_self] at hv ⊢
      cases hv
      exact ⟨hs.1.symm.trans hdev, hs.2.symm.trans hblk⟩
    · rw [update_of_ne hvu] at hv ⊢
      exact h.wanted v j hv
  · -- every buffer that someone refers to is another one
    have hne : ∀ j, 0 < (w.cache.buf j).refcnt →
        update w.cache.buf i x j = w.cache.buf j := by
      intro j hj
      refine update_of_ne ?_ _ _
      rintro rfl
      omega
    have hnv : ∀ j, (update w.cache.buf i x j).valid = true →
        update w.cache.buf i x j = w.cache.buf j := by
      intro j hj
      refine update_of_ne ?_ _ _
      rintro rfl
      rw [update_self, hval] at hj
      cases hj
    refine ⟨hc', fun v j hv => ?_, fun v j hv => ?_, fun v hv => ?_, fun j c hj hjv hb hcl => ?_,
      h.home, fun c hb => ?_, fun c y hcp => ?_⟩
    · change (update w.cache.pc u (.waiting i) v).buf = some j at hv
      unfold Is
      rw [goto_buf, Cache.setBuf_buf]
      by_cases hvu : v = u
      · subst hvu
        rw [update_self] at hv
        cases hv
        simp only [update_self]
        exact ⟨hdev, hblk⟩
      · rw [update_of_ne hvu] at hv
        rw [hne j (h.refcnt_pos hv)]
        simp only [update_of_ne hvu]
        exact h.wanted v j hv
    · have hv' := (hhold v j).mp hv
      rw [goto_buf, Cache.setBuf_buf, hne j (h.refcnt_pos (by rw [hv']; rfl))]
      exact h.valid v j hv'
    · obtain ⟨j, hj⟩ := h.dirty_held v hv
      exact ⟨j, (hhold v j).mpr hj⟩
    · have he := hnv j hjv
      unfold Is at hj
      rw [goto_buf, Cache.setBuf_buf, he] at hj hjv
      exact h.clean j c hj hjv hb fun v hv => hcl v ((hhold v j).mpr hv)
    · obtain ⟨hhome, j, hj, hjv, hjp⟩ := h.pinned c hb
      have he := hne j (h.refcnt_of_pins hjp)
      refine ⟨hhome, j, ?_, ?_, hjp⟩
      · unfold Is
        rw [goto_buf, Cache.setBuf_buf, he]
        exact hj
      · rw [goto_buf, Cache.setBuf_buf, he]
        exact hjv
    · obtain ⟨hb, hdisk, hdata⟩ := h.copied c y hcp
      refine ⟨hb, hdisk, fun j hj hjv => ?_⟩
      have he := hnv j hjv
      unfold Is at hj
      rw [goto_buf, Cache.setBuf_buf, he] at hj hjv
      exact hdata j hj hjv

/-- A block that is not in the cache is read from the disk. It is installed there: a block that is
not installed is in the cache. -/
theorem fill (hp : w.cache.pc u = .locked i) (hn : Cache.machine.next w.cache ⟨u, .fill⟩ = some c) :
    Coherent sb dev { w with
      cache := c
      data := if (w.cache.buf i).valid then w.data
        else update w.data i (w.disk (w.cache.buf i).blockno) } := by
  obtain ⟨xs, hc⟩ := h.inv
  have hc' := hc.step hn
  obtain ⟨i', hp', rfl⟩ := Cache.next_fill hn
  obtain rfl : i = i' := by
    rw [hp] at hp'
    cases hp'
    rfl
  have hpos := h.refcnt_pos (u := u) (i := i) (by rw [hp]; rfl)
  have hIs : ∀ j b, Is dev ((w.cache.setBuf i { w.cache.buf i with valid := true }).goto u
      (.holding i)) j b ↔ Is dev w.cache j b := by
    intro j b
    unfold Is
    rw [goto_buf, Cache.setBuf_buf]
    by_cases hji : j = i
    · subst hji
      simp [update_self]
    · rw [update_of_ne hji]
  have hval : ∀ j, j ≠ i → (((w.cache.setBuf i { w.cache.buf i with valid := true }).goto u
      (.holding i)).buf j).valid = (w.cache.buf j).valid := by
    intro j hji
    rw [goto_buf, Cache.setBuf_buf, update_of_ne hji]
  have hdata : ∀ j, j ≠ i → (if (w.cache.buf i).valid then w.data
      else update w.data i (w.disk (w.cache.buf i).blockno)) j = w.data j := by
    intro j hji
    split
    · rfl
    · rw [update_of_ne hji]
  have hother : ∀ v, v ≠ u → w.cache.pc v ≠ .holding i := by
    intro v hvu hv
    exact hvu (h.holder (by rw [hv]; rfl) (by rw [hp]; rfl))
  have hpc : ∀ v, v ≠ u → ((w.cache.setBuf i { w.cache.buf i with valid := true }).goto u
      (.holding i)).pc v = w.cache.pc v := fun v hvu => update_of_ne hvu ..
  refine ⟨hc', fun v j hv => (hIs j _).mpr (h.wanted v j ?_), fun v j hv => ?_, fun v hv => ?_,
    fun j b hj hjv hb hcl => ?_, h.home, fun b hb => ?_, fun b y hcp => ?_⟩
  · by_cases hvu : v = u
    · subst hvu
      simp only [goto_pc, update_self] at hv
      rw [hp]
      exact hv
    · rwa [hpc v hvu] at hv
  · by_cases hji : j = i
    · subst hji
      simp
    · rw [hval j hji]
      refine h.valid v j ?_
      by_cases hvu : v = u
      · subst hvu
        simp only [goto_pc, update_self] at hv
        cases hv
        exact absurd rfl hji
      · rwa [hpc v hvu] at hv
  · have hvu : v ≠ u := by
      rintro rfl
      obtain ⟨j, hj⟩ := h.dirty_held v hv
      rw [hp] at hj
      cases hj
    obtain ⟨j, hj⟩ := h.dirty_held v hv
    exact ⟨j, by rw [hpc v hvu]; exact hj⟩
  · have hj' := (hIs j b).mp hj
    by_cases hji : j = i
    · subst hji
      cases hv : (w.cache.buf j).valid with
      | true =>
        refine h.clean j b hj' hv hb fun v hvj => ?_
        by_cases hvu : v = u
        · rw [hvu, hp] at hvj
          cases hvj
        · exact absurd hvj (hother v hvu)
      | false =>
        simp only [Bool.false_eq_true, if_false, update_self, hj'.2]
        refine h.home b hb fun hpend => ?_
        obtain ⟨-, l, hl, hlv, -⟩ := h.pinned b hpend
        have hlj := h.inj hl hj' (.inl hlv) (.inr hpos)
        rw [hlj, hv] at hlv
        cases hlv
    · refine (hdata j hji).trans (h.clean j b hj' (by rw [← hval j hji]; exact hjv)
        hb fun v hvj => ?_)
      by_cases hvu : v = u
      · rw [hvu, hp] at hvj
        cases hvj
      · exact hcl v (by rw [hpc v hvu]; exact hvj)
  · obtain ⟨hhome, j, hj, hjv, hjp⟩ := h.pinned b hb
    refine ⟨hhome, j, (hIs j b).mpr hj, ?_, hjp⟩
    by_cases hji : j = i
    · subst hji
      simp
    · rw [hval j hji]
      exact hjv
  · obtain ⟨hb, hdisk, hold⟩ := h.copied b y hcp
    refine ⟨hb, hdisk, fun j hj hjv => ?_⟩
    have hj' := (hIs j b).mp hj
    by_cases hji : j = i
    · subst hji
      cases hv : (w.cache.buf j).valid with
      | true =>
        exact hold j hj' hv
      | false => simp [hj'.2, hdisk]
    · exact (hdata j hji).trans (hold j hj' (by rw [← hval j hji]; exact hjv))

end

section
variable (h : Coherent sb dev w) (hp : w.cache.pc u = .holding i)
include h hp

/-- A use changes its buffer. -/
theorem modify (hb : Home sb (w.cache.buf i).blockno) (x : Block) :
    Coherent sb dev { w with
      data := update w.data i x, dirty := update w.dirty u true } := by
  refine ⟨h.inv, h.wanted, h.valid, fun v hv => ?_, fun j c hj hjv hc hcl => ?_, h.home, h.pinned,
    fun c y hcp => ?_⟩
  · by_cases hvu : v = u
    · exact ⟨i, hvu ▸ hp⟩
    · exact h.dirty_held v (by simpa [update_of_ne hvu] using hv)
  · by_cases hji : j = i
    · -- the buffer is dirty now
      have hd := hcl u (by rw [hji]; exact hp)
      simp at hd
    · refine (update_of_ne hji ..).trans (h.clean j c hj hjv hc fun v hv => ?_)
      have hvu : v ≠ u := by
        rintro rfl
        rw [hp] at hv
        cases hv
        exact hji rfl
      simpa [update_of_ne hvu] using hcl v hv
  · obtain ⟨hc, hdisk, hold⟩ := h.copied c y hcp
    refine ⟨hc, hdisk, fun j hj hjv => ?_⟩
    have hji : j ≠ i := by
      rintro rfl
      exact hc (hj.2 ▸ hb)
    exact (update_of_ne hji ..).trans (hold j hj hjv)

/-- A use logs its buffer, which is or becomes pinned. -/
theorem log (hbi : (w.cache.buf i).blockno = b) (hb : Home sb b) {pending : List BlockNo}
    {copies : BlockNo → Block → Prop} (hpin : b ∈ w.pending ∨ 0 < w.cache.pins i)
    (hpend : ∀ c, c ∈ pending ↔ c ∈ w.pending ∨ c = b) (hcopies : ∀ c y, ¬ copies c y) :
    Coherent sb dev { w with
      dirty := update w.dirty u false
      val := update w.val b (w.data i), pending, copies } := by
  subst hbi
  have hi : Is dev w.cache i (w.cache.buf i).blockno := ⟨(h.wanted u i (by rw [hp]; rfl)).1, rfl⟩
  have hiv := h.valid u i hp
  refine ⟨h.inv, h.wanted, h.valid, fun v hv => ?_, fun j c hj hjv hc hcl => ?_, fun c hc hcp => ?_,
    fun c hc => ?_, fun c y hcp => absurd hcp (hcopies c y)⟩
  · have hvu : v ≠ u := by
      rintro rfl
      simp at hv
    exact h.dirty_held v (by simpa [update_of_ne hvu] using hv)
  · by_cases hcb : c = (w.cache.buf i).blockno
    · subst hcb
      obtain rfl := h.inj hj hi (.inl hjv) (.inl hiv)
      simp
    · refine (h.clean j c hj hjv hc fun v hv => ?_).trans (update_of_ne hcb ..).symm
      have hvu : v ≠ u := by
        rintro rfl
        rw [hp] at hv
        cases hv
        exact hcb hj.2.symm
      simpa [update_of_ne hvu] using hcl v hv
  · have hcb : c ≠ (w.cache.buf i).blockno := fun he => hcp ((hpend c).mpr (.inr he))
    refine (h.home c hc fun hm => hcp ((hpend c).mpr (.inl hm))).trans ?_
    exact (update_of_ne hcb ..).symm
  · by_cases hcp : c ∈ w.pending
    · exact h.pinned c hcp
    · obtain rfl := ((hpend c).mp hc).resolve_left hcp
      exact ⟨hb, i, hi, hiv, hpin.resolve_left hcp⟩

/-- The commit writes to the buffer of a log block that holds no copy yet. -/
theorem store (hw : w.want u = b) (hb : ¬ Home sb b) (hcp : ∀ y, ¬ w.copies b y) (x : Block) :
    Coherent sb dev { w with data := update w.data i x } := by
  subst hw
  have hi := h.wanted u i (by rw [hp]; rfl)
  refine ⟨h.inv, h.wanted, h.valid, h.dirty_held, fun j c hj hjv hc hcl => ?_, h.home, h.pinned,
    fun c y hcy => ?_⟩
  · have hji : j ≠ i := by
      rintro rfl
      exact hb (hi.2 ▸ hj.2 ▸ hc)
    exact (update_of_ne hji ..).trans (h.clean j c hj hjv hc hcl)
  · obtain ⟨hc, hdisk, hold⟩ := h.copied c y hcy
    refine ⟨hc, hdisk, fun j hj hjv => ?_⟩
    have hji : j ≠ i := by
      rintro rfl
      rw [← hj.2, hi.2] at hcy
      exact hcp y hcy
    exact (update_of_ne hji ..).trans (hold j hj hjv)

/-- The commit writes the buffer of a log block to disk, which may make it a copy. -/
theorem bwriteLog (hw : w.want u = b) (hb : ¬ Home sb b) (hcp : ∀ y, ¬ w.copies b y)
    {copies : BlockNo → Block → Prop}
    (hcopies : ∀ c y, copies c y → w.copies c y ∨ c = b ∧ y = w.data i) :
    Coherent sb dev { w with
      disk := update w.disk (w.cache.buf i).blockno (w.data i), copies } := by
  subst hw
  have hi := h.wanted u i (by rw [hp]; rfl)
  rw [hi.2]
  refine ⟨h.inv, h.wanted, h.valid, h.dirty_held, h.clean, fun c hc hcn => ?_, h.pinned,
    fun c y hcy => ?_⟩
  · have hne : c ≠ w.want u := fun he => hb (he ▸ hc)
    exact (update_of_ne hne ..).trans (h.home c hc hcn)
  · rcases hcopies c y hcy with hcy | ⟨rfl, rfl⟩
    · obtain ⟨hc, hdisk, hold⟩ := h.copied c y hcy
      have hne : c ≠ w.want u := fun he => hcp y (he ▸ hcy)
      exact ⟨hc, (update_of_ne hne ..).trans hdisk, hold⟩
    · refine ⟨hb, update_self .., fun j hj hjv => ?_⟩
      rw [h.inj hj hi (.inl hjv) (.inl (h.valid u i hp))]

/-- The commit writes a home block to disk. -/
theorem bwriteHome (hw : w.want u = b) (hb : Home sb b) (hv : w.data i = w.val b) :
    Coherent sb dev { w with
      disk := update w.disk (w.cache.buf i).blockno (w.data i) } := by
  subst hw
  have hi := h.wanted u i (by rw [hp]; rfl)
  rw [hi.2]
  refine ⟨h.inv, h.wanted, h.valid, h.dirty_held, h.clean, fun c hc hcn => ?_, h.pinned,
    fun c y hcy => ?_⟩
  · by_cases hcw : c = w.want u
    · subst hcw
      exact (update_self ..).trans hv
    · exact (update_of_ne hcw ..).trans (h.home c hc hcn)
  · obtain ⟨hc, hdisk, hold⟩ := h.copied c y hcy
    have hne : c ≠ w.want u := fun he => hc (he ▸ hb)
    exact ⟨hc, (update_of_ne hne ..).trans hdisk, hold⟩

end

section
variable (h : Coherent sb dev w)
include h

/-- Blocks that are on disk need no pin. -/
theorem settle {pending : List BlockNo} (hsub : ∀ b ∈ pending, b ∈ w.pending)
    (hdisk : ∀ b, b ∈ w.pending → b ∉ pending → w.disk b = w.val b) :
    Coherent sb dev { w with pending } := by
  refine ⟨h.inv, h.wanted, h.valid, h.dirty_held, h.clean, fun b hb hn => ?_,
    fun b hb => h.pinned b (hsub b hb), h.copied⟩
  by_cases hbp : b ∈ w.pending
  · exact hdisk b hbp hn
  · exact h.home b hb hbp

/-- A step that leaves the uses where they are, and the identities of the buffers. -/
theorem repin {x : Buf k} (hc : ∃ xs, Inv c xs) (hbuf : c.buf = update w.cache.buf i x)
    (hs : x.Same (w.cache.buf i)) (hval : x.valid = (w.cache.buf i).valid) (hpc : c.pc = w.cache.pc)
    (hp : ∀ i, ∀ b ∈ w.pending, Is dev w.cache i b → 0 < w.cache.pins i → 0 < c.pins i) :
    Coherent sb dev { w with cache := c } := by
  refine h.quiet hc (fun j => by rw [hbuf]; exact same_update hs hval j) hp
    (fun v j hv => h.wanted v j ?_) (fun v j hv => ?_) fun v j hv _ => ?_
  all_goals rwa [hpc] at *

theorem bpin (hn : Cache.machine.next w.cache ⟨u, .bpin⟩ = some c) :
    Coherent sb dev { w with cache := c } := by
  obtain ⟨xs, hc⟩ := h.inv
  have hc' := hc.step hn
  obtain ⟨i, -, rfl⟩ := Cache.next_bpin hn
  refine h.repin hc' rfl ⟨rfl, rfl⟩ rfl rfl fun j _ _ _ hj => ?_
  show 0 < update w.cache.pins i (w.cache.pins i + 1) j
  by_cases hji : j = i
  · rw [hji, update_self]
    exact Nat.succ_pos _
  · rwa [update_of_ne hji]

/-- The commit unpins an installed block. -/
theorem bunpin (hp : w.cache.pc u = .holding i) (hw : w.want u = b)
    (hn : Cache.machine.next w.cache ⟨u, .bunpin i⟩ = some c) (hb : b ∉ w.pending) :
    Coherent sb dev { w with cache := c } := by
  subst hw
  obtain ⟨xs, hc⟩ := h.inv
  have hc' := hc.step hn
  have hi := h.wanted u i (by rw [hp]; rfl)
  obtain rfl := Cache.next_bunpin hn
  refine h.repin hc' rfl ⟨rfl, rfl⟩ rfl rfl fun j c hc hj hjp => ?_
  have hji : j ≠ i := by
    rintro rfl
    rw [← hj.2, hi.2] at hc
    exact hb hc
  show 0 < update w.cache.pins i (w.cache.pins i - 1) j
  rwa [update_of_ne hji]

/-- A commit may forget copies. -/
theorem forget {copies : BlockNo → Block → Prop} (hcopies : ∀ c y, copies c y → w.copies c y) :
    Coherent sb dev { w with copies } :=
  ⟨h.inv, h.wanted, h.valid, h.dirty_held, h.clean, h.home, h.pinned,
    fun c y hcy => h.copied c y (hcopies c y hcy)⟩

end

end Coherent

end Xv6.Store
