import Xv6Rcu.Lib.Crash
import Xv6Rcu.Kernel.Types
import Mathlib.Data.Vector.Basic

/-!
# Blocks and the buffer cache

`fs.h`, `buf.h` and `bio.c`, run by one thread. The cache is the array of buffers and the list of
them from `head.next` on (most recently used first). A buffer's sleep lock is held or not; a thread
that acquires a held one sleeps, and here nobody else runs, so the run stops (`Stop.sleep`).

- `Ready`: no buffer is locked and no block is cached twice.
- `Reads buf d dev b v`: a `bread` of the block `b` gives `v`, from the cache or from the disk `d`.
- `Pinned buf dev b v`: `b` is cached with contents `v` in a buffer that cannot be recycled.
- `Slot`: what a `bread` of a block makes of the buffer that it returns.
-/

namespace Xv6

open Function

/-- Block size. -/
def BSIZE : Nat := 1024

/-- Size of the disk block cache. -/
def NBUF : Nat := MAXOPBLOCKS * 3

/-- Device number of the root disk. -/
def ROOTDEV : BitVec 32 := 1

namespace Fs

open Lib

/-! ## Blocks -/

/-- The bytes of a block. -/
abbrev Block := Fin BSIZE → BitVec 8

abbrev BlockNo := BitVec 32

instance : LawfulBEq BlockNo := inferInstance

abbrev Disk := BlockNo → Block

namespace Block

/-- The byte `j`. -/
def byte (b : Block) (j : Nat) : BitVec 8 := if h : j < BSIZE then b ⟨j, h⟩ else 0

/-- The block as an array of `int`: the (little-endian) word `k`. -/
def int (b : Block) (k : Nat) : BitVec 32 :=
  b.byte (4 * k + 3) ++ b.byte (4 * k + 2) ++ b.byte (4 * k + 1) ++ b.byte (4 * k)

/-- Store the word `k`. -/
def setInt (b : Block) (k : Nat) (v : BitVec 32) : Block :=
  fun j => if j / 4 = k then v.extractLsb' (8 * (j % 4)) 8 else b j

theorem byte_setInt (b : Block) (k : Nat) (v : BitVec 32) {j : Nat} (hj : j < BSIZE) :
    (b.setInt k v).byte j = if j / 4 = k then v.extractLsb' (8 * (j % 4)) 8 else b.byte j := by
  simp [byte, setInt, hj]

theorem int_setInt_self (b : Block) {k : Nat} (v : BitVec 32) (hk : 4 * k + 3 < BSIZE) :
    (b.setInt k v).int k = v := by
  unfold int
  rw [byte_setInt _ _ _ hk, byte_setInt _ _ _ (by omega), byte_setInt _ _ _ (by omega),
    byte_setInt _ _ _ (by omega)]
  ext n hn
  simp only [BitVec.getElem_append]
  grind

theorem int_setInt_of_ne (b : Block) {j k : Nat} (v : BitVec 32) (hj : 4 * j + 3 < BSIZE)
    (h : j ≠ k) : (b.setInt k v).int j = b.int j := by
  unfold int
  rw [byte_setInt _ _ _ hj, byte_setInt _ _ _ (by omega), byte_setInt _ _ _ (by omega),
    byte_setInt _ _ _ (by omega)]
  rw [if_neg (by omega), if_neg (by omega), if_neg (by omega), if_neg (by omega)]

end Block

/-! ## Memory -/

/-- `struct buf`. `locked` is the state of its sleep lock. -/
structure Buf where
  valid : Bool := false
  dev : BitVec 32 := 0
  blockno : BlockNo := 0
  locked : Bool := false
  refcnt : Nat := 0
  data : Block := fun _ => 0

/-- `bcache`: `lru` lists the buffers from `head.next` on. -/
structure Bcache where
  buf : Fin NBUF → Buf := fun _ => {}
  lru : List (Fin NBUF) := []

/-- `struct logheader`. -/
structure LogHeader where
  n : BitVec 32 := 0
  block : Vector (BitVec 32) LOGSIZE := Vector.replicate LOGSIZE 0

/-- `struct log`, without the fields that only `begin_op` and `end_op` read. -/
structure Log where
  start : BitVec 32 := 0
  size : BitVec 32 := 0
  dev : BitVec 32 := 0
  lh : LogHeader := {}

/-- The fields of `struct superblock` that the log uses. -/
structure Superblock where
  nlog : BitVec 32
  logstart : BitVec 32

/-- The memory of the file system code. -/
structure Mem where
  bcache : Bcache := {}
  log : Log := {}

/-- Why a run does not return. -/
inductive Stop where
  | panic (msg : String)
  /-- It waits for a sleep lock that nobody releases. -/
  | sleep
  /-- It accesses an array out of bounds. -/
  | fault
  deriving DecidableEq

abbrev World := Lib.World Mem BlockNo Block

abbrev M := DiskM Stop Mem BlockNo Block

/-- Store the buffer `b`. -/
def setBuf (w : World) (b : Fin NBUF) (x : Buf) : World :=
  { w with mem.bcache.buf := Function.update w.mem.bcache.buf b x }

/-- Change the buffer `b`. -/
def modifyBuf (b : Fin NBUF) (f : Buf → Buf) : M Unit :=
  modifyMem fun m => { m with bcache.buf := Function.update m.bcache.buf b (f (m.bcache.buf b)) }

/-! ## `bio.c` -/

/-- `binit`: each buffer of the array is inserted after `head`. -/
def binit : Bcache where
  lru := (List.finRange NBUF).foldl (fun l b => b :: l) []

def acquiresleep (b : Fin NBUF) : M Unit := do
  if ((← get).mem.bcache.buf b).locked then throw .sleep
  modifyBuf b fun x => { x with locked := true }

/-- Look through the cache for the block; if it is not there, recycle the least recently used
unused buffer. -/
def bget (dev : BitVec 32) (blockno : BlockNo) : M (Fin NBUF) := do
  let c := (← get).mem.bcache
  match c.lru.find? fun b => (c.buf b).dev = dev ∧ (c.buf b).blockno = blockno with
  | some b =>
    modifyBuf b fun x => { x with refcnt := x.refcnt + 1 }
    acquiresleep b
    return b
  | none =>
    match c.lru.reverse.find? fun b => (c.buf b).refcnt = 0 with
    | some b =>
      modifyBuf b fun x => { x with dev, blockno, valid := false, refcnt := 1 }
      acquiresleep b
      return b
    | none => throw (.panic "bget: no buffers")

/-- The disk request of a buffer. -/
def virtioDiskRw (b : Fin NBUF) (write : Bool) : M Unit := do
  let w ← get
  let x := w.mem.bcache.buf b
  if write then writeBlock x.blockno x.data
  else modifyBuf b fun x => { x with data := w.disk x.blockno }

def bread (dev : BitVec 32) (blockno : BlockNo) : M (Fin NBUF) := do
  let b ← bget dev blockno
  if ((← get).mem.bcache.buf b).valid then return b
  virtioDiskRw b false
  modifyBuf b fun x => { x with valid := true }
  return b

def bwrite (b : Fin NBUF) : M Unit := do
  if !((← get).mem.bcache.buf b).locked then throw (.panic "bwrite")
  virtioDiskRw b true

/-- Release a locked buffer; one that becomes unused moves to the head of the list. -/
def brelse (b : Fin NBUF) : M Unit := do
  if !((← get).mem.bcache.buf b).locked then throw (.panic "brelse")
  modifyBuf b fun x => { x with locked := false, refcnt := x.refcnt - 1 }
  modifyMem fun m =>
    if (m.bcache.buf b).refcnt = 0 then { m with bcache.lru := b :: m.bcache.lru.erase b } else m

def bpin (b : Fin NBUF) : M Unit :=
  modifyBuf b fun x => { x with refcnt := x.refcnt + 1 }

def bunpin (b : Fin NBUF) : M Unit :=
  modifyBuf b fun x => { x with refcnt := x.refcnt - 1 }

/-! ## What the cache holds -/

/-- The buffer holds the block `b`. -/
def Buf.Is (x : Buf) (dev : BitVec 32) (b : BlockNo) : Prop := x.dev = dev ∧ x.blockno = b

/-- What a `bread` and a `brelse` make of an unlocked buffer. -/
theorem Buf.unlock_eq {x : Buf} (h : x.locked = false) :
    { x with locked := false, refcnt := x.refcnt + 1 - 1 } = x := by
  cases x
  subst h
  rfl

/-- No block of `dev` is cached twice, and an unused buffer is not locked. -/
structure Bcache.WF (c : Bcache) (dev : BitVec 32) : Prop where
  all : ∀ i, i ∈ c.lru
  uniq : ∀ i j b, (c.buf i).Is dev b → (c.buf j).Is dev b → i = j
  idle : ∀ i, (c.buf i).refcnt = 0 → (c.buf i).locked = false

/-- The cache between uses: no buffer is locked. -/
structure Bcache.Ready (c : Bcache) (dev : BitVec 32) : Prop extends c.WF dev where
  unlocked : ∀ i, (c.buf i).locked = false

/-- A `bread` of `b` gives `v`. -/
def Reads (buf : Fin NBUF → Buf) (d : Disk) (dev : BitVec 32) (b : BlockNo) (v : Block) : Prop :=
  d b = v ∧ ∀ i, (buf i).Is dev b → (buf i).valid = true → (buf i).data = v

/-- `b` is cached with contents `v`, in a buffer that is in use. -/
def Pinned (buf : Fin NBUF → Buf) (dev : BitVec 32) (b : BlockNo) (v : Block) : Prop :=
  ∃ i, (buf i).Is dev b ∧ (buf i).valid = true ∧ 0 < (buf i).refcnt ∧ (buf i).data = v

/-- `P` counts the references to the buffers of `dev`, and no other buffer is in use. -/
def Counts (P : BlockNo → Nat) (buf : Fin NBUF → Buf) (dev : BitVec 32) : Prop :=
  ∀ i, (buf i).refcnt = if (buf i).dev = dev then P (buf i).blockno else 0

/-- The buffer `i`, which held `b` or was unused, may be replaced by `x`, which holds `b`. -/
structure Slot (buf : Fin NBUF → Buf) (dev : BitVec 32) (b : BlockNo) (i : Fin NBUF) (x : Buf) :
    Prop where
  is : x.Is dev b
  valid : x.valid = true
  old : (buf i).Is dev b ∨ (buf i).refcnt = 0 ∧ ∀ j, ¬ (buf j).Is dev b

variable {buf : Fin NBUF → Buf} {d : Disk} {dev : BitVec 32} {b c : BlockNo} {v u : Block}
  {i j : Fin NBUF} {x y : Buf}

section
variable (h : Slot buf dev b i x)
include h

theorem Slot.of_is (hy : y.Is dev b) (hv : y.valid = true) : Slot buf dev b i y :=
  ⟨hy, hv, h.old⟩

/-- A buffer that holds `b` after the update is the slot. -/
theorem Slot.eq_of_is (hu : ∀ i j b, (buf i).Is dev b → (buf j).Is dev b → i = j)
    (hj : (update buf i x j).Is dev b) : j = i := by
  by_contra hne
  rw [update_of_ne hne] at hj
  rcases h.old with hi | ⟨-, hno⟩
  · exact hne (hu j i b hj hi)
  · exact hno j hj

theorem Slot.uniq (hu : ∀ i j b, (buf i).Is dev b → (buf j).Is dev b → i = j) (j k : Fin NBUF)
    (c : BlockNo) (hj : (update buf i x j).Is dev c) (hk : (update buf i x k).Is dev c) :
    j = k := by
  by_cases hcb : c = b
  · subst hcb
    rw [h.eq_of_is hu hj, h.eq_of_is hu hk]
  · have hne : ∀ l, (update buf i x l).Is dev c → l ≠ i := by
      rintro l hl rfl
      rw [update_self] at hl
      exact hcb (hl.2.symm.trans h.is.2)
    rw [update_of_ne (hne j hj)] at hj
    rw [update_of_ne (hne k hk)] at hk
    exact hu j k c hj hk

/-- Another block is read as before. -/
theorem Slot.reads (hc : c ≠ b) (hr : Reads buf d dev c v) : Reads (update buf i x) d dev c v := by
  refine ⟨hr.1, fun j hj hv => ?_⟩
  by_cases hji : j = i
  · subst hji
    rw [update_self] at hj
    exact absurd (hj.2.symm.trans h.is.2) hc
  · rw [update_of_ne hji] at hj hv ⊢
    exact hr.2 j hj hv

/-- Another pinned block stays pinned: its buffer is not recycled. -/
theorem Slot.pinned (hc : c ≠ b) (hp : Pinned buf dev c v) : Pinned (update buf i x) dev c v := by
  obtain ⟨j, hj, hv, hr, hd⟩ := hp
  have hji : j ≠ i := by
    rintro rfl
    rcases h.old with hi | ⟨h0, -⟩
    · exact hc (hj.2.symm.trans hi.2)
    · omega
  refine ⟨j, ?_⟩
  rw [update_of_ne hji]
  exact ⟨hj, hv, hr, hd⟩

/-- The slot drops `a` references to its block. -/
theorem Slot.counts (hu : ∀ i j b, (buf i).Is dev b → (buf j).Is dev b → i = j) {P : BlockNo → Nat}
    {a : Nat} (hx : x.refcnt = (buf i).refcnt - a) (hP : (∀ j, ¬ (buf j).Is dev b) → P b = 0)
    (hc : Counts P buf dev) : Counts (update P b (P b - a)) (update buf i x) dev := by
  intro j
  by_cases hji : j = i
  · subst hji
    rw [update_self, if_pos h.is.1, h.is.2, update_self, hx]
    rcases h.old with ho | ⟨h0, hno⟩
    · rw [hc j, if_pos ho.1, ho.2]
    · rw [h0, hP hno]
  · have hjb := mt (h.eq_of_is hu) hji
    rw [update_of_ne hji] at hjb ⊢
    rw [hc j]
    split
    · next hd => rw [update_of_ne fun hb => hjb ⟨hd, hb⟩]
    · rfl

/-- The block of the slot is read from the slot. -/
theorem Slot.reads_self (hu : ∀ i j b, (buf i).Is dev b → (buf j).Is dev b → i = j)
    (hd : d b = x.data) : Reads (update buf i x) d dev b x.data := by
  refine ⟨hd, fun j hj _ => ?_⟩
  rw [h.eq_of_is hu hj, update_self]

end

theorem Slot.wf {k : Bcache} (h : Slot k.buf dev b i x) (hk : k.WF dev) (hr : 0 < x.refcnt) :
    ({ k with buf := update k.buf i x } : Bcache).WF dev := by
  refine ⟨hk.all, h.uniq hk.uniq, fun j hj => ?_⟩
  by_cases hji : j = i
  · subst hji
    simp only [update_self] at hj
    omega
  · simp only [update_of_ne hji] at hj ⊢
    exact hk.idle j hj

theorem Slot.ready {k : Bcache} (h : Slot k.buf dev b i x) (hk : k.Ready dev)
    (hx : x.locked = false) {lru : List (Fin NBUF)} (hl : ∀ j, j ∈ lru) :
    (⟨update k.buf i x, lru⟩ : Bcache).Ready dev := by
  have hu : ∀ j, (update k.buf i x j).locked = false := by
    intro j
    by_cases hji : j = i
    · subst hji; rwa [update_self]
    · rw [update_of_ne hji]; exact hk.unlocked j
  exact ⟨⟨hl, h.uniq hk.uniq, fun j _ => hu j⟩, hu⟩

/-- What a `bread` puts into the slot. -/
theorem Reads.data_eq (hr : Reads buf d dev b v)
    (hx : (buf i).Is dev b ∧ (buf i).valid = true ∧ x.data = (buf i).data ∨ x.data = d b) :
    x.data = v := by
  rcases hx with ⟨hi, hv, he⟩ | he
  · exact he.trans (hr.2 i hi hv)
  · exact he.trans hr.1

theorem Reads.write (hr : Reads buf d dev c v) (hc : c ≠ b) :
    Reads buf (update d b u) dev c v :=
  ⟨by rw [update_of_ne hc]; exact hr.1, hr.2⟩

/-! ## What each function does -/

variable {C : List (BlockNo × Block) → Disk → Prop} {E : Stop → Prop} {w : World}
  {Q : Unit → World → Prop}

@[simp] theorem setBuf_buf : (setBuf w i x).mem.bcache.buf = update w.mem.bcache.buf i x :=
  rfl

@[simp] theorem setBuf_lru : (setBuf w i x).mem.bcache.lru = w.mem.bcache.lru := rfl

@[simp] theorem setBuf_log : (setBuf w i x).mem.log = w.mem.log := rfl

@[simp] theorem setBuf_disk : (setBuf w i x).disk = w.disk := rfl

@[simp] theorem setBuf_writes : (setBuf w i x).writes = w.writes := rfl

@[simp] theorem setBuf_setBuf : setBuf (setBuf w i x) i y = setBuf w i y := by
  simp [setBuf]

theorem modifyBuf_exec {f : Buf → Buf} (h : Q () (setBuf w i (f (w.mem.bcache.buf i)))) :
    Exec C E (modifyBuf i f) w Q :=
  Exec.modifyMem h

theorem acquiresleep_exec (hl : (w.mem.bcache.buf i).locked = false)
    (h : Q () (setBuf w i { w.mem.bcache.buf i with locked := true })) :
    Exec C E (acquiresleep i) w Q := by
  apply Exec.read
  simp only [hl, Bool.false_eq_true, ↓reduceIte]
  exact modifyBuf_exec h

/-- `bget` returns a locked buffer for the block, with one more reference: the buffer that caches
the block, or an unused one. -/
theorem bget_exec {Q : Fin NBUF → World → Prop} (hw : w.mem.bcache.WF dev)
    (hu : ∀ i, (w.mem.bcache.buf i).Is dev b → (w.mem.bcache.buf i).locked = false)
    (hav : (∃ i, (w.mem.bcache.buf i).Is dev b ∨ (w.mem.bcache.buf i).refcnt = 0) ∨
      E (.panic "bget: no buffers"))
    (hhit : ∀ i, (w.mem.bcache.buf i).Is dev b → Q i (setBuf w i { w.mem.bcache.buf i with
      refcnt := (w.mem.bcache.buf i).refcnt + 1, locked := true }))
    (hmiss : ∀ i, (w.mem.bcache.buf i).refcnt = 0 → (∀ j, ¬ (w.mem.bcache.buf j).Is dev b) →
      Q i (setBuf w i { w.mem.bcache.buf i with
        dev, blockno := b, valid := false, refcnt := 1, locked := true })) :
    Exec C E (bget dev b) w Q := by
  apply Exec.read
  dsimp only
  split
  · rename_i i hf
    have hi : (w.mem.bcache.buf i).Is dev b := by simpa [Buf.Is] using List.find?_some hf
    apply Exec.bind
    apply modifyBuf_exec
    apply Exec.bind
    apply acquiresleep_exec
    · simpa using hu i hi
    · apply Exec.pure
      simpa using hhit i hi
  · rename_i hf
    have hno : ∀ j, ¬ (w.mem.bcache.buf j).Is dev b := fun j => by
      simpa [Buf.Is] using List.find?_eq_none.mp hf j (hw.all j)
    split
    · rename_i i hf'
      have h0 : (w.mem.bcache.buf i).refcnt = 0 := by simpa using List.find?_some hf'
      apply Exec.bind
      apply modifyBuf_exec
      apply Exec.bind
      apply acquiresleep_exec
      · simpa using hw.idle i h0
      · apply Exec.pure
        simpa using hmiss i h0 hno
    · rename_i hf'
      rcases hav with ⟨i, hi | h0⟩ | he
      · exact absurd hi (hno i)
      · have := List.find?_eq_none.mp hf' i (by simpa using hw.all i)
        exact absurd h0 (by simpa using this)
      · exact Exec.throw he

/-- The second half of `bread`, for a buffer that is not valid. -/
theorem fill_exec {Q : Fin NBUF → World → Prop} (h : Q i (setBuf w i { w.mem.bcache.buf i with
      data := w.disk (w.mem.bcache.buf i).blockno, valid := true })) :
    Exec C E (do
      virtioDiskRw i false
      modifyBuf i fun x => { x with valid := true }
      return i) w Q := by
  apply Exec.bind
  apply Exec.read
  simp only [Bool.false_eq_true, ↓reduceIte]
  apply modifyBuf_exec
  apply Exec.bind
  apply modifyBuf_exec
  apply Exec.pure
  simpa using h

/-- `bread` returns a locked buffer with the block, from the cache or from the disk. -/
theorem bread_exec {Q : Fin NBUF → World → Prop} (hw : w.mem.bcache.WF dev)
    (hu : ∀ i, (w.mem.bcache.buf i).Is dev b → (w.mem.bcache.buf i).locked = false)
    (hav : (∃ i, (w.mem.bcache.buf i).Is dev b ∨ (w.mem.bcache.buf i).refcnt = 0) ∨
      E (.panic "bget: no buffers"))
    (h : ∀ i x, Slot w.mem.bcache.buf dev b i x → x.locked = true →
      x.refcnt = (w.mem.bcache.buf i).refcnt + 1 →
      ((w.mem.bcache.buf i).Is dev b ∧ (w.mem.bcache.buf i).valid = true ∧
        x.data = (w.mem.bcache.buf i).data ∨ x.data = w.disk b) → Q i (setBuf w i x)) :
    Exec C E (bread dev b) w Q := by
  apply Exec.bind
  apply bget_exec hw hu hav
  · intro i hi
    apply Exec.read
    simp only [setBuf_buf, update_self]
    split
    · rename_i hv
      exact Exec.pure (h i _ ⟨hi, hv, .inl hi⟩ rfl rfl (.inl ⟨hi, hv, rfl⟩))
    · apply fill_exec
      simp only [setBuf_setBuf, setBuf_buf, setBuf_disk, update_self]
      exact h i _ ⟨hi, rfl, .inl hi⟩ rfl rfl (.inr (by rw [hi.2]))
  · intro i h0 hno
    apply Exec.read
    simp only [setBuf_buf, update_self]
    apply fill_exec
    simp only [setBuf_setBuf, setBuf_buf, update_self]
    exact h i _ ⟨⟨rfl, rfl⟩, rfl, .inr ⟨h0, hno⟩⟩ rfl (by rw [h0]) (.inr rfl)

/-- `bread` of a cached block. -/
theorem bread_hit_exec {Q : Fin NBUF → World → Prop} (hw : w.mem.bcache.WF dev)
    (hi : (w.mem.bcache.buf i).Is dev b) (hv : (w.mem.bcache.buf i).valid = true)
    (hl : (w.mem.bcache.buf i).locked = false)
    (h : Q i (setBuf w i { w.mem.bcache.buf i with
      refcnt := (w.mem.bcache.buf i).refcnt + 1, locked := true })) :
    Exec C E (bread dev b) w Q := by
  apply Exec.bind
  apply bget_exec hw (fun j hj => hw.uniq i j b hi hj ▸ hl) (.inl ⟨i, .inl hi⟩)
  · intro j hj
    obtain rfl := hw.uniq i j b hi hj
    apply Exec.read
    simp only [setBuf_buf, update_self]
    rw [if_pos hv]
    exact Exec.pure h
  · exact fun j _ hno => absurd hi (hno i)

theorem bwrite_exec (hl : (w.mem.bcache.buf i).locked = true)
    (hC : C (w.writes ++ [((w.mem.bcache.buf i).blockno, (w.mem.bcache.buf i).data)])
      (update w.disk (w.mem.bcache.buf i).blockno (w.mem.bcache.buf i).data)) (h : Q () { w with
      disk := update w.disk (w.mem.bcache.buf i).blockno (w.mem.bcache.buf i).data
      writes := w.writes ++ [((w.mem.bcache.buf i).blockno, (w.mem.bcache.buf i).data)] }) :
    Exec C E (bwrite i) w Q := by
  apply Exec.read
  simp only [hl]
  apply Exec.read
  exact Exec.write hC h

/-- `brelse` unlocks the buffer and drops a reference; the list keeps its members. -/
theorem brelse_exec (hl : (w.mem.bcache.buf i).locked = true)
    (h : ∀ lru, (∀ j, j ∈ w.mem.bcache.lru → j ∈ lru) → Q () { w with mem.bcache := {
      buf := update w.mem.bcache.buf i { w.mem.bcache.buf i with
        locked := false, refcnt := (w.mem.bcache.buf i).refcnt - 1 }, lru } }) :
    Exec C E (brelse i) w Q := by
  apply Exec.read
  simp only [hl]
  apply Exec.bind
  apply modifyBuf_exec
  apply Exec.modifyMem
  split
  · refine h _ fun j hj => ?_
    by_cases hji : j = i
    · exact hji ▸ List.mem_cons_self
    · exact List.mem_cons_of_mem _ ((List.mem_erase_of_ne hji).mpr hj)
  · exact h _ fun j hj => hj

/-- Two buffers are released. -/
theorem brelse_two_exec (hij : i ≠ j) (hi : (w.mem.bcache.buf i).locked = true)
    (hj : (w.mem.bcache.buf j).locked = true)
    (h : ∀ lru, (∀ k, k ∈ w.mem.bcache.lru → k ∈ lru) → Q () { w with mem.bcache := {
      buf := update (update w.mem.bcache.buf i { w.mem.bcache.buf i with
          locked := false, refcnt := (w.mem.bcache.buf i).refcnt - 1 }) j
        { w.mem.bcache.buf j with
          locked := false, refcnt := (w.mem.bcache.buf j).refcnt - 1 }, lru } }) :
    Exec C E (do brelse i; brelse j) w Q := by
  apply Exec.bind
  refine brelse_exec hi fun lru hlru => brelse_exec ?_ fun lru' hlru' => ?_
  · simpa [hij.symm] using hj
  · simpa [hij.symm] using h lru' fun k hk => hlru' k (hlru k hk)

end Fs
end Xv6
