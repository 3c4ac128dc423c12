import Xv6Rcu.Fs.Bio

/-!
# The redo log

`log.c`: `commit` and the recovery in `initlog`, over the buffer cache, with the disk writes in
issue order. The on-disk log is a header block (the count `n` and `n` block numbers) and the log
blocks after it.

- `Fits`: a transaction fits the log: its blocks are distinct and outside the log area.
- `Logged`: the header names the transaction and the log blocks hold its contents.
- `Installed`: the header is clear and the home blocks hold the transaction's contents.
- **Crash atomicity** (`commit_atomic`): wherever `commit` and the recoveries after it stop, the
  next recovery that completes leaves all of the old contents or all of the new ones.
-/

namespace Xv6.Fs

open Lib Function List
open Prod (fst)

/-! ## `log.c` -/

/-- `for (i = 0; i < n; i++)`, with signed `i` and `n`. -/
def forInt (n : BitVec 32) (f : Nat → M Unit) : M Unit := forM (List.range n.toInt.toNat) f

/-- `log.lh.block[i]`. -/
def lhBlock (i : Nat) : M BlockNo := do
  match (← get).mem.log.lh.block[i]? with
  | some b => return b
  | none => throw .fault

/-- `log.lh.block[i] = b`. -/
def setLhBlock (i : Nat) (b : BlockNo) : M Unit := do
  if LOGSIZE ≤ i then throw .fault
  modifyMem fun m => { m with log.lh.block := m.log.lh.block.setIfInBounds i b }

/-- The log block of the entry `tail`. -/
def logBlock (start : BitVec 32) (tail : Nat) : BlockNo := start + BitVec.ofNat 32 tail + 1

/-- The body of the loop of `install_trans`. -/
def installOne (recovering : Bool) (tail : Nat) : M Unit := do
  let log := (← get).mem.log
  let lbuf ← bread log.dev (logBlock log.start tail)
  let dbuf ← bread log.dev (← lhBlock tail)
  let data := ((← get).mem.bcache.buf lbuf).data
  modifyBuf dbuf fun x => { x with data }
  bwrite dbuf
  if !recovering then bunpin dbuf
  brelse lbuf
  brelse dbuf

/-- Copy committed blocks from the log to their home location. -/
def installTrans (recovering : Bool) : M Unit := do
  forInt (← get).mem.log.lh.n (installOne recovering)

/-- Read the log header from disk into the in-memory log header. -/
def readHead : M Unit := do
  let log := (← get).mem.log
  let buf ← bread log.dev log.start
  let lh := ((← get).mem.bcache.buf buf).data
  modifyMem fun m => { m with log.lh.n := lh.int 0 }
  forInt (lh.int 0) fun i => setLhBlock i (lh.int (i + 1))
  brelse buf

/-- Write the in-memory log header to disk. -/
def writeHead : M Unit := do
  let log := (← get).mem.log
  let buf ← bread log.dev log.start
  modifyBuf buf fun x => { x with data := x.data.setInt 0 log.lh.n }
  forInt log.lh.n fun i => do
    let b ← lhBlock i
    modifyBuf buf fun x => { x with data := x.data.setInt (i + 1) b }
  bwrite buf
  brelse buf

/-- `log.lh.n = 0`. -/
def clearLh : M Unit := modifyMem fun m => { m with log.lh.n := 0 }

def recoverFromLog : M Unit := do
  readHead
  installTrans true
  clearLh
  writeHead

/-- `sizeof(struct logheader)` is `4 + 4 * LOGSIZE`. -/
def initlog (dev : BitVec 32) (sb : Superblock) : M Unit := do
  if BSIZE ≤ 4 + 4 * LOGSIZE then throw (.panic "initlog: too big logheader")
  modifyMem fun m =>
    { m with log := { m.log with start := sb.logstart, size := sb.nlog, dev } }
  recoverFromLog

/-- The body of the loop of `write_log`. -/
def writeLogOne (tail : Nat) : M Unit := do
  let log := (← get).mem.log
  let toBuf ← bread log.dev (logBlock log.start tail)
  let fromBuf ← bread log.dev (← lhBlock tail)
  let data := ((← get).mem.bcache.buf fromBuf).data
  modifyBuf toBuf fun x => { x with data }
  bwrite toBuf
  brelse fromBuf
  brelse toBuf

/-- Copy modified blocks from the cache to the log. -/
def writeLog : M Unit := do
  forInt (← get).mem.log.lh.n writeLogOne

def commit : M Unit := do
  if 0 < (← get).mem.log.lh.n.toInt then
    writeLog
    writeHead
    installTrans false
    clearLh
    writeHead

/-- The memory after a reboot. -/
def bootMem : Mem := { bcache := binit }

/-! ## Transactions -/

/-- `b` is in the log area. -/
def InLog (sb : Superblock) (b : BlockNo) : Prop :=
  ∃ j < sb.nlog.toNat, b = sb.logstart + BitVec.ofNat 32 j

/-- The transaction (home blocks with their new contents) fits the log. -/
structure Fits (sb : Superblock) (tx : List (BlockNo × Block)) : Prop where
  len : tx.length ≤ LOGSIZE
  room : tx.length < sb.nlog.toNat
  nodup : (tx.map fst).Nodup
  home : ∀ p ∈ tx, ¬ InLog sb p.1

/-- `log` is set up for the superblock, and `log.lh` names the blocks of the transaction. -/
structure Names (sb : Superblock) (tx : List (BlockNo × Block)) (l : Log) : Prop where
  dev : l.dev = ROOTDEV
  start : l.start = sb.logstart
  n : l.lh.n = BitVec.ofNat 32 tx.length
  block : ∀ t (h : t < tx.length), l.lh.block[t]? = some tx[t].1

/-- The transaction in memory: `log.lh` names its blocks, and the cache holds their contents. -/
structure Ongoing (sb : Superblock) (tx : List (BlockNo × Block)) (m : Mem) : Prop where
  names : Names sb tx m.log
  cached : ∀ p ∈ tx, Pinned m.bcache.buf ROOTDEV p.1 p.2
  ready : m.bcache.Ready ROOTDEV

/-- What a completed recovery must leave of the transaction, on a disk that was `old`. -/
structure Recovered (sb : Superblock) (tx : List (BlockNo × Block)) (old d : Disk) : Prop where
  homes : (∀ p ∈ tx, d p.1 = old p.1) ∨ ∀ p ∈ tx, d p.1 = p.2
  others : ∀ b, ¬ InLog sb b → b ∉ tx.map fst → d b = old b
  header : (d sb.logstart).int 0 = 0

/-- The header names the transaction, and the log blocks hold its contents. -/
structure Logged (sb : Superblock) (tx : List (BlockNo × Block)) (old d : Disk) : Prop where
  n : (d sb.logstart).int 0 = BitVec.ofNat 32 tx.length
  block : ∀ t (h : t < tx.length), (d sb.logstart).int (t + 1) = tx[t].1
  log : ∀ t (h : t < tx.length), d (logBlock sb.logstart t) = tx[t].2
  others : ∀ b, ¬ InLog sb b → b ∉ tx.map fst → d b = old b

/-- The header is clear, and the home blocks hold the transaction's contents. -/
structure Installed (sb : Superblock) (tx : List (BlockNo × Block)) (old d : Disk) : Prop where
  header : (d sb.logstart).int 0 = 0
  homes : ∀ p ∈ tx, d p.1 = p.2
  others : ∀ b, ¬ InLog sb b → b ∉ tx.map fst → d b = old b

variable {sb : Superblock} {tx : List (BlockNo × Block)} {old d : Disk} {w w' : World}
    {dev : BitVec 32}
  {C : List (BlockNo × Block) → Disk → Prop} {E : Stop → Prop} {b : BlockNo} {t : Nat}
  {Q : Unit → World → Prop}

theorem logBlock_ne_start {start : BitVec 32} (ht : t < LOGSIZE) : logBlock start t ≠ start := by
  have : t < 30 := ht
  unfold logBlock
  bv_omega

theorem logBlock_inj {start : BitVec 32} {u : Nat} (ht : t < LOGSIZE) (hu : u < LOGSIZE)
    (h : logBlock start t = logBlock start u) : t = u := by
  have : t < 30 := ht
  have : u < 30 := hu
  unfold logBlock at h
  bv_omega

theorem inLog_start (h : Fits sb tx) : InLog sb sb.logstart :=
  ⟨0, lt_of_le_of_lt (Nat.zero_le _) h.room, by simp⟩

theorem inLog_logBlock (h : Fits sb tx) (ht : t < tx.length) :
    InLog sb (logBlock sb.logstart t) := by
  refine ⟨t + 1, lt_of_le_of_lt ht h.room, ?_⟩
  unfold logBlock
  bv_omega

/-! ## What each function does -/

/-- From `w` to `w'` the cache changed what it holds of the block `b` only. -/
structure After (b : BlockNo) (w w' : World) : Prop where
  log : w'.mem.log = w.mem.log
  ready : w'.mem.bcache.Ready ROOTDEV
  reads : ∀ c v, c ≠ b → Reads w.mem.bcache.buf w.disk ROOTDEV c v →
    Reads w'.mem.bcache.buf w'.disk ROOTDEV c v

/-- One buffer was replaced, and its block written to disk. -/
theorem After.of_slot {i : Fin NBUF} {x : Buf} (w' : World) (hr : w.mem.bcache.Ready ROOTDEV)
    (hs : Slot w.mem.bcache.buf ROOTDEV b i x) (hx : x.locked = false)
    (hlog : w'.mem.log = w.mem.log) (hlru : ∀ j, j ∈ w'.mem.bcache.lru)
    (hbuf : w'.mem.bcache.buf = update w.mem.bcache.buf i x)
    (hdisk : w'.disk = update w.disk b x.data) :
    After b w w' ∧ Reads w'.mem.bcache.buf w'.disk ROOTDEV b x.data := by
  refine ⟨⟨hlog, ?_, fun c v hc hrd => ?_⟩, ?_⟩
  · have := hs.ready hr hx hlru
    rwa [← hbuf] at this
  · rw [hbuf, hdisk]
    exact (hs.reads hc hrd).write hc
  · rw [hbuf]
    exact hs.reads_self hr.uniq (by rw [hdisk, update_self])

/-- No reference to a buffer was taken or dropped; only `b` may have got a new buffer. -/
structure SameRefs (b : BlockNo) (buf buf' : Fin NBUF → Buf) : Prop where
  pinned : ∀ c v, c ≠ b → Pinned buf ROOTDEV c v → Pinned buf' ROOTDEV c v
  counts : ∀ P : BlockNo → Nat, P b = 0 → Counts P buf ROOTDEV → Counts P buf' ROOTDEV

theorem SameRefs.of_slot {buf : Fin NBUF → Buf} {i : Fin NBUF} {x : Buf}
    (hs : Slot buf ROOTDEV b i x)
    (hu : ∀ i j b, (buf i).Is ROOTDEV b → (buf j).Is ROOTDEV b → i = j)
    (hx : x.refcnt = (buf i).refcnt) : SameRefs b buf (update buf i x) := by
  refine ⟨fun c v hc => hs.pinned hc, fun P hP hc => ?_⟩
  have hc' := hs.counts hu (a := 0) hx (fun _ => hP) hc
  rwa [Nat.sub_zero, update_eq_self] at hc'

theorem lhBlock_exec {Q : BlockNo → World → Prop} (hb : w.mem.log.lh.block[t]? = some b) (h : Q b w)
    :
    Exec C E (lhBlock t) w Q := by
  apply Exec.read
  rw [hb]
  exact Exec.pure h

section
variable (hr : w.mem.bcache.Ready ROOTDEV) (hd : w.mem.log.dev = ROOTDEV)
include hr hd

/-- One round of `write_log` writes the cached contents of the home block to the log block. -/
theorem writeLogOne_exec {v : Block} (hb : w.mem.log.lh.block[t]? = some b)
    (hne : b ≠ logBlock w.mem.log.start t) (hp : Pinned w.mem.bcache.buf ROOTDEV b v)
    (hav : (∃ i, (w.mem.bcache.buf i).refcnt = 0) ∨ E (.panic "bget: no buffers"))
    (hC : C (w.writes ++ [(logBlock w.mem.log.start t, v)])
      (update w.disk (logBlock w.mem.log.start t) v))
    (h : ∀ w', After (logBlock w.mem.log.start t) w w' →
      w'.disk = update w.disk (logBlock w.mem.log.start t) v →
      w'.writes = w.writes ++ [(logBlock w.mem.log.start t, v)] →
      Reads w'.mem.bcache.buf w'.disk ROOTDEV (logBlock w.mem.log.start t) v →
      SameRefs (logBlock w.mem.log.start t) w.mem.bcache.buf w'.mem.bcache.buf → Q () w') :
    Exec C E (writeLogOne t) w Q := by
  unfold writeLogOne
  apply Exec.read
  dsimp only
  rw [hd]
  generalize logBlock w.mem.log.start t = lb at *
  apply Exec.bind
  apply bread_exec hr.toWF (fun i _ => hr.unlocked i) (hav.imp_left fun ⟨i, h0⟩ => ⟨i, .inr h0⟩)
  intro i x hs hxl hxr _
  apply Exec.bind
  refine lhBlock_exec hb ?_
  apply Exec.bind
  -- the home block is in the buffer `j`, which the first `bread` did not recycle
  obtain ⟨j, hj, hjv, hjr, hjd⟩ := hp
  have hji : j ≠ i := by
    rintro rfl
    rcases hs.old with hi | ⟨h0, -⟩
    · exact hne (hj.2.symm.trans hi.2)
    · omega
  have hw1 := hs.wf hr.toWF (by omega)
  refine bread_hit_exec (i := j) hw1 ?_ ?_ ?_ ?_
  · simpa [hji] using hj
  · simpa [hji] using hjv
  · simpa [hji] using hr.unlocked j
  apply Exec.read
  apply Exec.bind
  apply modifyBuf_exec
  apply Exec.bind
  apply bwrite_exec
  · simp [hji.symm, hxl]
  · simpa [hji, hji.symm, hs.is.2, hjd] using hC
  refine brelse_two_exec hji ?_ ?_ fun lru hlru => ?_
  · simp [hji]
  · simp [hji.symm, hxl]
  let x' : Buf := { x with data := v, locked := false, refcnt := x.refcnt - 1 }
  have hs' : Slot w.mem.bcache.buf ROOTDEV lb i x' := hs.of_is hs.is hs.valid
  have key : ∀ w', w'.mem.log = w.mem.log → (∀ k, k ∈ w'.mem.bcache.lru) →
      w'.mem.bcache.buf = update w.mem.bcache.buf i x' →
      w'.disk = update w.disk lb v → w'.writes = w.writes ++ [(lb, v)] → Q () w' := by
    intro w' h1 h2 h3 h4 h5
    obtain ⟨ha, hrd⟩ := After.of_slot w' hr hs' rfl h1 h2 h3 h4
    have hrefs := SameRefs.of_slot hs' hr.uniq (by simp only [x']; omega)
    rw [← h3] at hrefs
    exact h w' ha h4 h5 hrd hrefs
  apply key
  · rfl
  · exact fun k => hlru k (hr.all k)
  · funext k
    by_cases hki : k = i
    · subst hki
      simp [hji, hji.symm, hjd, x']
    · by_cases hkj : k = j
      · subst hkj
        refine Eq.trans ?_ ((Buf.unlock_eq (hr.unlocked k)).trans (by simp [hji]))
        simp [hji]
      · simp [hki, hkj]
  · simp [hji, hji.symm, hs.is.2, hjd]
  · simp [hji, hji.symm, hs.is.2, hjd]

/-- One round of `install_trans` writes the contents of the log block to the home block. -/
theorem installOne_exec {recovering : Bool} {v : Block} (hb : w.mem.log.lh.block[t]? = some b)
    (hne : b ≠ logBlock w.mem.log.start t)
    (hrd : Reads w.mem.bcache.buf w.disk ROOTDEV (logBlock w.mem.log.start t) v)
    (hav : (∃ i j, i ≠ j ∧ (w.mem.bcache.buf i).refcnt = 0 ∧ ((w.mem.bcache.buf j).refcnt = 0 ∨
      (w.mem.bcache.buf j).Is ROOTDEV b ∧ 0 < (w.mem.bcache.buf j).refcnt)) ∨
      E (.panic "bget: no buffers")) (hC : C (w.writes ++ [(b, v)]) (update w.disk b v))
    (h : ∀ w', After b w w' → w'.disk = update w.disk b v →
      (∀ c u, c ≠ logBlock w.mem.log.start t → c ≠ b → Pinned w.mem.bcache.buf ROOTDEV c u →
        Pinned w'.mem.bcache.buf ROOTDEV c u) →
      (∀ P : BlockNo → Nat, P (logBlock w.mem.log.start t) = 0 →
        (P b = 0 ∨ ∃ u, Pinned w.mem.bcache.buf ROOTDEV b u) → Counts P w.mem.bcache.buf ROOTDEV →
        Counts (update P b (P b - if recovering then 0 else 1)) w'.mem.bcache.buf
          ROOTDEV) → Q () w') : Exec C E (installOne recovering t) w Q := by
  unfold installOne
  apply Exec.read
  dsimp only
  rw [hd]
  generalize logBlock w.mem.log.start t = lb at *
  apply Exec.bind
  apply bread_exec hr.toWF (fun i _ => hr.unlocked i)
    (hav.imp_left fun ⟨i, _, _, h0, _⟩ => ⟨i, .inr h0⟩)
  intro i x hs hxl hxr hxd
  have hxv := hrd.data_eq hxd
  apply Exec.bind
  refine lhBlock_exec hb ?_
  apply Exec.bind
  refine bread_exec (hs.wf hr.toWF (by omega)) (fun k hk => ?_) ?_ ?_
  · have hki : k ≠ i := by
      rintro rfl
      simp only [setBuf_buf, update_self] at hk
      exact hne (hk.2.symm.trans hs.is.2)
    simpa [hki] using hr.unlocked k
  · -- the first `bread` took at most one of the two buffers
    refine hav.imp_left fun ⟨k, l, hkl, hk0, hl⟩ => ?_
    by_cases hli : l = i
    · exact ⟨k, .inr (by simpa [hli ▸ hkl] using hk0)⟩
    · exact ⟨l, by simpa [hli] using hl.symm.imp_left And.left⟩
  intro j y hs' hyl hyr _
  simp only [setBuf_buf] at hs' hyr
  have hji : j ≠ i := by
    rintro rfl
    rcases hs'.old with hi | ⟨h0, -⟩
    · rw [update_self] at hi
      exact hne (hi.2.symm.trans hs.is.2)
    · rw [update_self] at h0
      omega
  rw [update_of_ne hji] at hyr
  have key : ∀ r w', r = y.refcnt - 1 - (if recovering then 0 else 1) →
      w'.mem.log = w.mem.log → (∀ k, k ∈ w'.mem.bcache.lru) →
      w'.mem.bcache.buf = update (update w.mem.bcache.buf i
        { x with locked := false, refcnt := x.refcnt - 1 }) j
        { y with data := v, locked := false, refcnt := r } →
      w'.disk = update w.disk b v → Q () w' := by
    intro r w' h₀ h1 h2 h3 h4
    have hsx := hs.of_is (y := { x with locked := false, refcnt := x.refcnt - 1 }) hs.is hs.valid
    obtain ⟨ha1, hrd1⟩ := After.of_slot (setBuf w i _) hr hsx rfl rfl hr.all rfl
      (by rw [setBuf_disk, hxv, ← hrd.1, update_eq_self])
    have hrefs := SameRefs.of_slot hsx hr.uniq (by simp only [hxr]; omega)
    have hsy : Slot (update w.mem.bcache.buf i
        { x with locked := false, refcnt := x.refcnt - 1 }) ROOTDEV b j
        { y with data := v, locked := false, refcnt := r } := by
      refine ⟨hs'.is, hs'.valid, hs'.old.imp (fun hj => ?_) fun ⟨h0, hno⟩ => ⟨?_, fun k hk => ?_⟩⟩
      · rwa [update_of_ne hji] at hj ⊢
      · rwa [update_of_ne hji] at h0 ⊢
      · by_cases hki : k = i
        · subst hki
          rw [update_self] at hk
          exact hne (hk.2.symm.trans hs.is.2)
        · have := hno k
          rw [update_of_ne hki] at hk this
          exact this hk
    obtain ⟨ha2, -⟩ := After.of_slot w' ha1.ready hsy rfl (h1.trans ha1.log.symm) h2 h3 h4
    refine h w' ⟨h1, ha2.ready, fun c u hc hcu => ha2.reads c u hc ?_⟩ h4
        (fun c u hcl hcb hcp => ?_)
      fun P hPl hPb hP => ?_
    · by_cases hcl : c = lb
      · subst hcl
        obtain rfl : u = v := hcu.1.symm.trans hrd.1
        simpa only [hxv] using hrd1
      · exact ha1.reads c u hcl hcu
    · rw [h3]
      exact hsy.pinned hcb (hrefs.pinned c u hcl hcp)
    · rw [h3]
      refine hsy.counts ha1.ready.uniq ?_ (fun hno => ?_) (hrefs.counts P hPl hP)
      · rw [update_of_ne hji]
        simp only [h₀, hyr]
        omega
      · refine hPb.resolve_right fun ⟨u, hp⟩ => ?_
        obtain ⟨k, hk, -⟩ := hrefs.pinned b u hne hp
        exact hno k hk
  apply Exec.read
  apply Exec.bind
  apply modifyBuf_exec
  apply Exec.bind
  apply bwrite_exec
  · simp [hyl]
  · simpa [hji, hji.symm, hs'.is.2, hxv] using hC
  -- after `bunpin`, if not in recovery
  have htail : ∀ r, r - 1 = y.refcnt - 1 - (if recovering then 0 else 1) →
      Exec C E (do brelse i; brelse j) { setBuf (setBuf w i x) j { y with data := v, refcnt := r }
        with disk := update w.disk b v, writes := w.writes ++ [(b, v)] } Q := by
    intro r hr'
    refine brelse_two_exec hji.symm ?_ ?_ fun lru hlru => ?_
    · simp [hji.symm, hxl]
    · simp [hyl]
    refine key (r - 1) _ hr' rfl (fun k => hlru k (hr.all k)) ?_ rfl
    funext k
    by_cases hkj : k = j
    · simp [hkj]
    · by_cases hki : k = i
      · simp [hki, hji.symm]
      · simp [hki, hkj]
  have hyb : y.blockno = b := hs'.is.2
  cases recovering with
  | false =>
    apply Exec.bind
    apply modifyBuf_exec
    simpa [hji.symm, hyb, hxv, setBuf] using htail (y.refcnt - 1) rfl
  | true => simpa [hji.symm, hyb, hxv, setBuf] using htail y.refcnt rfl

/-- The block `hd` is the on-disk form of the header. -/
def HeaderOf (lh : LogHeader) (hd : Block) : Prop :=
  hd.int 0 = lh.n ∧ ∀ u < lh.n.toInt.toNat, lh.block[u]? = some (hd.int (u + 1))

/-- `write_head` writes the in-memory header to the header block. -/
theorem writeHead_exec (hn : w.mem.log.lh.n.toInt.toNat ≤ LOGSIZE)
    (hav : (∃ i, (w.mem.bcache.buf i).refcnt = 0) ∨ E (.panic "bget: no buffers"))
    (hC : ∀ hd, HeaderOf w.mem.log.lh hd → C (w.writes ++ [(w.mem.log.start, hd)])
      (update w.disk w.mem.log.start hd))
    (h : ∀ hd w', HeaderOf w.mem.log.lh hd → After w.mem.log.start w w' →
      w'.disk = update w.disk w.mem.log.start hd → w'.writes = w.writes ++ [(w.mem.log.start, hd)] →
      SameRefs w.mem.log.start w.mem.bcache.buf w'.mem.bcache.buf → Q () w') :
    Exec C E writeHead w Q := by
  apply Exec.read
  dsimp only
  rw [hd]
  apply Exec.bind
  apply bread_exec hr.toWF (fun i _ => hr.unlocked i) (hav.imp_left fun ⟨i, h0⟩ => ⟨i, .inr h0⟩)
  intro i x hs hxl hxr _
  apply Exec.bind
  apply modifyBuf_exec
  simp only [setBuf_buf, update_self, setBuf_setBuf]
  apply Exec.bind
  -- before the round `t` the words up to `t` are stored
  refine (Exec.range (fun t w1 => ∃ data, w1 = setBuf w i { x with data } ∧
    data.int 0 = w.mem.log.lh.n ∧ ∀ u < t, w.mem.log.lh.block[u]? = some (data.int (u + 1)))
    ⟨_, rfl, Block.int_setInt_self _ _ (by decide), by omega⟩ fun t ht w1 hi => ?_).mono
    fun _ w1 hi => ?_
  · obtain ⟨data, rfl, h0, hu⟩ := hi
    have htl : t < 30 := lt_of_lt_of_le ht hn
    have hlen : ∀ u ≤ t, 4 * (u + 1) + 3 < BSIZE := by
      intro u hu
      show _ < 1024
      omega
    obtain ⟨b, hb⟩ : ∃ b, w.mem.log.lh.block[t]? = some b :=
      ⟨_, Vector.getElem?_eq_getElem (lt_of_lt_of_le ht hn)⟩
    apply Exec.bind
    refine lhBlock_exec hb ?_
    apply modifyBuf_exec
    refine ⟨data.setInt (t + 1) b, by simp, ?_, fun u hut => ?_⟩
    · rw [Block.int_setInt_of_ne _ _ (by decide) (by omega), h0]
    · by_cases hue : u = t
      · subst hue
        rw [Block.int_setInt_self _ _ (hlen u (by omega)), hb]
      · rw [Block.int_setInt_of_ne _ _ (hlen u (by omega)) (by omega)]
        exact hu u (by omega)
  · obtain ⟨data, rfl, h0, hu⟩ := hi
    have hh : HeaderOf w.mem.log.lh data := ⟨h0, hu⟩
    apply Exec.bind
    apply bwrite_exec
    · simpa using hxl
    · simpa [hs.is.2] using hC data hh
    apply brelse_exec
    · simpa using hxl
    intro lru hlru
    have hs' := hs.of_is (y := { x with data, locked := false, refcnt := x.refcnt - 1 })
        hs.is hs.valid
    have hrefs := SameRefs.of_slot hs' hr.uniq (by simp only; omega)
    obtain ⟨ha, -⟩ := After.of_slot { w with
      mem.bcache := ⟨update w.mem.bcache.buf i _, lru⟩
      disk := update w.disk w.mem.log.start data
      writes := w.writes ++ [(w.mem.log.start, data)] } hr hs' rfl rfl
      (fun k => hlru k (hr.all k)) rfl rfl
    simpa [hs.is.2] using h data _ hh ha rfl rfl hrefs

end

theorem setLhBlock_exec (ht : t < LOGSIZE)
    (h : Q () { w with mem.log.lh.block := w.mem.log.lh.block.setIfInBounds t b }) :
    Exec C E (setLhBlock t b) w Q := by
  unfold setLhBlock
  rw [if_neg (by omega)]
  exact Exec.modifyMem h

/-- `read_head` reads the header block into the in-memory header. -/
theorem readHead_exec {hd : Block} (hr : w.mem.bcache.Ready ROOTDEV)
    (hdev : w.mem.log.dev = ROOTDEV)
    (hrd : Reads w.mem.bcache.buf w.disk ROOTDEV w.mem.log.start hd)
    (hn : (hd.int 0).toInt.toNat ≤ LOGSIZE) (h0 : ∀ i, (w.mem.bcache.buf i).refcnt = 0)
    (h : ∀ lh w', HeaderOf lh hd → w'.mem.log = { w.mem.log with lh } → w'.disk = w.disk →
      w'.mem.bcache.Ready ROOTDEV → (∀ c v, Reads w.mem.bcache.buf w.disk ROOTDEV c v →
        Reads w'.mem.bcache.buf w.disk ROOTDEV c v) →
      (∀ i, (w'.mem.bcache.buf i).refcnt = 0) → Q () w') : Exec C E readHead w Q := by
  apply Exec.read
  dsimp only
  rw [hdev]
  apply Exec.bind
  apply bread_exec hr.toWF (fun i _ => hr.unlocked i) (.inl ⟨⟨0, by decide⟩, .inr (h0 _)⟩)
  intro i x hs hxl hxr hxd
  have hxv := hrd.data_eq hxd
  apply Exec.read
  simp only [setBuf_buf, update_self, hxv]
  apply Exec.bind
  apply Exec.modifyMem
  apply Exec.bind
  refine (Exec.range (fun t w1 => ∃ block, w1 = { setBuf w i x with
    mem.log := { w.mem.log with lh := ⟨hd.int 0, block⟩ } } ∧
    ∀ u < t, block[u]? = some (hd.int (u + 1))) ⟨_, rfl, by omega⟩ fun t ht w1 hi => ?_).mono
    fun _ w1 hi => ?_
  · obtain ⟨block, rfl, hu⟩ := hi
    have htl : t < LOGSIZE := lt_of_lt_of_le ht hn
    apply setLhBlock_exec htl
    refine ⟨block.setIfInBounds t (hd.int (t + 1)), rfl, fun u hut => ?_⟩
    by_cases hue : u = t
    · subst hue
      simp [htl]
    · rw [Vector.getElem?_setIfInBounds, if_neg (by omega)]
      exact hu u (by omega)
  · obtain ⟨block, rfl, hu⟩ := hi
    apply brelse_exec
    · simpa using hxl
    intro lru hlru
    have hs' := hs.of_is (y := { x with locked := false, refcnt := x.refcnt - 1 }) hs.is hs.valid
    obtain ⟨ha, hrd'⟩ := After.of_slot { w with
      mem.bcache := ⟨update w.mem.bcache.buf i _, lru⟩ } hr hs' rfl rfl
      (fun k => hlru k (hr.all k)) rfl (by simp [hxv, ← hrd.1])
    refine h ⟨hd.int 0, block⟩ _ ⟨rfl, hu⟩ rfl rfl ?_ (fun c v hc => ?_) fun k => ?_
    · simpa using ha.ready
    · by_cases hce : c = w.mem.log.start
      · subst hce
        obtain rfl : v = hd := hc.1.symm.trans hrd.1
        simpa [hxv] using hrd'
      · simpa using ha.reads c v hce hc
    · have := h0 i
      by_cases hki : k = i
      · subst hki
        simp only [setBuf_buf, update_self]
        omega
      · simpa [hki] using h0 k

/-! ## The disk at each point -/

theorem toNat_ofNat {k : Nat} (h : k ≤ LOGSIZE) : (BitVec.ofNat 32 k).toInt.toNat = k := by
  have hk : k ≤ 30 := h
  rw [BitVec.toInt_eq_toNat_of_lt (by simp; omega), BitVec.toNat_ofNat]
  omega

section
variable (h : Fits sb tx)
include h

theorem Fits.nil : Fits sb [] :=
  ⟨Nat.zero_le _, lt_of_le_of_lt (Nat.zero_le _) h.room, by simp, by simp⟩

/-- A home block is not a block of the log. -/
theorem Fits.home_ne {t u : Nat} (ht : t < tx.length) (hu : u < tx.length) :
    tx[t].1 ≠ logBlock sb.logstart u := by
  intro he
  exact h.home _ (getElem_mem ht) (he ▸ inLog_logBlock h hu)

theorem Fits.home_ne_start {t : Nat} (ht : t < tx.length) : tx[t].1 ≠ sb.logstart := by
  intro he
  exact h.home _ (getElem_mem ht) (he ▸ inLog_start h)

theorem Fits.not_mem_of_inLog {b : BlockNo} (hb : InLog sb b) : b ∉ tx.map fst := by
  intro hm
  obtain ⟨p, hp, rfl⟩ := mem_map.mp hm
  exact h.home p hp hb

theorem Fits.logBlock_not_mem {t : Nat} (ht : t < tx.length) :
    logBlock sb.logstart t ∉ tx.map fst :=
  h.not_mem_of_inLog (inLog_logBlock h ht)

theorem Fits.inj {t u : Nat} (ht : t < tx.length) (hu : u < tx.length) (he : tx[t].1 = tx[u].1) :
    t = u :=
  (getElem?_inj (by simpa using ht) h.nodup).mp (by simp [ht, hu, he])

end

/-- Installing a block keeps the log. -/
theorem Logged.install (h : Logged sb tx old d) (hf : Fits sb tx) {t : Nat} (ht : t < tx.length) :
    Logged sb tx old (update d tx[t].1 tx[t].2) := by
  have hs := update_of_ne (hf.home_ne_start ht).symm tx[t].2 d
  refine ⟨by rw [hs]; exact h.n, fun u hu => by rw [hs]; exact h.block u hu, fun u hu => ?_,
    fun b hb hbt => ?_⟩
  · rw [update_of_ne (hf.home_ne ht hu).symm]
    exact h.log u hu
  · rw [update_of_ne]
    · exact h.others b hb hbt
    · rintro rfl
      exact hbt (mem_map_of_mem (getElem_mem ht))

/-- Clearing the header after all blocks are installed ends the transaction. -/
theorem Logged.clear (h : Logged sb tx old d) (hf : Fits sb tx) (hi : ∀ p ∈ tx, d p.1 = p.2)
    {hd : Block} (h0 : hd.int 0 = 0) :
    Installed sb tx old (update d sb.logstart hd) := by
  have hne : ∀ b, ¬ InLog sb b → b ≠ sb.logstart := fun b hb he => hb (he ▸ inLog_start hf)
  refine ⟨by simpa using h0, fun p hp => ?_, fun b hb hbt => ?_⟩
  · rw [update_of_ne (hne _ (hf.home p hp))]
    exact hi p hp
  · rw [update_of_ne (hne b hb)]
    exact h.others b hb hbt

/-- A disk with a clear header is logged with the empty transaction. -/
theorem Installed.logged (h : Installed sb tx old d) : Logged sb [] d d :=
  ⟨h.header, by simp, by simp, fun _ _ _ => rfl⟩

/-- What recovery leaves of a disk with a clear header. -/
theorem Installed.of_nil {d' : Disk} (h : Installed sb tx old d) (hf : Fits sb tx)
    (h' : Logged sb [] d d' ∨ Installed sb [] d d') : Installed sb tx old d' := by
  have hd : (d' sb.logstart).int 0 = 0 ∧ ∀ b, ¬ InLog sb b → d' b = d b := by
    rcases h' with h' | h'
    · exact ⟨h'.n, fun b hb => h'.others b hb (by simp)⟩
    · exact ⟨h'.header, fun b hb => h'.others b hb (by simp)⟩
  refine ⟨hd.1, fun p hp => ?_, fun b hb hbt => ?_⟩
  · rw [hd.2 _ (hf.home p hp)]
    exact h.homes p hp
  · rw [hd.2 b hb]
    exact h.others b hb hbt

/-! ## Buffers -/

/-- The pins of the log, once the first `t` entries are installed. -/
def pinsFrom (tx : List (BlockNo × Block)) (t : Nat) (b : BlockNo) : Nat :=
  if b ∈ (tx.drop t).map fst then 1 else 0

/-- The only references to buffers are the pins of the entries from `t` on. -/
structure OnlyPins (tx : List (BlockNo × Block)) (t : Nat) (buf : Fin NBUF → Buf) : Prop where
  counts : Counts (pinsFrom tx t) buf ROOTDEV
  cached : ∀ p ∈ tx.drop t, ∃ v, Pinned buf ROOTDEV p.1 v

variable {buf buf' : Fin NBUF → Buf} {t : Nat} {recovering : Bool}

theorem pinsFrom_eq_zero {b : BlockNo} (hb : b ∉ tx.map fst) : pinsFrom tx t b = 0 :=
  if_neg fun hm => hb ((drop_sublist t tx).map fst |>.subset hm)

theorem pinsFrom_succ (hf : Fits sb tx) (ht : t < tx.length) :
    update (pinsFrom tx t) tx[t].1 (pinsFrom tx t tx[t].1 - 1) = pinsFrom tx (t + 1) := by
  have hnd : ((tx.drop t).map fst).Nodup := hf.nodup.sublist ((drop_sublist t tx).map _)
  rw [drop_eq_getElem_cons ht, map_cons, nodup_cons] at hnd
  funext b
  unfold pinsFrom
  rw [drop_eq_getElem_cons ht, map_cons]
  by_cases hb : b = tx[t].1
  · subst hb
    rw [update_self, if_pos mem_cons_self, if_neg hnd.1]
  · simp [hb]

theorem OnlyPins.same {b : BlockNo} (h : OnlyPins tx t buf) (hs : SameRefs b buf buf')
    (hb : b ∉ tx.map fst) : OnlyPins tx t buf' := by
  refine ⟨hs.counts _ (pinsFrom_eq_zero hb) h.counts, fun p hp => ?_⟩
  obtain ⟨v, hv⟩ := h.cached p hp
  refine ⟨v, hs.pinned _ _ ?_ hv⟩
  rintro rfl
  exact hb (mem_map_of_mem (mem_of_mem_drop hp))

/-- Fewer pins than buffers leave a buffer unused. -/
theorem OnlyPins.free (h : OnlyPins tx t buf)
    (hu : ∀ i j b, (buf i).Is ROOTDEV b → (buf j).Is ROOTDEV b → i = j) (hlt : tx.length < NBUF) :
    ∃ i, (buf i).refcnt = 0 := by
  by_contra hno
  push Not at hno
  have hin : ∀ i, (buf i).dev = ROOTDEV ∧ (buf i).blockno ∈ tx.map fst := by
    intro i
    have hi := hno i
    rw [h.counts i] at hi
    refine ⟨by_contra fun hd => hi (if_neg hd), by_contra fun hb => hi ?_⟩
    rw [pinsFrom_eq_zero hb, ite_self]
  -- otherwise the buffers hold as many distinct blocks of the transaction
  have hnd : ((finRange NBUF).map fun i => (buf i).blockno).Nodup :=
    (nodup_finRange NBUF).map fun i j hij => hu i j _ ⟨(hin i).1, rfl⟩ ⟨(hin j).1, hij.symm⟩
  have hsub : ((finRange NBUF).map fun i => (buf i).blockno) ⊆ tx.map fst := by
    intro b hb
    obtain ⟨i, -, rfl⟩ := mem_map.mp hb
    exact (hin i).2
  have hle := (hnd.subperm hsub).length_le
  simp only [length_map, length_finRange] at hle
  omega

/-- There are enough buffers for `install_trans` from the round `t` on. -/
def Enough (recovering : Bool) (tx : List (BlockNo × Block)) (t : Nat) (buf : Fin NBUF → Buf) :
    Prop :=
  if recovering then ∀ i, (buf i).refcnt = 0 else tx.length < NBUF ∧ OnlyPins tx t buf

theorem Enough.two (h : Enough recovering tx t buf)
    (hu : ∀ i j b, (buf i).Is ROOTDEV b → (buf j).Is ROOTDEV b → i = j) (ht : t < tx.length) :
    ∃ i j, i ≠ j ∧ (buf i).refcnt = 0 ∧
      ((buf j).refcnt = 0 ∨ (buf j).Is ROOTDEV tx[t].1 ∧ 0 < (buf j).refcnt) := by
  cases recovering
  · obtain ⟨hlt, hp⟩ := h
    obtain ⟨i, hi⟩ := hp.free hu hlt
    obtain ⟨v, j, hj, -, hr, -⟩ := hp.cached tx[t] (by
      rw [drop_eq_getElem_cons ht]
      exact mem_cons_self)
    refine ⟨i, j, ?_, hi, .inr ⟨hj, hr⟩⟩
    rintro rfl
    omega
  · exact ⟨⟨0, by decide⟩, ⟨1, by decide⟩, by simp, h _, .inl (h _)⟩

/-- A round of `install_trans` drops the pin of its entry. -/
theorem Enough.round (h : Enough recovering tx t buf) (hf : Fits sb tx) (ht : t < tx.length)
    {lb : BlockNo} (hlb : lb ∉ tx.map fst)
    (hpin : ∀ c u, c ≠ lb → c ≠ tx[t].1 → Pinned buf ROOTDEV c u → Pinned buf' ROOTDEV c u)
    (hcounts : ∀ P : BlockNo → Nat, P lb = 0 → (P tx[t].1 = 0 ∨ ∃ u, Pinned buf ROOTDEV tx[t].1 u) →
      Counts P buf ROOTDEV →
      Counts (update P tx[t].1 (P tx[t].1 - if recovering then 0 else 1)) buf' ROOTDEV) :
    Enough recovering tx (t + 1) buf' := by
  cases recovering
  · obtain ⟨hlt, hp⟩ := h
    have hcons := drop_eq_getElem_cons ht
    have hmem : tx[t] ∈ tx.drop t := by
      rw [hcons]
      exact mem_cons_self
    refine ⟨hlt, ?_, fun p hp' => ?_⟩
    · rw [← pinsFrom_succ hf ht]
      exact hcounts _ (pinsFrom_eq_zero hlb) (.inr (hp.cached _ hmem)) hp.counts
    · have hpt : p ∈ tx.drop t := by
        rw [hcons]
        exact mem_cons_of_mem _ hp'
      obtain ⟨v, hv⟩ := hp.cached p hpt
      refine ⟨v, hpin _ _ ?_ ?_ hv⟩
      · rintro rfl
        exact hlb (mem_map_of_mem (mem_of_mem_drop hpt))
      · intro he
        have hnd : ((tx.drop t).map fst).Nodup :=
          hf.nodup.sublist ((drop_sublist t tx).map _)
        rw [hcons, map_cons, nodup_cons] at hnd
        exact hnd.1 (he ▸ mem_map_of_mem hp')
  · intro i
    have hz := hcounts (fun _ => 0) rfl (.inl rfl) (fun i => (h i).trans (ite_self 0).symm) i
    simpa using hz

/-! ## Recovery -/

/-- The loop of `install_trans`: every write keeps the log, and at the end every home block holds
its new contents. -/
theorem installTrans_exec {Q : Unit → World → Prop} (old : Disk) (hf : Fits sb tx)
    (hnm : Names sb tx w.mem.log) (hr : w.mem.bcache.Ready ROOTDEV) (hl : Logged sb tx old w.disk)
    (hrd : ∀ t (h : t < tx.length),
      Reads w.mem.bcache.buf w.disk ROOTDEV (logBlock sb.logstart t) tx[t].2)
    (hav : Enough recovering tx 0 w.mem.bcache.buf ∨ E (.panic "bget: no buffers"))
    (hC : ∀ ws d, Logged sb tx old d → C ws d)
    (h : ∀ w', Logged sb tx old w'.disk → (∀ p ∈ tx, w'.disk p.1 = p.2) →
      w'.mem.log = w.mem.log → w'.mem.bcache.Ready ROOTDEV →
      (Enough recovering tx tx.length w'.mem.bcache.buf ∨ E (.panic "bget: no buffers")) →
      Q () w') : Exec C E (installTrans recovering) w Q := by
  apply Exec.read
  unfold forInt
  rw [hnm.n, toNat_ofNat hf.len]
  refine (Exec.range (fun t w1 => (w1.mem.log = w.mem.log ∧ w1.mem.bcache.Ready ROOTDEV) ∧
    Logged sb tx old w1.disk ∧ (∀ u (h : u < tx.length), u < t → w1.disk tx[u].1 = tx[u].2) ∧
    (∀ u (h : u < tx.length),
      Reads w1.mem.bcache.buf w1.disk ROOTDEV (logBlock sb.logstart u) tx[u].2) ∧
    (Enough recovering tx t w1.mem.bcache.buf ∨ E (.panic "bget: no buffers")))
    ⟨⟨rfl, hr⟩, hl, by omega, hrd, hav⟩ fun t ht w1 hi => ?_).mono fun _ w1 hi => ?_
  · obtain ⟨⟨hlog, hr1⟩, hl1, hdone, hrd1, hav1⟩ := hi
    refine installOne_exec hr1 (by rw [hlog]; exact hnm.dev)
      (by rw [hlog]; exact hnm.block t ht) ?_ ?_ (hav1.imp_left fun h => h.two hr1.uniq ht)
      (hC _ _ (hl1.install hf ht))
      fun w2 ha hdisk hpin hcounts => ⟨⟨ha.log.trans hlog, ha.ready⟩, ?_, fun u hu hut => ?_,
        fun u hu => ?_, hav1.imp_left fun h => h.round hf ht ?_ hpin hcounts⟩
    · rw [hlog, hnm.start]; exact hf.home_ne ht ht
    · rw [hlog, hnm.start]; exact hrd1 t ht
    · rw [hdisk]; exact hl1.install hf ht
    · rw [hdisk]
      by_cases hue : u = t
      · subst hue; rw [update_self]
      · rw [update_of_ne fun he => hue (hf.inj hu ht he)]
        exact hdone u hu (by omega)
    · exact ha.reads _ _ (hf.home_ne ht hu).symm (hrd1 u hu)
    · rw [hlog, hnm.start]; exact hf.logBlock_not_mem ht
  · obtain ⟨⟨hlog, hr1⟩, hl1, hdone, -, hav1⟩ := hi
    refine h w1 hl1 (fun p hp => ?_) hlog hr1 hav1
    obtain ⟨t, ht, rfl⟩ := getElem_of_mem hp
    exact hdone t ht ht

theorem binit_ready (hd : dev ≠ 0) : binit.Ready dev := by
  refine ⟨⟨fun i => ?_, fun i j b hi => absurd hi.1.symm hd, fun _ _ => rfl⟩, fun _ => rfl⟩
  have : ∀ (l m : List (Fin NBUF)), i ∈ l ∨ i ∈ m → i ∈ l.foldl (fun l b => b :: l) m := by
    intro l
    induction l with
    | nil => simp
    | cons a l ih =>
      grind
  exact this _ _ (.inl (mem_finRange i))

/-- Recovery from a logged transaction installs it, and every write on the way leaves a disk that
is logged or installed. -/
theorem initlog_exec (hf : Fits sb tx) (hl : Logged sb tx old d) :
    Exec (fun _ d' => Logged sb tx old d' ∨ Installed sb tx old d') (fun _ => False)
      (initlog ROOTDEV sb) ⟨bootMem, d, []⟩ fun _ w' => Installed sb tx old w'.disk := by
  have hboot : ∀ b, Reads binit.buf d ROOTDEV b (d b) := fun b =>
    ⟨rfl, fun _ hi => absurd hi.1 (show (0 : BitVec 32) ≠ ROOTDEV by decide)⟩
  apply Exec.bind
  apply Exec.modifyMem
  apply Exec.bind
  refine readHead_exec (binit_ready (by decide)) rfl (hboot sb.logstart) ?_ (fun _ => rfl) ?_
  · rw [hl.n, toNat_ofNat hf.len]; exact hf.len
  intro lh w1 hh hlog hdisk hr1 hrd hz
  have hnm : Names sb tx w1.mem.log := by
    rw [hlog]
    refine ⟨rfl, rfl, hh.1.symm.trans hl.n, fun t ht => ?_⟩
    rw [hh.2 t (by rw [← hh.1, hl.n, toNat_ofNat hf.len]; exact ht), hl.block t ht]
  apply Exec.bind
  refine installTrans_exec old hf hnm hr1 (by rw [hdisk]; exact hl) (fun t ht => ?_)
    (.inl hz) (fun _ _ => .inl) ?_
  · have := hrd _ _ (hboot (logBlock sb.logstart t))
    rw [hdisk, ← hl.log t ht]
    exact this
  intro w2 hl2 hi2 hlog2 hr2 hz2
  apply Exec.bind
  apply Exec.modifyMem
  refine writeHead_exec hr2 (by rw [hlog2]; exact hnm.dev) (Nat.zero_le _)
    (hz2.imp_left fun h => ⟨⟨0, by decide⟩, h _⟩) (fun hd hh => .inr ?_)
    fun hd w' hh _ hdisk' _ _ => ?_
  · simpa [hlog2, hnm.start] using hl2.clear hf hi2 hh.1
  · rw [hdisk']
    simpa [hlog2, hnm.start] using hl2.clear hf hi2 hh.1

/-- Any number of stopped recoveries leave a logged or installed disk, and the next recovery that
completes installs the transaction. -/
theorem recovery (hf : Fits sb tx) (hd : Logged sb tx old d ∨ Installed sb tx old d)
    (ks : List Nat) :
    ∃ w', initlog ROOTDEV sb ⟨bootMem, restarts (initlog ROOTDEV sb) bootMem ks d, []⟩ =
      .ok () w' ∧ Installed sb tx old w'.disk := by
  have hi : Logged sb tx old (restarts (initlog ROOTDEV sb) bootMem ks d) ∨
      Installed sb tx old (restarts (initlog ROOTDEV sb) bootMem ks d) := by
    refine restarts_inv (I := fun d => Logged sb tx old d ∨ Installed sb tx old d) ?_ ks hd
    rintro d k (hl | hi)
    · exact (initlog_exec hf hl).stopped (.inl hl) k
    · exact .inr (hi.of_nil hf ((initlog_exec hf.nil hi.logged).stopped (.inl hi.logged) k))
  rcases hi with hl | hi
  · obtain ⟨⟨⟩, w', hw, hq⟩ := (initlog_exec hf hl).returns
    exact ⟨w', hw, hq⟩
  · obtain ⟨⟨⟩, w', hw, hq⟩ := (initlog_exec hf.nil hi.logged).returns
    exact ⟨w', hw, hi.of_nil hf (.inr hq)⟩

/-! ## Commit -/

/-- The first `write_head` has completed: the header block is among the writes. -/
def HeadWritten (sb : Superblock) (ws : List (BlockNo × Block)) : Prop :=
  ∃ hd, (sb.logstart, hd) ∈ ws

/-- What the disk may hold when `commit` has issued the writes `ws`: before the first `write_head`
the old contents with a clear header, after it a logged or installed transaction. -/
def CommitPoint (sb : Superblock) (tx : List (BlockNo × Block)) (old : Disk)
    (ws : List (BlockNo × Block)) (d : Disk) : Prop :=
  ¬ HeadWritten sb ws ∧ Installed sb [] old d ∨ Logged sb tx old d ∨ Installed sb tx old d

/-- The header block and the blocks outside the log are as they were. -/
structure Untouched (sb : Superblock) (old d : Disk) : Prop where
  header : d sb.logstart = old sb.logstart
  others : ∀ b, ¬ InLog sb b → d b = old b

/-- Writing a log block leaves the old contents and the header. -/
theorem Untouched.writeLog (h : Untouched sb old d) (hf : Fits sb tx) {t : Nat}
    (ht : t < tx.length) (v : Block) :
    Untouched sb old (update d (logBlock sb.logstart t) v) := by
  refine ⟨?_, fun b hb => ?_⟩
  · rw [update_of_ne (logBlock_ne_start (lt_of_lt_of_le ht hf.len)).symm]
    exact h.header
  · have hne : b ≠ logBlock sb.logstart t := fun he => hb (he ▸ inLog_logBlock hf ht)
    rw [update_of_ne hne]
    exact h.others b hb

/-- The loop of `write_log`: every write keeps the old contents, and at the end the log blocks hold
the new ones. -/
theorem writeLog_exec {Q : Unit → World → Prop} (hf : Fits sb tx) (ho : Ongoing sb tx w.mem)
    (hc : Untouched sb old w.disk) (hw : ¬ HeadWritten sb w.writes)
    (hC : ∀ ws d, ¬ HeadWritten sb ws → Untouched sb old d → C ws d)
    (hav : Enough false tx 0 w.mem.bcache.buf ∨ E (.panic "bget: no buffers"))
    (h : ∀ w', w'.mem.log = w.mem.log → w'.mem.bcache.Ready ROOTDEV →
      Untouched sb old w'.disk → (∀ t (h : t < tx.length),
        Reads w'.mem.bcache.buf w'.disk ROOTDEV (logBlock sb.logstart t) tx[t].2) →
      (Enough false tx 0 w'.mem.bcache.buf ∨ E (.panic "bget: no buffers")) → Q () w') :
    Exec C E writeLog w Q := by
  apply Exec.read
  unfold forInt
  rw [ho.names.n, toNat_ofNat hf.len]
  refine (Exec.range (fun t w1 => (w1.mem.log = w.mem.log ∧ w1.mem.bcache.Ready ROOTDEV) ∧
    Untouched sb old w1.disk ∧ ¬ HeadWritten sb w1.writes ∧
    (∀ p ∈ tx, Pinned w1.mem.bcache.buf ROOTDEV p.1 p.2) ∧ (∀ u (h : u < tx.length), u < t →
      Reads w1.mem.bcache.buf w1.disk ROOTDEV (logBlock sb.logstart u) tx[u].2) ∧
    (Enough false tx 0 w1.mem.bcache.buf ∨ E (.panic "bget: no buffers")))
    ⟨⟨rfl, ho.ready⟩, hc, hw, ho.cached, by omega, hav⟩ fun t ht w1 hi => ?_).mono
    fun _ w1 hi => ?_
  · obtain ⟨⟨hlog, hr1⟩, hc1, hw1, hp1, hrd1, hav1⟩ := hi
    have hstart : w1.mem.log.start = sb.logstart := by rw [hlog]; exact ho.names.start
    have htl := lt_of_lt_of_le ht hf.len
    have hw2 : ¬ HeadWritten sb (w1.writes ++ [(logBlock sb.logstart t, tx[t].2)]) := by
      rintro ⟨hd, hm⟩
      rcases mem_append.mp hm with hm | hm
      · exact hw1 ⟨hd, hm⟩
      · exact logBlock_ne_start htl (congrArg fst (mem_singleton.mp hm)).symm
    have hc2 := hc1.writeLog hf ht tx[t].2
    refine writeLogOne_exec hr1 (by rw [hlog]; exact ho.names.dev)
      (by rw [hlog]; exact ho.names.block t ht) ?_ (hp1 _ (getElem_mem ht))
      (hav1.imp_left fun h => h.2.free hr1.uniq h.1) ?_ ?_
    · rw [hstart]; exact hf.home_ne ht ht
    · rw [hstart]; exact hC _ _ hw2 hc2
    · rw [hstart]
      intro w2 ha hdisk hws hself hrefs
      refine ⟨⟨ha.log.trans hlog, ha.ready⟩, by rw [hdisk]; exact hc2, by rw [hws]; exact hw2,
        fun p hp => hrefs.pinned _ _ ?_ (hp1 p hp), fun u hu hut => ?_,
        hav1.imp_left fun h => ⟨h.1, h.2.same hrefs (hf.logBlock_not_mem ht)⟩⟩
      · intro he
        exact hf.home p hp (he ▸ inLog_logBlock hf ht)
      · by_cases hue : u = t
        · subst hue; exact hself
        · exact ha.reads _ _
            (fun he => hue (logBlock_inj (lt_of_lt_of_le hu hf.len) htl he))
            (hrd1 u hu (by omega))
  · obtain ⟨⟨hlog, hr1⟩, hc1, -, -, hrd1, hav1⟩ := hi
    exact h w1 hlog hr1 hc1 (fun t ht => hrd1 t ht ht) hav1

/-- The write of the header commits: the transaction is logged. -/
theorem logged_of_header {l : Log} {hd : Block} (hf : Fits sb tx) (hnm : Names sb tx l)
    (hc : Untouched sb old d) (hlog : ∀ t (h : t < tx.length), d (logBlock sb.logstart t) = tx[t].2)
    (hh : HeaderOf l.lh hd) : Logged sb tx old (update d sb.logstart hd) := by
  have hn : l.lh.n.toInt.toNat = tx.length := by rw [hnm.n, toNat_ofNat hf.len]
  refine ⟨?_, fun t ht => ?_, fun t ht => ?_, fun b hb _ => ?_⟩
  · rw [update_self, hh.1, hnm.n]
  · rw [update_self]
    have := hh.2 t (by omega)
    rw [hnm.block t ht] at this
    exact (Option.some.inj this).symm
  · rw [update_of_ne (logBlock_ne_start (lt_of_lt_of_le ht hf.len))]
    exact hlog t ht
  · have hne : b ≠ sb.logstart := fun he => hb (he ▸ inLog_start hf)
    rw [update_of_ne hne]
    exact hc.others b hb

/-- Every write of `commit` lands at a commit point. Without enough buffers it may panic. -/
theorem commit_exec {mem : Mem} (hf : Fits sb tx) (ho : Ongoing sb tx mem)
    (hC : ∀ ws d', ¬ HeadWritten sb ws → Untouched sb d d' → C ws d')
    (hC' : ∀ ws d', Logged sb tx d d' ∨ Installed sb tx d d' → C ws d')
    (hav : Enough false tx 0 mem.bcache.buf ∨ E (.panic "bget: no buffers")) :
    Exec C E commit ⟨mem, d, []⟩ fun _ _ => True := by
  apply Exec.read
  split
  · apply Exec.bind
    refine writeLog_exec hf ho ⟨rfl, fun _ _ => rfl⟩ (by simp [HeadWritten]) hC hav ?_
    intro w1 hlog hr1 hc1 hrd1 hav1
    have hnm : Names sb tx w1.mem.log := by rw [hlog]; exact ho.names
    have hl2 : ∀ hd, HeaderOf w1.mem.log.lh hd →
        Logged sb tx d (update w1.disk w1.mem.log.start hd) := by
      intro hd hh
      rw [hnm.start]
      exact logged_of_header hf hnm hc1 (fun t ht => (hrd1 t ht).1) hh
    apply Exec.bind
    refine writeHead_exec hr1 hnm.dev (by rw [hnm.n, toNat_ofNat hf.len]; exact hf.len)
      (hav1.imp_left fun h => h.2.free hr1.uniq h.1)
      (fun hd hh => hC' _ _ (.inl (hl2 hd hh))) fun hd w2 hh ha hdisk _ hrefs => ?_
    have hnm2 : Names sb tx w2.mem.log := by rw [ha.log]; exact hnm
    have hav2 := hav1.imp_left fun h : Enough false tx 0 _ => (⟨h.1, h.2.same hrefs
      (by rw [hnm.start]; exact hf.not_mem_of_inLog (inLog_start hf))⟩ : Enough false tx 0 _)
    apply Exec.bind
    refine installTrans_exec d hf hnm2 ha.ready (by rw [hdisk]; exact hl2 hd hh)
      (fun t ht => ha.reads _ _ ?_ (hrd1 t ht)) hav2 (fun _ _ hl => hC' _ _ (.inl hl)) ?_
    · rw [hnm.start]; exact logBlock_ne_start (lt_of_lt_of_le ht hf.len)
    intro w3 hl3 hi3 hlog3 hr3 hav3
    apply Exec.bind
    apply Exec.modifyMem
    refine writeHead_exec hr3 (by rw [hlog3]; exact hnm2.dev) (Nat.zero_le _)
      (hav3.imp_left fun h => h.2.free hr3.uniq h.1)
      (fun hd' hh' => hC' _ _ (.inr ?_)) fun _ _ _ _ _ _ _ => trivial
    simpa [hlog3, hnm2.start] using hl3.clear hf hi3 hh'.1
  · exact Exec.pure trivial

/-- **Crash atomicity.** On a disk whose log header is clear, let `commit` stop after any number `k`
of its writes, and let the recovery in `initlog` be stopped and restarted any number of times
(`ks`). The next recovery returns, the home blocks of the transaction hold all their old or all
their new contents, every other block outside the log is as it was, and the log header is clear. If
the first `write_head` completed, the contents are the new ones. -/
theorem commit_atomic {mem : Mem} (hf : Fits sb tx) (ho : Ongoing sb tx mem)
    (hc : (old sb.logstart).int 0 = 0) (k : Nat) (ks : List Nat) :
    ∃ w', initlog ROOTDEV sb ⟨bootMem,
        restarts (initlog ROOTDEV sb) bootMem ks (stopped commit mem k old), []⟩ = .ok () w' ∧
      Recovered sb tx old w'.disk ∧
      (HeadWritten sb ((issued commit mem old).take k) → ∀ p ∈ tx, w'.disk p.1 = p.2) := by
  have hclean : Installed sb [] old old := ⟨hc, by simp, fun _ _ _ => rfl⟩
  have hstart : CommitPoint sb tx old [] old := .inl ⟨by simp [HeadWritten], hclean⟩
  have hpoint : ∀ ws d', ¬ HeadWritten sb ws → Untouched sb old d' → CommitPoint sb tx old ws d' :=
    fun ws d' hw hu => .inl ⟨hw, by rw [hu.header, hc], by simp, fun b hb _ => hu.others b hb⟩
  rcases (commit_exec (E := fun _ => True) hf ho hpoint (fun _ _ => .inr) (.inr trivial)).stopped
    hstart k with ⟨hw, hd⟩ | hd
  · obtain ⟨w', he, hi⟩ := recovery hf.nil (.inr hd) ks
    refine ⟨w', he, ⟨.inl fun p hp => ?_, fun b hb _ => hi.others b hb (by simp), hi.header⟩,
      fun h => absurd h hw⟩
    exact hi.others _ (hf.home p hp) (by simp)
  · obtain ⟨w', he, hi⟩ := recovery hf hd ks
    exact ⟨w', he, ⟨.inr hi.homes, hi.others, hi.header⟩, fun _ => hi.homes⟩

/-- A log of 30 blocks from the block 2 on. -/
def demoSb : Superblock := ⟨30, 2⟩

/-- The block 100 gets the bytes 7, the block 101 the bytes 8. -/
def demoTx : List (BlockNo × Block) := [(100, fun _ => 7), (101, fun _ => 8)]

/-- The two blocks are cached and pinned. -/
def demoMem : Mem where
  bcache.buf i := match demoTx[i.val]? with
    | some (b, data) => { valid := true, dev := ROOTDEV, blockno := b, refcnt := 1, data }
    | none => {}
  bcache.lru := List.finRange NBUF
  log := { start := 2, size := 30, dev := ROOTDEV,
           lh := ⟨2, (Vector.replicate LOGSIZE 100).set 1 101⟩ }

def demoDisk : Disk := fun _ _ => 0

/-- The machine stops after the first `write_head`, and then in two recoveries: the third one
installs both blocks. -/
theorem commit_atomic_demo : ∃ w', initlog ROOTDEV demoSb ⟨bootMem,
      restarts (initlog ROOTDEV demoSb) bootMem [0, 1] (stopped commit demoMem 3 demoDisk), []⟩ =
        .ok () w' ∧
    (w'.disk 100 = fun _ => 7) ∧ w'.disk 101 = fun _ => 8 := by
  have hf : Fits demoSb demoTx := by
    refine ⟨by decide, by decide, by decide, ?_⟩
    rintro p hp ⟨j, hj, he⟩
    have : j < 30 := hj
    simp only [demoTx, mem_cons, not_mem_nil, or_false] at hp
    rcases hp with rfl | rfl <;> simp only [demoSb] at he <;> bv_omega
  have hb : ∀ i b, (demoMem.bcache.buf i).Is ROOTDEV b → ∃ h : i.val < demoTx.length,
      demoTx[i.val].1 = b := by
    intro i b hi
    simp only [demoMem] at hi
    split at hi
    · next heq =>
      obtain ⟨h, he⟩ := List.getElem?_eq_some_iff.mp heq
      exact ⟨h, by rw [he]; exact hi.2⟩
    · exact absurd hi.1 (by decide)
  have hl : ∀ i, (demoMem.bcache.buf i).locked = false := by
    intro i
    simp only [demoMem]
    split <;> rfl
  have ho : Ongoing demoSb demoTx demoMem := by
    refine ⟨⟨rfl, rfl, rfl, fun t ht => ?_⟩, ?_, ⟨mem_finRange, fun i j b hi hj => ?_,
      fun i _ => hl i⟩, hl⟩
    · revert t
      decide
    · simp only [demoTx, forall_mem_cons, not_mem_nil, IsEmpty.forall_iff, implies_true, and_true]
      exact ⟨⟨⟨0, by decide⟩, ⟨rfl, rfl⟩, rfl, by decide, rfl⟩,
        ⟨1, by decide⟩, ⟨rfl, rfl⟩, rfl, by decide, rfl⟩
    · obtain ⟨hi, hbi⟩ := hb i b hi
      obtain ⟨hj, hbj⟩ := hb j b hj
      have hinj : ∀ m, (hm : m < demoTx.length) → ∀ n, (hn : n < demoTx.length) →
          demoTx[m].1 = demoTx[n].1 → m = n := by decide
      exact Fin.ext (hinj i hi j hj (hbi.trans hbj.symm))
  have hw : ((issued commit demoMem demoDisk).take 3).map fst = [3, 4, 2] := by
    decide +kernel
  obtain ⟨w', he, -, hn⟩ := commit_atomic hf ho (show (demoDisk _).int 0 = 0 by decide) 3 [0, 1]
  have hm : demoSb.logstart ∈ ((issued commit demoMem demoDisk).take 3).map fst := by
    rw [hw]; decide
  obtain ⟨p, hp, hs⟩ := mem_map.mp hm
  have hnew := hn ⟨p.2, by rw [← hs]; exact hp⟩
  exact ⟨w', he, hnew _ (mem_cons_self ..), hnew _ (mem_cons_of_mem _ (mem_cons_self ..))⟩

end Xv6.Fs
