import Xv6Rcu.Fs.Bio
import Xv6Rcu.Lib.Machine

/-!
# Inodes

The block and inode layers of `fs.c`, on the block array that the cache and the log give
(`Fs.Transparent`): `bread` reads a block of it, and a change of the buffer with `log_write` writes
one. There is one device.

- `Layout`: the superblock.
- Blocks: `balloc`, `bfree`. Inodes: `ialloc`, `iget`, `ilock`, `iupdate`, `iput`. Contents: `bmap`,
  `itrunc`, `readi`, `writei`, where the copies to and from the caller are parameters.
- `machine`: any sequence of these calls. Where the source says that the caller must hold a
  reference or the lock, the call needs it.
-/

namespace Xv6

/-- Maximum number of active inodes. -/
def NINODE : Nat := 50

namespace Ino

open Lib Fs Function

/-! ## The disk format -/

def NDIRECT : Nat := 12
def NINDIRECT : Nat := BSIZE / 4
def MAXFILE : Nat := NDIRECT + NINDIRECT

/-- Inodes per block. -/
def IPB : Nat := 16

/-- Bitmap bits per block. -/
def BPB : Nat := BSIZE * 8

/-- `struct superblock`. The blocks below `nmeta` are the metadata: `mkfs` puts the inode blocks
before the bitmap and the bitmap before the data. -/
structure Layout where
  size : Nat
  ninodes : Nat
  inodestart : Nat
  bmapstart : Nat
  nmeta : Nat
  inode_lt : ∀ i < ninodes, i / IPB + inodestart < bmapstart
  bmap_lt : ∀ b < size, b / BPB + bmapstart < nmeta
  nmeta_pos : 0 < nmeta
  nmeta_le : nmeta ≤ size
  size_lt : size < 2 ^ 31

/-- `struct dinode`. -/
structure Dinode where
  type : BitVec 16 := 0
  major : BitVec 16 := 0
  minor : BitVec 16 := 0
  nlink : BitVec 16 := 0
  size : BitVec 32 := 0
  addrs : Fin (NDIRECT + 1) → BitVec 32 := fun _ => 0

/-- `struct inode`, without its lock. -/
structure Inode extends Dinode where
  inum : Nat := 0
  ref : Nat := 0
  valid : Bool := false

/-- The words of a `struct dinode`. -/
def Dinode.word (x : Dinode) : Nat → BitVec 32
  | 0 => x.major ++ x.type
  | 1 => x.nlink ++ x.minor
  | 2 => x.size
  | k + 3 => if h : k < NDIRECT + 1 then x.addrs ⟨k, h⟩ else 0

/-- The inode `j` of a block. -/
def Dinode.get (b : Block) (j : Nat) : Dinode where
  type := (b.int (16 * j)).extractLsb' 0 16
  major := (b.int (16 * j)).extractLsb' 16 16
  minor := (b.int (16 * j + 1)).extractLsb' 0 16
  nlink := (b.int (16 * j + 1)).extractLsb' 16 16
  size := b.int (16 * j + 2)
  addrs k := b.int (16 * j + (k.val + 3))

/-- Store 16 words from the word `k` on. -/
def setInts (b : Block) (k : Nat) (f : Nat → BitVec 32) : Block :=
  fun j => if k ≤ j / 4 ∧ j / 4 < k + 16 then (f (j / 4 - k)).extractLsb' (8 * (j % 4)) 8 else b j

/-- Store the inode `j` of a block. -/
def Dinode.put (b : Block) (j : Nat) (x : Dinode) : Block := setInts b (16 * j) x.word

/-- The bit `bi` of a bitmap block. -/
def bit (b : Block) (bi : Nat) : Bool := b.byte (bi / 8) &&& (1#8 <<< (bi % 8)) != 0

/-- `data[bi/8] |= m`. -/
def setBit (b : Block) (bi : Nat) : Block :=
  fun j => if j = bi / 8 then b j ||| (1#8 <<< (bi % 8)) else b j

/-- `data[bi/8] &= ~m`. -/
def clearBit (b : Block) (bi : Nat) : Block :=
  fun j => if j = bi / 8 then b j &&& ~~~(1#8 <<< (bi % 8)) else b j

/-! ## Blocks -/

section Code
variable (lay : Layout)

/-- The block of the bitmap that has the bit of the block `b`. -/
def BBLOCK (b : Nat) : BlockNo := BitVec.ofNat 32 (b / BPB + lay.bmapstart)

/-- The block that has the inode `i`. -/
def IBLOCK (i : Nat) : BlockNo := BitVec.ofNat 32 (i / IPB + lay.inodestart)

def bzero (bno : BlockNo) (d : Disk) : Disk := update d bno fun _ => 0

/-- The inner loop of `balloc`, on the bitmap block `blk` whose first bit is that of `b`, for at
most `n` more bits from `bi` on. -/
def ballocScan (blk : Block) (b : Nat) : Nat → Nat → Option Nat
  | 0, _ => none
  | n + 1, bi =>
    if b + bi < lay.size then
      if bit blk bi then ballocScan blk b n (bi + 1) else some bi
    else none

/-- The outer loop of `balloc`, for at most `n` more blocks of the bitmap. -/
def ballocFrom : Nat → Nat → Disk → Except String (BlockNo × Disk)
  | 0, _, _ => .error "balloc: out of blocks"
  | n + 1, b, d =>
    if b < lay.size then
      match ballocScan lay (d (BBLOCK lay b)) b BPB 0 with
      | some bi =>
        let d := update d (BBLOCK lay b) (setBit (d (BBLOCK lay b)) bi)
        .ok (BitVec.ofNat 32 (b + bi), bzero (BitVec.ofNat 32 (b + bi)) d)
      | none => ballocFrom n (b + BPB) d
    else .error "balloc: out of blocks"

def balloc (d : Disk) : Except String (BlockNo × Disk) := ballocFrom lay (lay.size / BPB + 1) 0 d

def bfree (b : BlockNo) (d : Disk) : Except String Disk :=
  let bno := BBLOCK lay b.toNat
  let bi := b.toNat % BPB
  if bit (d bno) bi then .ok (update d bno (clearBit (d bno) bi))
  else .error "freeing free block"

/-! ## The contents of an inode -/

/-- The index of the address of the indirect block. -/
def INDIRECT : Fin (NDIRECT + 1) := ⟨NDIRECT, Nat.lt_succ_self _⟩

def bmap (ip : Inode) (bn : Nat) (d : Disk) : Except String (BlockNo × Inode × Disk) :=
  if h : bn < NDIRECT then
    let k : Fin (NDIRECT + 1) := ⟨bn, Nat.lt_succ_of_lt h⟩
    if ip.addrs k = 0 then
      match balloc lay d with
      | .error msg => .error msg
      | .ok (addr, d) => .ok (addr, { ip with addrs := update ip.addrs k addr }, d)
    else .ok (ip.addrs k, ip, d)
  else
    let bn := bn - NDIRECT
    if bn < NINDIRECT then
      -- load indirect block, allocating if necessary
      match if ip.addrs INDIRECT = 0 then balloc lay d else .ok (ip.addrs INDIRECT, d) with
      | .error msg => .error msg
      | .ok (addr, d) =>
        let ip := { ip with addrs := update ip.addrs INDIRECT addr }
        if (d addr).int bn = 0 then
          match balloc lay d with
          | .error msg => .error msg
          | .ok (a, d) => .ok (a, ip, update d addr ((d addr).setInt bn a))
        else .ok ((d addr).int bn, ip, d)
    else .error "bmap: out of range"

def iupdate (ip : Inode) (d : Disk) : Disk :=
  let bno := IBLOCK lay ip.inum
  update d bno (Dinode.put (d bno) (ip.inum % IPB) ip.toDinode)

/-- The first loop of `itrunc`, for the addresses `l`. -/
def truncDirect : List (Fin (NDIRECT + 1)) → Inode → Disk → Except String (Inode × Disk)
  | [], ip, d => .ok (ip, d)
  | i :: l, ip, d =>
    if ip.addrs i = 0 then truncDirect l ip d
    else
      match bfree lay (ip.addrs i) d with
      | .error msg => .error msg
      | .ok d => truncDirect l { ip with addrs := update ip.addrs i 0 } d

/-- The second loop of `itrunc`, for the entries `l` of the block `b`. -/
def truncEntries (b : BlockNo) : List Nat → Disk → Except String Disk
  | [], d => .ok d
  | j :: l, d =>
    if (d b).int j = 0 then truncEntries b l d
    else
      match bfree lay ((d b).int j) d with
      | .error msg => .error msg
      | .ok d => truncEntries b l d

/-- The part of `itrunc` for the indirect block. -/
def truncIndirect (ip : Inode) (d : Disk) : Except String (Inode × Disk) :=
  if ip.addrs INDIRECT = 0 then .ok (ip, d)
  else
    match truncEntries lay (ip.addrs INDIRECT) (List.range NINDIRECT) d with
    | .error msg => .error msg
    | .ok d =>
      match bfree lay (ip.addrs INDIRECT) d with
      | .error msg => .error msg
      | .ok d => .ok ({ ip with addrs := update ip.addrs INDIRECT 0 }, d)

def itrunc (ip : Inode) (d : Disk) : Except String (Inode × Disk) :=
  match truncDirect lay ((List.finRange NDIRECT).map Fin.castSucc) ip d with
  | .error msg => .error msg
  | .ok (ip, d) =>
    match truncIndirect lay ip d with
    | .error msg => .error msg
    | .ok (ip, d) =>
      let ip := { ip with size := 0 }
      .ok (ip, iupdate lay ip d)

/-- `either_copyin` into a buffer: what the buffer holds afterwards, and whether all bytes could be
copied. The arguments are `tot`, the offset in the buffer, the number of bytes and the buffer. -/
abbrev Copyin := Nat → Nat → Nat → Block → Block × Bool

/-- `either_copyout` from a buffer. -/
abbrev Copyout := Nat → Nat → Nat → Block → Bool

/-- The loop of `readi`. The last argument but two bounds the rounds: each one reads a byte. -/
def readLoop (copyout : Copyout) (n : Nat) :
    Nat → Nat → Nat → Inode → Disk → Except String (Int × Inode × Disk)
  | 0, tot, _, ip, d => .ok (tot, ip, d)
  | r + 1, tot, off, ip, d =>
    if tot < n then
      match bmap lay ip (off / BSIZE) d with
      | .error msg => .error msg
      | .ok (addr, ip, d) =>
        let m := min (n - tot) (BSIZE - off % BSIZE)
        if copyout tot (off % BSIZE) m (d addr) then
          readLoop copyout n r (tot + m) (off + m) ip d
        else .ok (-1, ip, d)
    else .ok (tot, ip, d)

def readi (copyout : Copyout) (ip : Inode) (off n : BitVec 32) (d : Disk) :
    Except String (Int × Inode × Disk) :=
  if ip.size < off ∨ off + n < off then .ok (0, ip, d)
  else
    let n := if ip.size < off + n then ip.size - off else n
    readLoop lay copyout n.toNat n.toNat 0 off.toNat ip d

/-- The loop of `writei`. The last argument but two bounds the rounds: each one writes a byte. -/
def writeLoop (copyin : Copyin) (n : Nat) :
    Nat → Nat → Nat → Inode → Disk → Except String (Nat × Nat × Inode × Disk)
  | 0, tot, off, ip, d => .ok (tot, off, ip, d)
  | r + 1, tot, off, ip, d =>
    if tot < n then
      match bmap lay ip (off / BSIZE) d with
      | .error msg => .error msg
      | .ok (addr, ip, d) =>
        let m := min (n - tot) (BSIZE - off % BSIZE)
        let (data, ok) := copyin tot (off % BSIZE) m (d addr)
        let d := update d addr data
        if ok then writeLoop copyin n r (tot + m) (off + m) ip d
        else .ok (tot, off, ip, d)
    else .ok (tot, off, ip, d)

def writei (copyin : Copyin) (ip : Inode) (off n : BitVec 32) (d : Disk) :
    Except String (Int × Inode × Disk) :=
  if ip.size < off ∨ off + n < off then .ok (-1, ip, d)
  else if MAXFILE * BSIZE < (off + n).toNat then .ok (-1, ip, d)
  else
    match writeLoop lay copyin n.toNat n.toNat 0 off.toNat ip d with
    | .error msg => .error msg
    | .ok (tot, off, ip, d) =>
      let ip := if ip.size.toNat < off then { ip with size := BitVec.ofNat 32 off } else ip
      .ok (tot, ip, iupdate lay ip d)

/-! ## The inode table -/

/-- The disk and `itable`. -/
structure St where
  disk : Disk
  inode : Fin NINODE → Inode := fun _ => {}

/-- The loop of `iget`: the entry of the inode, or the first empty one. -/
def igetLoop (inum : Nat) (inode : Fin NINODE → Inode) :
    List (Fin NINODE) → Option (Fin NINODE) → Fin NINODE ⊕ Option (Fin NINODE)
  | [], empty => .inr empty
  | k :: l, empty =>
    if 0 < (inode k).ref ∧ (inode k).inum = inum then .inl k
    else igetLoop inum inode l (if empty = none ∧ (inode k).ref = 0 then some k else empty)

def St.set (s : St) (k : Fin NINODE) (ip : Inode) : St :=
  { s with inode := update s.inode k ip }

def iget (inum : Nat) (s : St) : Except String (Fin NINODE × St) :=
  match igetLoop inum s.inode (List.finRange NINODE) none with
  | .inl k => .ok (k, s.set k { s.inode k with ref := (s.inode k).ref + 1 })
  | .inr (some k) => .ok (k, s.set k { s.inode k with inum, ref := 1, valid := false })
  | .inr none => .error "iget: no inodes"

def idup (k : Fin NINODE) (s : St) : St := s.set k { s.inode k with ref := (s.inode k).ref + 1 }

/-- The loop of `ialloc`, for at most `n` more inodes. -/
def iallocFrom (type : BitVec 16) : Nat → Nat → St → Except String (Fin NINODE × St)
  | 0, _, _ => .error "ialloc: no inodes"
  | n + 1, inum, s =>
    if inum < lay.ninodes then
      let bno := IBLOCK lay inum
      if (Dinode.get (s.disk bno) (inum % IPB)).type = 0 then
        let blk := Dinode.put (s.disk bno) (inum % IPB) { type }
        iget inum { s with disk := update s.disk bno blk }
      else iallocFrom type n (inum + 1) s
    else .error "ialloc: no inodes"

def ialloc (type : BitVec 16) (s : St) : Except String (Fin NINODE × St) :=
  iallocFrom lay type lay.ninodes 1 s

def ilock (k : Fin NINODE) (s : St) : Except String St :=
  let ip := s.inode k
  if ip.ref < 1 then .error "ilock"
  else if ip.valid then .ok s
  else
    let dip := Dinode.get (s.disk (IBLOCK lay ip.inum)) (ip.inum % IPB)
    if dip.type = 0 then .error "ilock: no type"
    else .ok (s.set k { ip with toDinode := dip, valid := true })

def iput (k : Fin NINODE) (s : St) : Except String St :=
  let ip := s.inode k
  if ip.ref = 1 ∧ ip.valid = true ∧ ip.nlink = 0 then
    -- inode has no links and no other references: truncate and free
    match itrunc lay ip s.disk with
    | .error msg => .error msg
    | .ok (ip, d) =>
      let ip := { ip with type := 0 }
      .ok { disk := iupdate lay ip d,
            inode := update s.inode k { ip with valid := false, ref := ip.ref - 1 } }
  else .ok (s.set k { ip with ref := ip.ref - 1 })

/-! ## Sequences of calls -/

inductive Op where
  | ialloc (type : BitVec 16)
  | iget (inum : Nat)
  | idup (k : Fin NINODE)
  | ilock (k : Fin NINODE)
  /-- The caller changes fields of the inode. -/
  | setattr (k : Fin NINODE) (major minor nlink : BitVec 16)
  | iupdate (k : Fin NINODE)
  | readi (k : Fin NINODE) (copyout : Copyout) (off n : BitVec 32)
  | writei (k : Fin NINODE) (copyin : Copyin) (off n : BitVec 32)
  | itrunc (k : Fin NINODE)
  | iput (k : Fin NINODE)

/-- The inode is in use, and was read from disk by `ilock`. -/
def Inode.InUse (ip : Inode) : Prop := 0 < ip.ref ∧ ip.valid = true

instance (ip : Inode) : Decidable ip.InUse := inferInstanceAs (Decidable (_ ∧ _))

/-- What the caller must have. -/
def Op.Legal (s : St) : Op → Prop
  | .ialloc _ => True
  | .iget inum => inum < lay.ninodes
  | .idup k | .iput k => 0 < (s.inode k).ref
  | .ilock _ => True
  | .setattr k .. | .iupdate k | .readi k .. | .writei k .. | .itrunc k => (s.inode k).InUse

instance (s : St) (op : Op) : Decidable (op.Legal lay s) := by
  cases op <;> unfold Op.Legal <;> infer_instance

/-- The call `op`. -/
def exec (s : St) : Op → Except String St
  | .ialloc type => (ialloc lay type s).map Prod.snd
  | .iget inum => (iget inum s).map Prod.snd
  | .idup k => .ok (idup k s)
  | .ilock k => ilock lay k s
  | .setattr k major minor nlink => .ok (s.set k { s.inode k with major, minor, nlink })
  | .iupdate k => .ok { s with disk := iupdate lay (s.inode k) s.disk }
  | .readi k copyout off n =>
    (readi lay copyout (s.inode k) off n s.disk).map fun (_, ip, d) => { s.set k ip with disk := d }
  | .writei k copyin off n =>
    (writei lay copyin (s.inode k) off n s.disk).map fun (_, ip, d) => { s.set k ip with disk := d }
  | .itrunc k => (itrunc lay (s.inode k) s.disk).map fun (ip, d) => { s.set k ip with disk := d }
  | .iput k => iput lay k s

def machine : Machine St Op where
  next s op := if op.Legal lay s then (exec lay s op).toOption else none

end Code

end Ino
end Xv6
