import Xv6Rcu.Lib.Fifo
import Xv6Rcu.Lib.Machine

/-!
# The disk driver

`virtio_disk_rw` and `virtio_disk_intr` of `virtio_disk.c` with the device, for any number of
processes and buffers. A process that runs between two sleeps holds `disk.vdisk_lock`. The device
moves at any time: between the write of a slot of the avail ring and the increment of its index, and
between two rounds of the interrupt handler.

- `allocDesc`, `freeDesc`, `freeChain`, `alloc3Desc`: the descriptors. A panic is `none`.
- `St`: the memory that the driver and the device share, where each process is, the device, and the
  history: the requests are numbered in the order of the avail ring.
-/

namespace Xv6.Virtio

open Lib Function

def NUM : Nat := 8

instance : NeZero NUM := ⟨by decide⟩

abbrev Byte := BitVec 8

/-- What the address of a descriptor points to. -/
inductive Addr (B : Type) where
  | null
  /-- `&disk.ops[i]`. -/
  | op (i : Nat)
  /-- `b->data`. -/
  | data (b : B)
  /-- `&disk.info[i].status`. -/
  | status (i : Nat)

/-- `struct virtq_desc`. `next` is `VRING_DESC_F_NEXT` of its flags and `write` is
`VRING_DESC_F_WRITE`; `link` is its field `next`. -/
structure Desc (B : Type) where
  addr : Addr B := .null
  len : Nat := 0
  next : Bool := false
  write : Bool := false
  link : Nat := 0

/-- `struct virtio_blk_req`. -/
structure BlkReq where
  out : Bool
  sector : BitVec 64

structure Info (B : Type) where
  b : Option B
  status : Byte

/-- `struct disk`. -/
structure Disk (B : Type) where
  desc : Nat → Desc B := fun _ => {}
  availRing : Fin NUM → Nat := fun _ => 0
  availIdx : BitVec 16 := 0
  usedRing : Fin NUM → Nat := fun _ => 0
  /-- `disk.used->idx`. -/
  deviceIdx : BitVec 16 := 0
  free : Nat → Bool := fun _ => true
  /-- `disk.used_idx`. -/
  usedIdx : BitVec 16 := 0
  info : Nat → Info B := fun _ => ⟨none, 0⟩
  ops : Nat → BlkReq := fun _ => ⟨false, 0⟩

/-! ## Descriptors -/

section Desc
variable {B : Type}

def allocDesc (d : Disk B) : Option (Nat × Disk B) :=
  ((List.range NUM).find? d.free).map fun i =>
    (i, { d with free := update d.free i false })

def freeDesc (d : Disk B) (i : Nat) : Option (Disk B) :=
  if NUM ≤ i then none
  else if d.free i then none
  else some { d with
    desc := update d.desc i {}
    free := update d.free i true }

/-- The loop of `free_chain`. -/
def freeChain : Nat → Disk B → Nat → Option (Disk B)
  | 0, _, _ => none
  | fuel + 1, d, i =>
    let flag := (d.desc i).next
    let nxt := (d.desc i).link
    (freeDesc d i).bind fun d => if flag then freeChain fuel d nxt else some d

/-- The loop of `alloc3_desc`: `n` descriptors more, after `idx`. -/
def allocLoop : Nat → List Nat → Disk B → Option (Disk B × Option (List Nat))
  | 0, idx, d => some (d, some idx)
  | n + 1, idx, d =>
    match allocDesc d with
    | some (i, d) => allocLoop n (idx ++ [i]) d
    | none => (idx.foldlM freeDesc d).map (·, none)

def alloc3Desc (d : Disk B) : Option (Disk B × Option (List Nat)) := allocLoop 3 [] d

end Desc

/-! ## Processes and the device -/

/-- A call of `virtio_disk_rw`. -/
structure Op (B : Type) where
  b : B
  write : Bool
  blockno : BitVec 32

/-- A call that has its descriptors, and the number of its request. -/
structure Req (B : Type) where
  b : B
  i0 : Nat
  i1 : Nat
  i2 : Nat
  num : Nat

def Req.chain {B : Type} (r : Req B) : List Nat := [r.i0, r.i1, r.i2]

/-- Where a process is. -/
inductive Pc (B : Type) where
  | idle
  /-- `sleep(&disk.free[0], &disk.vdisk_lock)`. -/
  | noDesc (op : Op B)
  /-- Before the increment of `disk.avail->idx`. -/
  | publish (r : Req B)
  /-- At the test of `b->disk`. -/
  | wait (r : Req B)
  /-- `sleep(b, &disk.vdisk_lock)`. -/
  | asleep (r : Req B)
  /-- The loop of `virtio_disk_intr`. -/
  | intr

/-- The device, and the history of the requests. -/
structure Io where
  /-- The next entry of the avail ring that the device takes. -/
  lastAvail : BitVec 16 := 0
  /-- The requests that the device works on, with the heads of their chains. -/
  working : List (Nat × Nat) := []
  /-- The heads that were written to the avail ring. -/
  written : List Nat := []
  published : Nat := 0
  taken : Nat := 0
  completed : List (Nat × Nat) := []
  /-- How many completions the interrupt handler has seen. -/
  seen : Nat := 0

structure St (P B : Type) where
  disk : Disk B := {}
  /-- `b->disk`. -/
  busy : B → Bool := fun _ => false
  /-- The buffers that are in a call of `virtio_disk_rw`. -/
  held : B → Bool := fun _ => false
  lock : Option P := none
  pc : P → Pc B := fun _ => .idle
  panic : Bool := false
  io : Io := {}

inductive Act (B : Type) where
  | rw (op : Op B)
  | intr
  | step

inductive Lbl (P B : Type) where
  | proc (p : P) (act : Act B)
  /-- The device takes the next head. -/
  | take
  /-- The device completes a request. -/
  | complete (num : Nat)

section Code
variable {P B : Type} [DecidableEq P] [DecidableEq B]

def St.goto (s : St P B) (p : P) (pc : Pc B) : St P B :=
  { s with pc := update s.pc p pc }

def St.crash (s : St P B) : St P B := { s with panic := true }

/-- The formatted descriptors of a request. -/
def format (d : Disk B) (op : Op B) (i0 i1 i2 : Nat) : Disk B :=
  let sector := (op.blockno * 2).setWidth 64
  { d with
    ops := update d.ops i0 ⟨op.write, sector⟩
    desc := update (update (update d.desc
      i0 ⟨.op i0, 16, true, false, i1⟩)
      i1 ⟨.data op.b, 1024, true, !op.write, i2⟩)
      i2 ⟨.status i0, 1, false, true, 0⟩
    info := update d.info i0 ⟨some op.b, 0xff⟩
    availRing := update d.availRing (cell NUM d.availIdx.toNat) i0 }

/-- `virtio_disk_rw` up to the write of the slot of the avail ring, or to the sleep. -/
def attempt (s : St P B) (p : P) (op : Op B) : St P B :=
  match alloc3Desc s.disk with
  | none => s.crash
  | some (d, none) => { s.goto p (.noDesc op) with disk := d, lock := none }
  | some (d, some idx) =>
    match idx with
    | [i0, i1, i2] =>
      { s.goto p (.publish ⟨op.b, i0, i1, i2, s.io.written.length⟩) with
        disk := format d op i0 i1 i2
        busy := update s.busy op.b true
        lock := some p
        io := { s.io with written := s.io.written ++ [i0] } }
    | _ => s.crash

/-- The increment of `disk.avail->idx`. -/
def publish (s : St P B) (p : P) (r : Req B) : St P B :=
  { s.goto p (.wait r) with
    disk := { s.disk with availIdx := s.disk.availIdx + 1 }
    io := { s.io with published := s.io.published + 1 } }

/-- `while(b->disk == 1)`, and what follows it. -/
def await (s : St P B) (p : P) (r : Req B) : St P B :=
  if s.busy r.b then { s.goto p (.asleep r) with lock := none }
  else
    let d := { s.disk with
      info := update s.disk.info r.i0 ⟨none, (s.disk.info r.i0).status⟩ }
    match freeChain (NUM + 1) d r.i0 with
    | none => s.crash
    | some d =>
      { s.goto p .idle with
        disk := d
        held := update s.held r.b false
        lock := none }

/-- A round of the loop of `virtio_disk_intr`. -/
def intrRound (s : St P B) (p : P) : St P B :=
  if s.disk.usedIdx = s.disk.deviceIdx then { s.goto p .idle with lock := none }
  else
    let id := s.disk.usedRing (cell NUM s.disk.usedIdx.toNat)
    if (s.disk.info id).status ≠ 0 then s.crash
    else
      match (s.disk.info id).b with
      | none => s.crash
      | some b =>
        { s with
          disk := { s.disk with usedIdx := s.disk.usedIdx + 1 }
          busy := update s.busy b false
          io := { s.io with seen := s.io.seen + 1 } }

def step (s : St P B) (p : P) : Act B → Option (St P B)
  | .rw op =>
    match s.pc p with
    | .idle =>
      if s.lock = none ∧ s.held op.b = false then
        some (attempt { s with held := update s.held op.b true } p op)
      else none
    | _ => none
  | .intr =>
    match s.pc p with
    | .idle => if s.lock = none then some { s.goto p .intr with lock := some p } else none
    | _ => none
  | .step =>
    match s.pc p with
    | .idle => none
    | .noDesc op => if s.lock = none then some (attempt s p op) else none
    | .publish r => some (publish s p r)
    | .wait r => some (await s p r)
    | .asleep r => if s.lock = none then some { s.goto p (.wait r) with lock := some p } else none
    | .intr => some (intrRound s p)

/-! The device follows the chain of a head to the descriptor of the status. -/

def chainEnd (desc : Nat → Desc B) : Nat → Nat → Nat
  | 0, i => i
  | fuel + 1, i => if (desc i).next then chainEnd desc fuel (desc i).link else i

def deviceTake (s : St P B) : Option (St P B) :=
  if s.io.lastAvail = s.disk.availIdx then none
  else
    let head := s.disk.availRing (cell NUM s.io.lastAvail.toNat)
    some { s with
      io := { s.io with
        lastAvail := s.io.lastAvail + 1
        working := s.io.working ++ [(s.io.taken, head)]
        taken := s.io.taken + 1 } }

/-- The device completes the request `num`. -/
def deviceComplete (s : St P B) (num : Nat) : Option (St P B) :=
  match s.io.working.find? (·.1 = num) with
  | none => none
  | some (_, head) =>
    match (s.disk.desc (chainEnd s.disk.desc NUM head)).addr with
    | .status i =>
      some { s with
        disk := { s.disk with
          info := update s.disk.info i { s.disk.info i with status := 0 }
          usedRing := update s.disk.usedRing (cell NUM s.disk.deviceIdx.toNat) head
          deviceIdx := s.disk.deviceIdx + 1 }
        io := { s.io with
          working := s.io.working.filter (·.1 ≠ num)
          completed := s.io.completed ++ [(num, head)] } }
    -- a chain that does not end in a status: the driver makes none (`Protocol.working`)
    | _ => none

def machine : Machine (St P B) (Lbl P B) where
  next s l :=
    if s.panic then none
    else
      match l with
      | .proc p act => step s p act
      | .take => deviceTake s
      | .complete num => deviceComplete s num

end Code

end Xv6.Virtio
