import Xv6Rcu.Mem.PageTable

/-!
# User address spaces

The rest of `vm.c` on user page tables, and `proc_pagetable` and `proc_freepagetable` of `proc.c`.
The kernel ends at `kend`, and the page of `trampoline.S` is at `trampoline`.

- `uvmalloc`, `uvmdealloc`: the size of the user memory grows and shrinks.
- `freewalk`, `uvmfree`: the pages are given back; `freewalk` goes down three levels.
- `uvmcopy`: the user memory of a child.
-/

namespace Xv6.Vm

open BitVec (ofNat)

/-- `(a + PGSIZE - 1) & ~(PGSIZE - 1)`. -/
def PGROUNDUP (a : BitVec 64) : BitVec 64 :=
  (a + ofNat 64 PGSIZE - 1) &&& ~~~(ofNat 64 PGSIZE - 1)

def TRAMPOLINE : BitVec 64 := MAXVA - ofNat 64 PGSIZE

def TRAPFRAME : BitVec 64 := TRAMPOLINE - ofNat 64 PGSIZE

/-- `memmove(dst, src, PGSIZE)` of one page to another. -/
def memmove (mem : BitVec 64 → BitVec 64) (dst src : BitVec 64) : BitVec 64 → BitVec 64 :=
  fun a => if a - dst < ofNat 64 PGSIZE then mem (src + (a - dst)) else mem a

def uvmcreate (s : St) : BitVec 64 × St :=
  let (pagetable, s) := kalloc s
  if pagetable = 0 then (0, s) else (pagetable, { s with mem := memset s.mem pagetable 0 })

/-- `npages` is an `int`. -/
def uvmdealloc (kend : Nat) (pagetable oldsz newsz : BitVec 64) (s : St) :
    Except String (BitVec 64 × St) := do
  if oldsz ≤ newsz then return (oldsz, s)
  if PGROUNDUP newsz < PGROUNDUP oldsz then
    let npages : BitVec 32 :=
      ((PGROUNDUP oldsz - PGROUNDUP newsz) / ofNat 64 PGSIZE).setWidth 32
    let s ← uvmunmap kend pagetable (PGROUNDUP newsz) (npages.signExtend 64) true s
    return (newsz, s)
  return (newsz, s)

/-- The permissions of user memory. -/
def PTE_USER : BitVec 32 := (PTE_W ||| PTE_X ||| PTE_R ||| PTE_U).setWidth 32

/-- The loop of `uvmalloc`; `oldsz` is rounded up. -/
def uvmallocLoop (kend : Nat) (pagetable oldsz newsz : BitVec 64) :
    Nat → BitVec 64 → St → Except String (BitVec 64 × St)
  | 0, _, _ => .error "out of rounds"
  | n + 1, a, s =>
    if a < newsz then do
      let (mem, s) := kalloc s
      if mem = 0 then
        let (_, s) ← uvmdealloc kend pagetable a oldsz s
        return (0, s)
      let s := { s with mem := memset s.mem mem 0 }
      let (r, s) ← mappages pagetable a (ofNat 64 PGSIZE) mem PTE_USER s
      if r ≠ 0 then
        let s ← kfree kend mem s
        let (_, s) ← uvmdealloc kend pagetable a oldsz s
        return (0, s)
      uvmallocLoop kend pagetable oldsz newsz n (a + ofNat 64 PGSIZE) s
    else .ok (newsz, s)

def uvmalloc (kend : Nat) (pagetable oldsz newsz : BitVec 64) (s : St) :
    Except String (BitVec 64 × St) :=
  if newsz < oldsz then .ok (oldsz, s)
  else uvmallocLoop kend pagetable (PGROUNDUP oldsz) newsz (NPAGES + 1) (PGROUNDUP oldsz) s

/-- The loop of `freewalk` over the entries of a page; `down` frees a page of the next level. -/
def freewalkLoop (down : BitVec 64 → St → Except String St) (pagetable : BitVec 64) :
    List (BitVec 9) → St → Except String St
  | [], s => .ok s
  | i :: is, s =>
    let pte := s.mem (slot pagetable i)
    if pte &&& PTE_V ≠ 0 ∧ pte &&& (PTE_R ||| PTE_W ||| PTE_X) = 0 then do
      let s ← down (PTE2PA pte) s
      freewalkLoop down pagetable is (s.write (slot pagetable i) 0)
    else if pte &&& PTE_V ≠ 0 then .error "freewalk: leaf"
    else freewalkLoop down pagetable is s

/-- The indices of a page-table page. -/
def indices : List (BitVec 9) := (List.range 512).map (ofNat 9)

/-- `freewalk` of a page with so many levels. -/
def freewalk (kend : Nat) : Nat → BitVec 64 → St → Except String St
  | 0, _, _ => .error "out of levels"
  | level + 1, pagetable, s => do
    let s ← freewalkLoop (freewalk kend level) pagetable indices s
    kfree kend pagetable s

def uvmfree (kend : Nat) (pagetable sz : BitVec 64) (s : St) : Except String St := do
  let s ← if 0 < sz then
      uvmunmap kend pagetable 0 (PGROUNDUP sz / ofNat 64 PGSIZE) true s
    else pure s
  freewalk kend 3 pagetable s

/-- The loop of `uvmcopy`. -/
def uvmcopyLoop (kend : Nat) (old new sz : BitVec 64) :
    Nat → BitVec 64 → St → Except String (Int × St)
  | 0, _, _ => .error "out of rounds"
  | n + 1, i, s =>
    if i < sz then do
      let (pte, s) ← walk old i false s
      if pte = 0 then throw "uvmcopy: pte should exist"
      if s.mem pte &&& PTE_V = 0 then throw "uvmcopy: page not present"
      let pa := PTE2PA (s.mem pte)
      let flags := (PTE_FLAGS (s.mem pte)).setWidth 32
      let (mem, s) := kalloc s
      if mem = 0 then
        let s ← uvmunmap kend new 0 (i / ofNat 64 PGSIZE) true s
        return (-1, s)
      let s := { s with mem := memmove s.mem mem pa }
      let (r, s) ← mappages new i (ofNat 64 PGSIZE) mem flags s
      if r ≠ 0 then
        let s ← kfree kend mem s
        let s ← uvmunmap kend new 0 (i / ofNat 64 PGSIZE) true s
        return (-1, s)
      uvmcopyLoop kend old new sz n (i + ofNat 64 PGSIZE) s
    else .ok (0, s)

def uvmcopy (kend : Nat) (old new sz : BitVec 64) (s : St) : Except String (Int × St) :=
  uvmcopyLoop kend old new sz (NPAGES + 1) 0 s

/-- `proc_pagetable`, with the page `p->trapframe`; 0 if the memory is exhausted. -/
def procPagetable (kend : Nat) (trampoline trapframe : BitVec 64) (s : St) :
    Except String (BitVec 64 × St) := do
  let (pagetable, s) := uvmcreate s
  if pagetable = 0 then return (0, s)
  let (r, s) ← mappages pagetable TRAMPOLINE (ofNat 64 PGSIZE) trampoline
    ((PTE_R ||| PTE_X).setWidth 32) s
  if r < 0 then
    let s ← uvmfree kend pagetable 0 s
    return (0, s)
  let (r, s) ← mappages pagetable TRAPFRAME (ofNat 64 PGSIZE) trapframe
    ((PTE_R ||| PTE_W).setWidth 32) s
  if r < 0 then
    let s ← uvmunmap kend pagetable TRAMPOLINE 1 false s
    let s ← uvmfree kend pagetable 0 s
    return (0, s)
  return (pagetable, s)

def procFreepagetable (kend : Nat) (pagetable sz : BitVec 64) (s : St) : Except String St := do
  let s ← uvmunmap kend pagetable TRAMPOLINE 1 false s
  let s ← uvmunmap kend pagetable TRAPFRAME 1 false s
  uvmfree kend pagetable sz s

end Xv6.Vm
