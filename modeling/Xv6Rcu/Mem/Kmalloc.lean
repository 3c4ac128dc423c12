import Xv6Rcu.Mem.Kalloc

/-!
# The kernel heap

`kmalloc.c`: the allocator of Kernighan and Ritchie over `kalloc`. A `Header` is 16 bytes, a pointer
and a 32-bit size in units of 16 bytes. The loops take a bound on their rounds: a call that returns
does so within some number of rounds.

The machine `heap` makes calls of `kalloc`, `kfree`, `knmalloc` and `knfree`. Its state keeps who
has which memory: the pages handed to callers of `kalloc`, the pages that `knmorecore` obtained, and
the live blocks.

- **The defect** (`knmalloc_overlaps`): `knmorecore` records at least 4096 units, 64 KiB, for the
  one page of 4 KiB that it obtains. After 16 calls of `kalloc`, the first block of `knmalloc` lies
  in a page that `kalloc` gave to another caller.
- **What holds** (`ok_iff`): the first block of a run is never inside the heap's pages, whatever its
  size, so the heap is contained exactly in the runs that do not call `knmalloc`.
-/

namespace Xv6.Mem

open Lib Function List
open Option (bind_eq_some_iff bind_some)

/-! ## Headers -/

/-- `sizeof(Header)`. -/
def HEADER : Nat := 16

/-- The memory, `freep`, and the pages that `knmorecore` has obtained. -/
structure Heap extends Phys where
  freep : Nat := 0
  core : List Nat := []

namespace Heap

def load (s : Heap) (a : Nat) : Option Nat := if mapped a then some (s.mem a) else none

def store (s : Heap) (a v : Nat) : Option Heap :=
  if mapped a then some { s with mem := Function.update s.mem a v } else none

/-- `h->s.ptr`. -/
def ptr (s : Heap) (h : Nat) : Option Nat := s.load h

/-- `h->s.size`, the low half of the second word. -/
def size (s : Heap) (h : Nat) : Option Nat := (s.load (h + 8)).map (· % 2 ^ 32)

def setPtr (s : Heap) (h v : Nat) : Option Heap := s.store h v

def setSize (s : Heap) (h v : Nat) : Option Heap := do
  let w ← s.load (h + 8)
  s.store (h + 8) (w / 2 ^ 32 * 2 ^ 32 + v % 2 ^ 32)

end Heap

/-! ## `kmalloc.c` -/

variable (lay : Layout)

/-- The search loop of `knfree`. -/
def knfreeScan (s : Heap) (bp : Nat) : Nat → Nat → Option Nat
  | 0, _ => none
  | fuel + 1, p => do
    let q ← s.ptr p
    if p < bp ∧ bp < q then return p
    if q ≤ p ∧ (p < bp ∨ bp < q) then return p
    knfreeScan s bp fuel q

/-- The first `if` of `knfree`: join with the block after `bp`. -/
def joinNext (s : Heap) (bp p : Nat) : Option Heap := do
  let q ← s.ptr p
  let n ← s.size bp
  if bp + n * HEADER = q then
    let s ← s.setSize bp (n + (← s.size q))
    s.setPtr bp (← s.ptr (← s.ptr p))
  else s.setPtr bp q

/-- The second `if` of `knfree`: join with the block before `bp`. -/
def joinPrev (s : Heap) (bp p : Nat) : Option Heap := do
  let n ← s.size p
  if p + n * HEADER = bp then
    let s ← s.setSize p (n + (← s.size bp))
    s.setPtr p (← s.ptr bp)
  else s.setPtr p bp

def knfree (fuel : Nat) (s : Heap) (ap : Nat) : Option Heap := do
  let bp := ap - HEADER
  let p ← knfreeScan s bp fuel s.freep
  let s ← joinNext s bp p
  let s ← joinPrev s bp p
  return { s with freep := p }

/-- `knmorecore` compares the result of `kalloc` with `(char*)-1`, not with `NULL`. -/
def knmorecore (fuel : Nat) (s : Heap) (nu : Nat) : Option (Nat × Heap) := do
  let nu := if nu < 4096 then 4096 else nu
  let (p, phys) ← kalloc s.toPhys
  let s := { s with toPhys := phys, core := p :: s.core }
  if p = 2 ^ 64 - 1 then return (0, s)
  let s ← s.setSize p nu
  let s ← knfree fuel s (p + HEADER)
  return (s.freep, s)

/-- `knmalloc` has found a block `p` of `size ≥ nunits`: take all of it or its tail end. -/
def carve (s : Heap) (nunits prevp p size : Nat) : Option (Nat × Heap) := do
  if size = nunits then
    let s ← s.setPtr prevp (← s.ptr p)
    return (p + HEADER, { s with freep := prevp })
  else
    let s ← s.setSize p (size - nunits)
    let p := p + (← s.size p) * HEADER
    let s ← s.setSize p nunits
    return (p + HEADER, { s with freep := prevp })

/-- The loop of `knmalloc`. -/
def knmallocLoop (bound : Nat) (nunits : Nat) : Nat → Heap → Nat → Nat → Option (Nat × Heap)
  | 0, _, _, _ => none
  | fuel + 1, s, prevp, p => do
    let size ← s.size p
    if nunits ≤ size then carve s nunits prevp p size
    else if p = s.freep then
      let (p, s) ← knmorecore bound s nunits
      if p = 0 then return (0, s)
      knmallocLoop bound nunits fuel s p (← s.ptr p)
    else knmallocLoop bound nunits fuel s p (← s.ptr p)

/-- The number of units of a block for `nbytes`, its header included. -/
def units (nbytes : Nat) : Nat := (nbytes + HEADER - 1) / HEADER + 1

/-- The first `if` of `knmalloc`: an empty heap is `base`, linked to itself. -/
def initFreep (s : Heap) : Option Heap :=
  if s.freep = 0 then do
    let s ← { s with freep := lay.base }.setPtr lay.base lay.base
    s.setSize lay.base 0
  else some s

/-- `knmalloc`; 0 is `NULL`. -/
def knmalloc (fuel : Nat) (s : Heap) (nbytes : Nat) : Option (Nat × Heap) := do
  let s ← initFreep lay s
  knmallocLoop fuel (units nbytes) fuel s s.freep (← s.ptr s.freep)

/-! ## The machine -/

/-- The heap and who has which memory: `pages` were handed to callers of `kalloc`, `blocks` are the
live blocks, by the address of the header and the number of units. -/
structure St extends Heap where
  pages : List Nat := []
  blocks : List (Nat × Nat) := []

/-- A call; `fuel` bounds the rounds of its loops. -/
inductive Call where
  | kalloc
  | kfree (pa : Nat)
  | knmalloc (nbytes fuel : Nat)
  | knfree (hdr fuel : Nat)
  deriving DecidableEq

/-- Calls of the two allocators: `kfree` of pages that `kalloc` returned and that were not freed,
`knfree` of live blocks. `nbytes` is a `uint`. -/
def heap : Machine St Call where
  next s
    | .kalloc => do
      let (p, phys) ← kalloc s.toPhys
      return { s with toPhys := phys, pages := if p = 0 then s.pages else p :: s.pages }
    | .kfree pa =>
      if pa ∈ s.pages then do
        let phys ← kfree lay pa s.toPhys
        return { s with toPhys := phys, pages := s.pages.erase pa }
      else none
    | .knmalloc nbytes fuel =>
      if nbytes < 2 ^ 32 then do
        let (a, h) ← knmalloc lay fuel s.toHeap nbytes
        return { s with
          toHeap := h
          blocks := if a = 0 then s.blocks else (a - HEADER, units nbytes) :: s.blocks }
      else none
    | .knfree hdr fuel =>
      if hdr ∈ s.blocks.map Prod.fst then do
        let h ← knfree fuel s.toHeap (hdr + HEADER)
        return { s with toHeap := h, blocks := s.blocks.filter (·.1 ≠ hdr) }
      else none

/-- The state after `kinit`. -/
def start (mem : Nat → Nat) : Option St := (kinit lay mem).map fun s => { toPhys := s }

/-- The byte `a` is in the block, its header included. -/
def InBlock (b : Nat × Nat) (a : Nat) : Prop := b.1 ≤ a ∧ a < b.1 + b.2 * HEADER

def InPage (p a : Nat) : Prop := p ≤ a ∧ a < p + PGSIZE

/-- Every live block is inside the pages that `knmorecore` obtained; it overlaps no other live
block, no free page and no page handed to a caller. -/
structure Ok (s : St) : Prop where
  contained : ∀ b ∈ s.blocks, ∀ a, InBlock b a → ∃ p ∈ s.core, InPage p a
  blocks : s.blocks.Pairwise fun b c => ∀ a, ¬ (InBlock b a ∧ InBlock c a)
  free : ∀ l, Chain (nextRun s.mem) (toPtr s.freelist) l → ∀ b ∈ s.blocks, ∀ p ∈ l, ∀ a,
    ¬ (InBlock b a ∧ InPage p a)
  pages : ∀ b ∈ s.blocks, ∀ p ∈ s.pages, ∀ a, ¬ (InBlock b a ∧ InPage p a)

/-! ## The first block -/

variable {lay} {s : Heap} {l : List Nat} {p nbytes fuel : Nat} {s' : Heap} {a n size v : Nat}

theorem Heap.load_eq (h : mapped a = true) : s.load a = some (s.mem a) := if_pos h

theorem Heap.store_eq (h : mapped a = true) :
    s.store a v = some { s with mem := update s.mem a v } := if_pos h

theorem Heap.size_eq {h : Nat} (hm : mapped (h + 8) = true) :
    s.size h = some (s.mem (h + 8) % 2 ^ 32) := by
  rw [size, load_eq hm, Option.map_some]

theorem Heap.setSize_eq {h : Nat} (hm : mapped (h + 8) = true) :
    s.setSize h v = some { s with
      mem := update s.mem (h + 8) (s.mem (h + 8) / 2 ^ 32 * 2 ^ 32 + v % 2 ^ 32) } := by
  rw [setSize, load_eq hm]
  exact store_eq hm

theorem Layout.mapped_base (lay : Layout) : mapped lay.base = true ∧
    mapped (lay.base + 8) = true := by
  have := lay.kernbase_le
  have := lay.base_lt
  have := lay.kend_le
  simp only [mapped, decide_eq_true_eq]
  omega

theorem IsPage.mapped_size (h : IsPage lay p) : Mem.mapped (p + 8) = true := by
  have := lay.kernbase_le
  have := lay.base_lt
  have := h.low
  have := h.high
  simp only [PGSIZE] at *
  simp only [Mem.mapped, decide_eq_true_eq]
  omega

theorem units_pos (nbytes : Nat) : 0 < units nbytes := Nat.succ_pos _

theorem units_lt (h : nbytes < 2 ^ 32) : units nbytes < 2 ^ 32 := by
  simp only [units, HEADER]
  omega

/-- The units that `knmorecore` records. -/
def recorded (nbytes : Nat) : Nat := if units nbytes < 4096 then 4096 else units nbytes

/-- `knmorecore` on an empty heap links the page behind `base`. -/
theorem knmorecore_first (hl : FreeList lay s.toPhys (p :: l)) (hf : s.freep = lay.base)
    (hb : s.mem lay.base = lay.base) (hz : s.mem (lay.base + 8) % 2 ^ 32 = 0) (fuel nu : Nat)
    (hnu : nu < 2 ^ 32) :
    ∃ s', knmorecore (fuel + 1) s nu = some (lay.base, s') ∧ s'.core = p :: s.core ∧
      s'.freep = lay.base ∧ s'.mem lay.base = p ∧
      s'.mem (p + 8) % 2 ^ 32 = if nu < 4096 then 4096 else nu := by
  have hp := hl.page p (by simp)
  have hlow := hp.low
  have hbase := lay.base_lt
  have hhigh := hp.high
  obtain ⟨phys, hk, -, hmem⟩ := kalloc_cons hl
  obtain ⟨hm1, hm2⟩ := lay.mapped_base
  have hmb : phys.mem lay.base = lay.base := by rw [hmem _ (by omega), hb]
  have hmz : phys.mem (lay.base + 8) % 2 ^ 32 = 0 := by rw [hmem _ (by omega), hz]
  generalize hv : (if nu < 4096 then 4096 else nu) = v
  have hv32 : v % 2 ^ 32 = v := by split at hv <;> omega
  have hne : p ≠ 2 ^ 64 - 1 := by
    have : PHYSTOP < 2 ^ 64 - 1 := by decide
    omega
  have e1 : lay.base ≠ p + 8 := by omega
  have e2 : lay.base + 8 ≠ p := by omega
  have e3 : lay.base + 8 ≠ p + 8 := by omega
  have e4 : lay.base ≠ p := by omega
  simp only [knmorecore, hk, hv, bind, bind_some, if_neg hne, Heap.setSize_eq hp.mapped_size,
    knfree, Nat.add_sub_cancel, knfreeScan, Heap.ptr, Heap.load_eq hm1, hf,
    update_of_ne e1]
  rw [if_neg (by omega), if_pos (by omega)]
  have e5 : p + v * HEADER ≠ lay.base := by omega
  have e6 : lay.base + 0 * HEADER ≠ p := by omega
  have hsz : (phys.mem (p + 8) / 2 ^ 32 * 2 ^ 32 + v % 2 ^ 32) % 2 ^ 32 = v := by omega
  simp only [pure, bind_some, joinNext, joinPrev, bind, Heap.ptr, Heap.load_eq hm1,
    Heap.size_eq hp.mapped_size, Heap.size_eq hm2, Heap.setPtr, Heap.store_eq hm1,
    Heap.store_eq hp.mapped, update_self, update_of_ne e1,
    update_of_ne e2, update_of_ne e3, hmb, hmz, hsz, if_neg e5, if_neg e6]
  refine ⟨_, rfl, rfl, rfl, update_self .., ?_⟩
  simp only [update_of_ne e1.symm, update_of_ne (show p + 8 ≠ p by omega),
    update_self, hsz]

theorem units_le_recorded (nbytes : Nat) : units nbytes ≤ recorded nbytes := by
  unfold recorded
  split <;> omega

/-- The first call of `knmalloc` sets the heap up and asks for memory. -/
theorem knmalloc_first_round (hl : FreeList lay s.toPhys l) (hf : s.freep = 0) (fuel nbytes : Nat) :
    ∃ s0, (FreeList lay s0.toPhys l ∧ s0.freep = lay.base ∧ s0.core = s.core ∧
        s0.mem lay.base = lay.base ∧ s0.mem (lay.base + 8) % 2 ^ 32 = 0) ∧
      knmalloc lay (fuel + 1) s nbytes = (knmorecore (fuel + 1) s0 (units nbytes)).bind fun r =>
        if r.1 = 0 then some (0, r.2)
        else (r.2.ptr r.1).bind (knmallocLoop (fuel + 1) (units nbytes) fuel r.2 r.1) := by
  have hbase := lay.base_lt
  obtain ⟨hm1, hm2⟩ := lay.mapped_base
  let s0 : Heap := { s with
    mem := update (update s.mem lay.base lay.base) (lay.base + 8)
      (s.mem (lay.base + 8) / 2 ^ 32 * 2 ^ 32 + 0 % 2 ^ 32)
    freep := lay.base }
  have hl0 : FreeList lay s0.toPhys l := by
    refine hl.congr rfl fun a ha => ?_
    simp only [s0]
    rw [update_of_ne (by omega), update_of_ne (by omega)]
  have hb0 : s0.mem lay.base = lay.base := by
    simp only [s0]
    rw [update_of_ne (by omega), update_self]
  have hz0 : s0.mem (lay.base + 8) % 2 ^ 32 = 0 := by
    simp only [s0, update_self]
    omega
  refine ⟨s0, ⟨hl0, rfl, rfl, hb0, hz0⟩, ?_⟩
  have hinit : initFreep lay s = some s0 := by
    simp [initFreep, if_pos hf, Heap.setPtr, Heap.store_eq hm1,
      Heap.setSize_eq hm2, s0]
  have hfp : s0.freep = lay.base := rfl
  have hp0 : s0.ptr lay.base = some lay.base := by rw [Heap.ptr, Heap.load_eq hm1, hb0]
  have hs0 : s0.size lay.base = some 0 := by rw [Heap.size_eq hm2, hz0]
  have hpos := units_pos nbytes
  simp only [knmalloc, hinit, bind, bind_some, hfp, hp0, knmallocLoop, hs0,
    if_neg (show ¬ units nbytes ≤ 0 by omega), ↓reduceIte, pure]

/-- Without a free page the first call does not return: it writes to the header at `NULL`. -/
theorem knmalloc_nil (hl : FreeList lay s.toPhys []) (hf : s.freep = 0) (nbytes fuel : Nat) :
    knmalloc lay fuel s nbytes = none := by
  cases fuel with
  | zero => cases h : initFreep lay s <;> simp [knmalloc, knmallocLoop]
  | succ fuel =>
    obtain ⟨s0, ⟨hl0, -⟩, he⟩ := knmalloc_first_round hl hf fuel nbytes
    have h0 : ∀ s : Heap, s.setSize 0 (if units nbytes < 4096 then 4096 else units nbytes) = none :=
      fun _ => rfl
    simp [he, knmorecore, kalloc_nil hl0, h0]

/-- The first call of `knmalloc` carves its block out of the page that it records. -/
theorem knmalloc_cons (hl : FreeList lay s.toPhys (p :: l)) (hf : s.freep = 0)
    (hn : nbytes < 2 ^ 32) (fuel : Nat) :
    ∃ s1, knmalloc lay (fuel + 1) s nbytes =
        (if fuel = 0 then none else carve s1 (units nbytes) lay.base p (recorded nbytes)) ∧
      s1.core = p :: s.core ∧ s1.mem (p + 8) % 2 ^ 32 = recorded nbytes := by
  have hp := hl.page p (by simp)
  have hb0 : lay.base ≠ 0 := by
    have := lay.kernbase_le
    simp only [KERNBASE] at this
    omega
  obtain ⟨s0, ⟨hl0, hf0, hc0, hb₀, hz0⟩, he⟩ := knmalloc_first_round hl hf fuel nbytes
  obtain ⟨s1, hmore, hcore, hf1, hb1, hsz⟩ :=
    knmorecore_first hl0 hf0 hb₀ hz0 fuel (units nbytes) (units_lt hn)
  refine ⟨s1, ?_, by rw [hcore, hc0], hsz⟩
  have hp1 : s1.ptr lay.base = some p := by rw [Heap.ptr, Heap.load_eq lay.mapped_base.1, hb1]
  have hs1 : s1.size p = some (recorded nbytes) := by rw [Heap.size_eq hp.mapped_size, hsz]; rfl
  have hle := units_le_recorded nbytes
  rw [he, hmore]
  simp only [bind_some, if_neg hb0, hp1]
  cases fuel with
  | zero => rfl
  | succ fuel => simp [knmallocLoop, hs1, hle]

theorem Heap.store_core (h : s.store a v = some s') : s'.core = s.core := by
  unfold store at h
  split at h <;> cases h
  rfl

theorem carve_size (w : Nat) (h : w % 2 ^ 32 = size) :
    (w / 2 ^ 32 * 2 ^ 32 + (size - n) % 2 ^ 32) % 2 ^ 32 = size - n := by
  omega

/-- The carved block is the tail end of the recorded units. -/
theorem carve_eq {prevp : Nat} (hp : IsPage lay p) (hsz : s.mem (p + 8) % 2 ^ 32 = size)
    (hc : carve s n prevp p size = some (a, s')) :
    a = p + (size - n) * HEADER + HEADER ∧ s'.core = s.core := by
  unfold carve at hc
  split at hc
  · rename_i he
    simp only [bind, bind_eq_some_iff] at hc
    obtain ⟨q, -, s1, hs1, hc⟩ := hc
    have hcore := Heap.store_core hs1
    cases hc
    refine ⟨?_, hcore⟩
    rw [he, Nat.sub_self, zero_mul, add_zero]
  · rw [Heap.setSize_eq hp.mapped_size] at hc
    simp only [bind, bind_some, Heap.size_eq hp.mapped_size, update_self,
      carve_size (s.mem (p + 8)) hsz, bind_eq_some_iff] at hc
    obtain ⟨s1, hs1, hc⟩ := hc
    obtain ⟨w, -, hs1⟩ := bind_eq_some_iff.mp hs1
    have hcore := Heap.store_core hs1
    cases hc
    exact ⟨rfl, hcore⟩

/-- It returns when the header of the block is in RAM. -/
theorem carve_isSome (hp : IsPage lay p) (hsz : s.mem (p + 8) % 2 ^ 32 = size)
    (hm : mapped (p + (size - n) * HEADER + 8) = true) :
    (carve s n lay.base p size).isSome = true := by
  unfold carve
  split
  · simp [Heap.ptr, Heap.load_eq hp.mapped, Heap.setPtr, Heap.store_eq lay.mapped_base.1]
  · rw [Heap.setSize_eq hp.mapped_size]
    simp only [bind, bind_some, Heap.size_eq hp.mapped_size, update_self,
      carve_size (s.mem (p + 8)) hsz, Heap.setSize_eq hm]
    rfl

/-- The first block of the heap, and the heap's page. -/
theorem knmalloc_first (hl : FreeList lay s.toPhys (p :: l)) (hf : s.freep = 0)
    (hn : nbytes < 2 ^ 32) (hr : knmalloc lay fuel s nbytes = some (a, s')) :
    a = p + (recorded nbytes - units nbytes) * HEADER + HEADER ∧ s'.core = p :: s.core := by
  cases fuel with
  | zero => cases h : initFreep lay s <;> simp [knmalloc, knmallocLoop] at hr
  | succ fuel =>
    obtain ⟨s1, he, hcore, hsz⟩ := knmalloc_cons hl hf hn fuel
    rw [he] at hr
    split at hr
    · cases hr
    · rw [← hcore]
      exact carve_eq (hl.page p (by simp)) hsz hr

/-! ## Runs -/

/-- The state before the first call of `knmalloc`; `l` are the free pages. -/
structure Fresh (lay : Layout) (s : St) (l : List Nat) : Prop where
  free : FreeList lay s.toPhys l
  freep : s.freep = 0
  core : s.core = []
  blocks : s.blocks = []
  page : ∀ p ∈ s.pages, IsPage lay p
  apart : ∀ p ∈ s.pages, p ∉ l
  nodup : s.pages.Nodup

def Call.isKnmalloc : Call → Bool
  | .knmalloc _ _ => true
  | _ => false

variable {t t' : St} {c : Call}

theorem Fresh.ok (h : Fresh lay t l) : Ok t := by
  refine ⟨?_, ?_, ?_, ?_⟩ <;> simp [h.blocks]

theorem Fresh.kalloc (h : Fresh lay t (p :: l)) :
    ∃ t', (heap lay).next t .kalloc = some t' ∧ Fresh lay t' l ∧ t'.pages = p :: t.pages := by
  obtain ⟨phys, hk, hl, -⟩ := kalloc_cons h.free
  have hp := h.free.page p (by simp)
  have hn := nodup_cons.mp h.free.nodup
  refine ⟨{ t with toPhys := phys, pages := p :: t.pages },
    by simp [heap, hk, if_neg hp.ne_zero],
    ⟨hl, h.freep, h.core, h.blocks, ?_, ?_, ?_⟩, rfl⟩
  · intro q hq
    rcases mem_cons.mp hq with rfl | hq
    · exact hp
    · exact h.page q hq
  · intro q hq
    rcases mem_cons.mp hq with rfl | hq
    · exact hn.1
    · exact fun hql => h.apart q hq (by simp [hql])
  · exact nodup_cons.mpr ⟨fun hm => h.apart p hm (by simp), h.nodup⟩

/-- A call of the page allocator keeps the heap untouched. -/
theorem Fresh.step (h : Fresh lay t l) (hc : c.isKnmalloc = false)
    (hn : (heap lay).next t c = some t') : ∃ l', Fresh lay t' l' := by
  cases c with
  | kalloc =>
    cases l with
    | nil =>
      simp only [heap, kalloc_nil h.free] at hn
      cases hn
      exact ⟨[], h⟩
    | cons p l =>
      obtain ⟨t1, he, h1, -⟩ := h.kalloc
      rw [he] at hn
      cases hn
      exact ⟨l, h1⟩
  | kfree pa =>
    simp only [heap] at hn
    split at hn
    · rename_i hm
      have hpa := h.page pa hm
      obtain ⟨phys, hk, hl⟩ := kfree_freeList h.free hpa (h.apart pa hm)
      simp only [hk] at hn
      cases hn
      have hsub : ∀ q ∈ t.pages.erase pa, q ∈ t.pages ∧ q ≠ pa := fun q hq =>
        ⟨mem_of_mem_erase hq, fun e => h.nodup.not_mem_erase (e ▸ hq)⟩
      refine ⟨pa :: l, hl, h.freep, h.core, h.blocks, fun q hq => h.page q (hsub q hq).1,
        fun q hq hql => ?_, h.nodup.erase pa⟩
      rcases mem_cons.mp hql with he | hql
      · exact (hsub q hq).2 he
      · exact h.apart q (hsub q hq).1 hql
    · cases hn
  | knmalloc => cases hc
  | knfree hdr fuel =>
    simp [heap, h.blocks] at hn

/-- The first call of `knmalloc` that returns leaves a block that is not inside the heap's pages. -/
theorem Fresh.knmalloc {nbytes fuel : Nat} (h : Fresh lay t l)
    (hn : (heap lay).next t (.knmalloc nbytes fuel) = some t') : ¬ Ok t' := by
  simp only [heap] at hn
  split at hn
  · rename_i hb
    simp only [bind, bind_eq_some_iff] at hn
    obtain ⟨⟨a, s'⟩, hk, hn⟩ := hn
    cases l with
    | nil => rw [knmalloc_nil h.free h.freep] at hk; cases hk
    | cons p l =>
      obtain ⟨rfl, hcore⟩ := knmalloc_first h.free h.freep hb hk
      rw [if_neg (by simp only [HEADER]; omega)] at hn
      cases hn
      intro hok
      have hpos := units_pos nbytes
      have hrec : 4096 ≤ recorded nbytes := by unfold recorded; split <;> omega
      obtain ⟨q, hq, hin⟩ := hok.contained (p + (recorded nbytes - units nbytes) * HEADER,
          units nbytes)
        (by simp) (p + recorded nbytes * 16 - 1) (by simp only [InBlock, HEADER]; omega)
      simp only [hcore, h.core, mem_singleton] at hq
      simp only [InPage, PGSIZE] at hin
      omega
  · cases hn

/-- By induction on the calls: until the first `knmalloc` the state is fresh. -/
theorem Fresh.run {cs : List Call} {t t' : St} {l : List Nat} (h : Fresh lay t l)
    (hr : (heap lay).run t cs = some t') :
    (∀ u ∈ (heap lay).states t cs, Ok u) ↔ ∀ c ∈ cs, c.isKnmalloc = false := by
  induction cs generalizing t l with
  | nil =>
    refine iff_of_true (fun u hu => ?_) (by simp)
    obtain rfl : u = t := by simpa [Machine.states] using hu
    exact h.ok
  | cons c cs ih =>
    obtain ⟨t1, hn, hr⟩ := Machine.run_cons.mp hr
    have hst : (heap lay).states t (c :: cs) = t :: (heap lay).states t1 cs := by
      simp [Machine.states, hn]
    have hmem : t1 ∈ (heap lay).states t1 cs := by cases cs <;> simp [Machine.states]
    rw [hst, forall_mem_cons, forall_mem_cons, and_iff_right h.ok]
    cases hc : c.isKnmalloc
    · obtain ⟨l1, h1⟩ := h.step hc hn
      rw [ih h1 hr]
      simp
    · refine iff_of_false (fun hall => ?_) (by simp)
      cases c with
      | knmalloc nbytes fuel => exact h.knmalloc hn (hall t1 hmem)
      | _ => cases hc

theorem start_fresh {mem : Nat → Nat} {s0 : St} (h : start lay mem = some s0) :
    Fresh lay s0 (pagesFrom (PGROUNDUP lay.kend) (npages lay)) := by
  obtain ⟨phys, hk, hl⟩ := kinit_freeList lay mem
  simp only [start, hk] at h
  cases h
  exact ⟨hl, rfl, rfl, rfl, by simp, by simp, by simp⟩

theorem Fresh.kallocs {ps : List Nat} (h : Fresh lay t (ps ++ l)) :
    ∃ t', (heap lay).run t (List.replicate ps.length .kalloc) = some t' ∧ Fresh lay t' l ∧
      t'.pages = ps.reverse ++ t.pages := by
  induction ps generalizing t with
  | nil => exact ⟨t, rfl, h, rfl⟩
  | cons p ps ih =>
    obtain ⟨t1, hn, h1, hp1⟩ := h.kalloc
    obtain ⟨t2, hr, h2, hp2⟩ := ih h1
    exact ⟨t2, Machine.run_cons.mpr ⟨t1, hn, hr⟩, h2, by rw [hp2, hp1]; simp⟩

/-- A kernel image of 152 KiB. -/
def image : Layout := ⟨0x80026000, 0x80020000, by decide, by decide, by decide⟩

theorem start_image : ∃ s0, start image (fun _ => 0) = some s0 ∧ s0.pages = [] ∧
    Fresh image s0 (pagesFrom (PHYSTOP - 16 * PGSIZE) 16 ++
      (PHYSTOP - 17 * PGSIZE) :: pagesFrom 0x80026000 32713) := by
  obtain ⟨phys, hk, -⟩ := kinit_freeList image fun _ => 0
  have h0 : start image (fun _ => 0) = some { toPhys := phys } := by
    simp [start, hk]
  refine ⟨_, h0, rfl, ?_⟩
  have hn : npages image = 32713 + (16 + 1) := by decide
  have hf := start_fresh h0
  rwa [hn, pagesFrom_add, pagesFrom, append_assoc, singleton_append] at hf

/-- After 16 calls of `kalloc`, the block of `knmalloc(24)` lies in a page that `kalloc` gave to a
caller. -/
theorem knmalloc_overlaps : ∃ s₀ s, start image (fun _ => 0) = some s₀ ∧
    (heap image).run s₀ (List.replicate 16 .kalloc ++ [.knmalloc 24 2]) = some s ∧
    s.blocks = [(PHYSTOP - 4144, 3)] ∧ PHYSTOP - 8192 ∈ s.pages ∧ ¬ Ok s := by
  obtain ⟨s₀, h₀, hp₀, hf⟩ := start_image
  obtain ⟨t, hr, ht, hp⟩ := hf.kallocs
  have hpage := ht.free.page _ (mem_cons_self ..)
  obtain ⟨h₁, he, -, hsz⟩ := knmalloc_cons ht.free ht.freep (show 24 < 2 ^ 32 by decide) 1
  obtain ⟨⟨a, h₂⟩, hc⟩ := Option.isSome_iff_exists.mp
    (carve_isSome (n := units 24) hpage hsz (by decide))
  rw [hc] at he
  obtain ⟨ha, -⟩ := knmalloc_first ht.free ht.freep (by decide) he
  have ha : a = PHYSTOP - 4144 + HEADER := by rw [ha]; decide
  have hn : (heap image).next t (.knmalloc 24 2) =
      some { t with toHeap := h₂, blocks := [(PHYSTOP - 4144, 3)] } := by
    simp [heap, he, ht.blocks, ha, HEADER, units]
  refine ⟨s₀, _, h₀, Machine.run_append.mpr ⟨t, hr, Machine.run_cons.mpr ⟨_, hn, rfl⟩⟩, rfl, ?_,
    ht.knmalloc hn⟩
  rw [hp, hp₀]
  decide

/-- **Heap containment.** In a run from `kinit`, every block of `knmalloc` is inside pages that
`knmorecore` obtained, and overlaps nothing, exactly when no call of the run is one of `knmalloc`.
-/
theorem ok_iff {mem : Nat → Nat} {s₀ s : St} {cs : List Call} (h₀ : start lay mem = some s₀)
    (hr : (heap lay).run s₀ cs = some s) :
    (∀ t ∈ (heap lay).states s₀ cs, Ok t) ↔ ∀ c ∈ cs, c.isKnmalloc = false := by
  exact (start_fresh h₀).run hr

theorem ok_iff_kalloc : ∃ s₀ s, start image (fun _ => 0) = some s₀ ∧
    (heap image).run s₀ (List.replicate 16 .kalloc) = some s ∧
    ∀ t ∈ (heap image).states s₀ (List.replicate 16 .kalloc), Ok t := by
  obtain ⟨s₀, h₀, -, hf⟩ := start_image
  obtain ⟨s, hr, -⟩ := hf.kallocs
  exact ⟨s₀, s, h₀, hr, (ok_iff h₀ hr).mpr (by decide)⟩

end Xv6.Mem
