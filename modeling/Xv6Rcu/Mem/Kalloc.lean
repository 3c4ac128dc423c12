import Xv6Rcu.Lib.RcuList
import Xv6Rcu.Lib.Machine

/-!
# The page allocator

`kalloc.c`. Physical memory is a map from the addresses of 8-byte words to words; an access outside
RAM faults (`none`), and so does a `panic`. The free list is a chain through the first word of each
free page.

- `FreeList lay s l`: `l` is the list of the free pages, in order.
- `kinit_freeList`, `kalloc_cons`, `kalloc_nil`, `kfree_freeList`: what each function does to it.
- `pages`: any sequence of calls that frees only what was handed out. `Partition`: the pages of the
  allocator are the free ones and those handed out, each once.
-/

namespace Xv6

open List

/-- Bytes per page. -/
def PGSIZE : Nat := 4096

/-- The start of RAM. -/
def KERNBASE : Nat := 0x80000000

/-- The end of RAM. -/
def PHYSTOP : Nat := KERNBASE + 128 * 1024 * 1024

/-- `(sz + PGSIZE - 1) & ~(PGSIZE - 1)`. -/
def PGROUNDUP (sz : Nat) : Nat := (sz + PGSIZE - 1) / PGSIZE * PGSIZE

namespace Mem

open Lib

/-! ## Memory -/

/-- The kernel's image: `kend` is `end`, the first address after the kernel, and `base` the address
of the `base` of `kmalloc.c`, which is in the image. -/
structure Layout where
  kend : Nat
  base : Nat
  kernbase_le : KERNBASE ≤ base
  base_lt : base + 16 ≤ kend
  kend_le : kend ≤ PHYSTOP

/-- The memory and `kmem.freelist`. -/
structure Phys where
  mem : Nat → Nat
  freelist : Nat

/-- The word is in RAM. -/
def mapped (a : Nat) : Bool := KERNBASE ≤ a ∧ a + 8 ≤ PHYSTOP

/-- `memset(pa, c, PGSIZE)`; `w` is the word of bytes `c`. -/
def memsetPage (mem : Nat → Nat) (pa w : Nat) : Nat → Nat :=
  fun a => if pa ≤ a ∧ a < pa + PGSIZE then w else mem a

variable (lay : Layout)

/-! ## `kalloc.c` -/

/-- `kfree`: a page outside the range of pages panics. -/
def kfree (pa : Nat) (s : Phys) : Option Phys :=
  if pa % PGSIZE ≠ 0 ∨ pa < lay.kend ∨ PHYSTOP ≤ pa then none
  else some
    { mem := Function.update (memsetPage s.mem pa 0x0101010101010101) pa s.freelist
      freelist := pa }

/-- The loop of `freerange`, for `n` more pages from `p` on. -/
def freerangeFrom (p : Nat) : Nat → Phys → Option Phys
  | 0, s => some s
  | n + 1, s => (kfree lay p s).bind (freerangeFrom (p + PGSIZE) n)

/-- `freerange`: every page from `PGROUNDUP(pa_start)` on that ends before `pa_end`. -/
def freerange (paStart paEnd : Nat) : Phys → Option Phys :=
  freerangeFrom lay (PGROUNDUP paStart) ((paEnd - PGROUNDUP paStart) / PGSIZE)

/-- `kinit`, on the memory `mem` of the boot. -/
def kinit (mem : Nat → Nat) : Option Phys := freerange lay lay.kend PHYSTOP ⟨mem, 0⟩

/-- `kalloc`; 0 is `NULL`. -/
def kalloc (s : Phys) : Option (Nat × Phys) :=
  if s.freelist = 0 then some (0, s)
  else if mapped s.freelist then some (s.freelist,
    { mem := memsetPage s.mem s.freelist 0x0505050505050505, freelist := s.mem s.freelist })
  else none

/-! ## The free list -/

/-- A pointer, `none` for `NULL`. -/
def toPtr (a : Nat) : Option Nat := if a = 0 then none else some a

/-- `r->next`. -/
def nextRun (mem : Nat → Nat) (r : Nat) : Option Nat := toPtr (mem r)

/-- `p` is a page of the allocator. -/
structure IsPage (lay : Layout) (p : Nat) : Prop where
  aligned : p % PGSIZE = 0
  low : lay.kend ≤ p
  high : p + PGSIZE ≤ PHYSTOP

/-- `l` is the list of the free pages. -/
structure FreeList (lay : Layout) (s : Phys) (l : List Nat) : Prop where
  chain : Chain (nextRun s.mem) (toPtr s.freelist) l
  nodup : l.Nodup
  page : ∀ p ∈ l, IsPage lay p

variable {lay} {s : Phys} {l : List Nat} {p q : Nat}

theorem IsPage.mapped (h : IsPage lay p) : mapped p = true := by
  have := lay.kernbase_le
  have := lay.base_lt
  have := h.low
  have := h.high
  simp only [PGSIZE] at *
  simp only [Mem.mapped, decide_eq_true_eq]
  omega

theorem IsPage.ne_zero (h : IsPage lay p) : p ≠ 0 := by
  have := lay.base_lt
  have := h.low
  omega

/-- A word of one page is not in another page. -/
theorem memsetPage_of_ne {mem : Nat → Nat} {w : Nat} (hp : p % PGSIZE = 0) (hq : q % PGSIZE = 0)
    (hne : q ≠ p) : memsetPage mem p w q = mem q := by
  unfold memsetPage
  rw [if_neg]
  simp only [PGSIZE] at *
  omega

theorem memsetPage_of_lt {mem : Nat → Nat} {w a : Nat} (h : a < p) :
    memsetPage mem p w a = mem a := by
  simp only [memsetPage]
  rw [if_neg]
  omega

/-- The list only depends on the memory of the pages. -/
theorem FreeList.congr {s' : Phys} (h : FreeList lay s l) (hf : s'.freelist = s.freelist)
    (hm : ∀ a, lay.kend ≤ a → s'.mem a = s.mem a) : FreeList lay s' l := by
  refine ⟨?_, h.nodup, h.page⟩
  rw [hf]
  exact Chain.congr h.chain fun a ha => congrArg toPtr (hm a (h.page a ha).low)

/-- An empty list: `kalloc` returns `NULL`. -/
theorem kalloc_nil (h : FreeList lay s []) : kalloc s = some (0, s) := by
  have h0 := h.chain
  simp only [toPtr] at h0
  split at h0
  · simp [kalloc, *]
  · cases h0

theorem FreeList.freelist_eq (h : FreeList lay s (p :: l)) : s.freelist = p := by
  have h0 := (chain_cons.mp h.chain).1
  unfold toPtr at h0
  split at h0
  · cases h0
  · exact Option.some.inj h0

/-- `kalloc` takes the first page. -/
theorem kalloc_cons (h : FreeList lay s (p :: l)) :
    ∃ s', kalloc s = some (p, s') ∧ FreeList lay s' l ∧ ∀ a < p, s'.mem a = s.mem a := by
  obtain ⟨-, hc⟩ := chain_cons.mp h.chain
  have hp := h.page p (by simp)
  have hfl := h.freelist_eq
  refine ⟨_, by rw [kalloc, hfl, if_neg hp.ne_zero, if_pos hp.mapped], ⟨?_, ?_, ?_⟩, ?_⟩
  · refine Chain.congr hc fun a ha => ?_
    have hap : a ≠ p := fun e => (nodup_cons.mp h.nodup).1 (e ▸ ha)
    exact congrArg toPtr (memsetPage_of_ne hp.aligned (h.page a (by simp [ha])).aligned hap)
  · exact (nodup_cons.mp h.nodup).2
  · exact fun a ha => h.page a (by simp [ha])
  · exact fun a ha => memsetPage_of_lt ha

/-- `kfree` of a page that is not free puts it at the front. -/
theorem kfree_freeList (h : FreeList lay s l) (hp : IsPage lay p) (hl : p ∉ l) :
    ∃ s', kfree lay p s = some s' ∧ FreeList lay s' (p :: l) := by
  refine ⟨_, if_neg ?_, ⟨?_, ?_, ?_⟩⟩
  · have := hp.high
    have := hp.low
    have := hp.aligned
    simp only [PGSIZE] at *
    omega
  · refine chain_cons.mpr ⟨by simp [toPtr, hp.ne_zero], ?_⟩
    simp only [nextRun, Function.update_self]
    refine Chain.congr h.chain fun a ha => ?_
    have hap : a ≠ p := fun e => hl (e ▸ ha)
    rw [nextRun, Function.update_of_ne hap,
      memsetPage_of_ne hp.aligned (h.page a ha).aligned hap, nextRun]
  · exact nodup_cons.mpr ⟨hl, h.nodup⟩
  · intro a ha
    rcases mem_cons.mp ha with rfl | ha
    · exact hp
    · exact h.page a ha

/-- The pages that `freerange` frees in `n` rounds from `p` on, the last one first. -/
def pagesFrom (p : Nat) : Nat → List Nat
  | 0 => []
  | n + 1 => pagesFrom (p + PGSIZE) n ++ [p]

/-- The pages freed last come first. -/
theorem pagesFrom_add (n m : Nat) :
    pagesFrom p (n + m) = pagesFrom (p + n * PGSIZE) m ++ pagesFrom p n := by
  induction n generalizing p with
  | zero => simp [pagesFrom]
  | succ n ih =>
    have hp : p + PGSIZE + n * PGSIZE = p + (n + 1) * PGSIZE := by
      simp only [PGSIZE]
      omega
    rw [Nat.add_right_comm, pagesFrom, ih, hp, append_assoc, pagesFrom]

theorem freerangeFrom_freeList {n : Nat} (h : FreeList lay s l)
    (hp : ∀ i < n, IsPage lay (p + i * PGSIZE)) (hl : ∀ i < n, p + i * PGSIZE ∉ l) :
    ∃ s', freerangeFrom lay p n s = some s' ∧ FreeList lay s' (pagesFrom p n ++ l) := by
  induction n generalizing p s l with
  | zero => exact ⟨s, rfl, h⟩
  | succ n ih =>
    have hshift : ∀ i, p + PGSIZE + i * PGSIZE = p + (i + 1) * PGSIZE := by
      simp only [PGSIZE]
      omega
    have hp0 := hp 0 (by omega)
    have hl0 := hl 0 (by omega)
    simp only [zero_mul, add_zero] at hp0 hl0
    obtain ⟨s1, hk, h1⟩ := kfree_freeList h hp0 hl0
    have hl1 : ∀ i < n, p + PGSIZE + i * PGSIZE ∉ p :: l := by
      intro i hi hm
      rcases mem_cons.mp hm with he | hm
      · simp only [PGSIZE] at he
        omega
      · exact hl (i + 1) (by omega) (hshift i ▸ hm)
    obtain ⟨s2, hf, h2⟩ := ih h1 (fun i hi => hshift i ▸ hp (i + 1) (by omega)) hl1
    exact ⟨s2, by simp [freerangeFrom, hk, hf], by simpa [pagesFrom] using h2⟩

/-- The number of pages of the allocator. -/
def npages (lay : Layout) : Nat := (PHYSTOP - PGROUNDUP lay.kend) / PGSIZE

/-- `kinit` frees every page, the highest one is the first of the list. -/
theorem kinit_freeList (lay : Layout) (mem : Nat → Nat) : ∃ s, kinit lay mem = some s ∧
    FreeList lay s (pagesFrom (PGROUNDUP lay.kend) (npages lay)) := by
  have h0 : FreeList lay ⟨mem, 0⟩ [] := ⟨rfl, nodup_nil, by simp⟩
  have hpage : ∀ i < npages lay, IsPage lay (PGROUNDUP lay.kend + i * PGSIZE) := by
    intro i hi
    simp only [npages] at hi
    refine ⟨?_, ?_, ?_⟩ <;> simp only [PGROUNDUP, PGSIZE] at * <;> omega
  obtain ⟨s, hs, h⟩ := freerangeFrom_freeList h0 hpage (by simp)
  exact ⟨s, hs, by simpa using h⟩

theorem mem_pagesFrom {n : Nat} : q ∈ pagesFrom p n ↔ ∃ i < n, q = p + i * PGSIZE := by
  induction n generalizing p with
  | zero => simp [pagesFrom]
  | succ n ih =>
    rw [pagesFrom, mem_append, mem_singleton, ih]
    constructor
    · rintro (⟨i, hi, rfl⟩ | rfl)
      · refine ⟨i + 1, by omega, ?_⟩
        simp only [PGSIZE]
        omega
      · exact ⟨0, by omega, by simp⟩
    · rintro ⟨i, hi, rfl⟩
      cases i with
      | zero => exact .inr (by simp)
      | succ i =>
        refine .inl ⟨i, by omega, ?_⟩
        simp only [PGSIZE]
        omega

/-- `kinit` frees exactly the pages of the allocator. -/
theorem mem_pagesFrom_npages :
    p ∈ pagesFrom (PGROUNDUP lay.kend) (npages lay) ↔ IsPage lay p := by
  rw [mem_pagesFrom]
  constructor
  · rintro ⟨i, hi, rfl⟩
    simp only [npages] at hi
    refine ⟨?_, ?_, ?_⟩ <;> simp only [PGROUNDUP, PGSIZE] at * <;> omega
  · rintro ⟨ha, hlow, hhigh⟩
    refine ⟨(p - PGROUNDUP lay.kend) / PGSIZE, ?_, ?_⟩ <;>
      simp only [npages, PGROUNDUP, PGSIZE] at * <;> omega

/-! ## Runs -/

/-- The allocator and the pages that are handed out. -/
structure Pages extends Phys where
  out : List Nat

inductive PageCall where
  | kalloc
  | kfree (pa : Nat)

/-- Any sequence of calls: only pages that are handed out are freed. -/
def pages (lay : Layout) : Machine Pages PageCall where
  next s
    | .kalloc => do
      let (p, phys) ← kalloc s.toPhys
      return { toPhys := phys, out := if p = 0 then s.out else p :: s.out }
    | .kfree pa =>
      if pa ∈ s.out then do
        let phys ← kfree lay pa s.toPhys
        return { toPhys := phys, out := s.out.erase pa }
      else none

/-- `l` are the free pages: they and the pages handed out are the pages of the allocator. -/
structure Partition (lay : Layout) (s : Pages) (l : List Nat) : Prop where
  free : FreeList lay s.toPhys l
  nodup : (l ++ s.out).Nodup
  all : ∀ p, p ∈ l ++ s.out ↔ IsPage lay p

/-- What holds between calls. -/
structure PagesOk (lay : Layout) (s : Pages) : Prop where
  partition : ∃ l, Partition lay s l
  kalloc : ∃ p phys, kalloc s.toPhys = some (p, phys) ∧ (p = 0 ↔ ∀ q, IsPage lay q → q ∈ s.out)
  kfree : ∀ p ∈ s.out, kfree lay p s.toPhys ≠ none

variable {s s' : Pages} {call : PageCall}

section
variable (h : Partition lay s l)
include h

theorem Partition.kalloc : ∃ p phys,
    Mem.kalloc s.toPhys = some (p, phys) ∧ (p = 0 ↔ ∀ q, IsPage lay q → q ∈ s.out) ∧
      ∃ l', Partition lay { toPhys := phys, out := if p = 0 then s.out else p :: s.out } l' := by
  cases l with
  | nil =>
    refine ⟨0, s.toPhys, kalloc_nil h.free, ?_, [], h⟩
    simpa using fun q hq => (h.all q).mpr hq
  | cons p l =>
    have hp := h.free.page p mem_cons_self
    obtain ⟨phys, hk, hl, -⟩ := kalloc_cons h.free
    refine ⟨p, phys, hk, ⟨fun h0 => absurd h0 hp.ne_zero, fun hout => ?_⟩, l, ?_⟩
    · have hnot := (nodup_append.mp h.nodup).2.2 p mem_cons_self p (hout p hp)
      exact absurd rfl hnot
    · rw [if_neg hp.ne_zero]
      refine ⟨hl, ?_, fun q => ?_⟩
      · exact (perm_middle.nodup_iff).mpr h.nodup
      · rw [← h.all q]
        exact perm_middle.mem_iff

theorem Partition.kfree (hp : p ∈ s.out) : ∃ phys,
    Mem.kfree lay p s.toPhys = some phys ∧
      Partition lay { toPhys := phys, out := s.out.erase p } (p :: l) := by
  have hpage := (h.all p).mp (mem_append_right l hp)
  have hl : p ∉ l := fun hl => (nodup_append.mp h.nodup).2.2 p hl p hp rfl
  obtain ⟨phys, hk, hfree⟩ := kfree_freeList h.free hpage hl
  -- the page moves from the list `out` to the free list
  have hperm : (p :: l ++ s.out.erase p).Perm (l ++ s.out) :=
    perm_middle.symm.trans ((perm_cons_erase hp).symm.append_left l)
  exact ⟨phys, hk, hfree, hperm.nodup_iff.mpr h.nodup, fun q => hperm.mem_iff.trans (h.all q)⟩

theorem Partition.ok : PagesOk lay s := by
  obtain ⟨p, phys, hk, h0, -⟩ := h.kalloc
  refine ⟨⟨l, h⟩, ⟨p, phys, hk, h0⟩, fun q hq hn => ?_⟩
  obtain ⟨phys, hk, -⟩ := h.kfree hq
  rw [hk] at hn
  cases hn

theorem Partition.step (hn : (pages lay).next s call = some s') : ∃ l', Partition lay s' l' := by
  cases call with
  | kalloc =>
    obtain ⟨p, phys, hk, -, hl⟩ := h.kalloc
    simp only [pages, hk] at hn
    cases hn
    exact hl
  | kfree pa =>
    simp only [pages] at hn
    split at hn
    · next hp =>
      obtain ⟨phys, hk, hl⟩ := h.kfree hp
      simp only [hk] at hn
      cases hn
      exact ⟨_, hl⟩
    · cases hn

end

/-- After `kinit`, in any run of calls that free only pages that are handed out, the pages of the
allocator are the free ones and those handed out. -/
theorem pages_partitioned (lay : Layout) (mem : Nat → Nat) : ∃ phys, kinit lay mem = some phys ∧
    ∀ {calls : List PageCall} {s : Pages},
      (pages lay).run { toPhys := phys, out := [] } calls = some s → PagesOk lay s := by
  obtain ⟨phys, hk, hfree⟩ := kinit_freeList lay mem
  refine ⟨phys, hk, fun {calls s} hr => ?_⟩
  have h0 : ∃ l, Partition lay { toPhys := phys, out := [] } l := by
    refine ⟨_, hfree, ?_, fun p => ?_⟩
    · rw [append_nil]
      exact hfree.nodup
    · rw [append_nil]
      exact mem_pagesFrom_npages
  obtain ⟨l, hl⟩ := Machine.run_inv_all (I := fun s => ∃ l, Partition lay s l)
    (fun ⟨_, h⟩ hn => h.step hn) h0 hr
  exact hl.ok

/-- An image that leaves two pages. -/
def twoPages : Layout where
  kend := PHYSTOP - 2 * PGSIZE
  base := KERNBASE
  kernbase_le := by decide
  base_lt := by decide
  kend_le := by decide

/-- The third `kalloc` returns 0, and the page that was freed is handed out again. -/
def reuseRun : List PageCall :=
  [.kalloc, .kalloc, .kalloc, .kfree (PHYSTOP - PGSIZE), .kalloc]

theorem pages_partitioned_reuseRun : ∃ phys s, kinit twoPages (fun _ => 0) = some phys ∧
    (pages twoPages).run { toPhys := phys, out := [] } reuseRun = some s ∧
      s.out = [PHYSTOP - PGSIZE, PHYSTOP - 2 * PGSIZE] ∧ PagesOk twoPages s := by
  obtain ⟨phys, hk, hok⟩ := pages_partitioned twoPages fun _ => 0
  have h : ((kinit twoPages fun _ => 0).bind fun phys =>
      ((pages twoPages).run { toPhys := phys, out := [] } reuseRun).map Pages.out) =
        some [PHYSTOP - PGSIZE, PHYSTOP - 2 * PGSIZE] := by
    decide +kernel
  rw [hk] at h
  obtain ⟨s, hs, hout⟩ := Option.map_eq_some_iff.mp h
  exact ⟨phys, s, hk, hs, hout, hok hs⟩

end Mem
end Xv6
