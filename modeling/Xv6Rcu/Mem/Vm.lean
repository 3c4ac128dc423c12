import Xv6Rcu.Lib.Trie
import Xv6Rcu.Mem.Kalloc
import Mathlib.Data.BitVec

/-!
# Page tables

`walk`, `mappages` and `uvmunmap` of `vm.c`, with the macros of `riscv.h`, on a memory of 64-bit
words. `kmem.freelist` is the list of its pages.

- `child`, `heap`: the memory as a heap of page-table pages (`Lib.Trie`), `page p` being the address
  of the page with the number `p`.
- `PTE2PA_entry`, `PTE_FLAGS_entry`, `child_link`: an entry holds its page and its flags.
- `PX_inj`, `PX_congr`: the three indices of an address are its page.
-/

namespace Xv6.Vm

open Lib Function BitVec

/-! ## `riscv.h` -/

def PTE_V : BitVec 64 := 1
def PTE_R : BitVec 64 := 2
def PTE_W : BitVec 64 := 4
def PTE_X : BitVec 64 := 8
def PTE_U : BitVec 64 := 16

/-- `a & ~(PGSIZE - 1)`. -/
def PGROUNDDOWN (a : BitVec 64) : BitVec 64 := a &&& ~~~(BitVec.ofNat 64 PGSIZE - 1)

def PA2PTE (pa : BitVec 64) : BitVec 64 := (pa >>> 12) <<< 10

def PTE2PA (pte : BitVec 64) : BitVec 64 := (pte >>> 10) <<< 12

def PTE_FLAGS (pte : BitVec 64) : BitVec 64 := pte &&& 0x3FF

/-- The index of the level, as a number of 9 bits. -/
def PX (level : Nat) (va : BitVec 64) : BitVec 9 := (va >>> (12 + 9 * level)).setWidth 9

/-- One beyond the highest virtual address. -/
def MAXVA : BitVec 64 := 1 <<< 38

/-! ## Memory -/

/-- The words of the memory, and the free pages in order. -/
structure St where
  mem : BitVec 64 → BitVec 64
  free : List (BitVec 64)

/-- `&pagetable[i]`. -/
def slot (pagetable : BitVec 64) (i : BitVec 9) : BitVec 64 := pagetable + 8 * i.setWidth 64

/-- `memset(pa, c, PGSIZE)`; `w` is the word of bytes `c`. -/
def memset (mem : BitVec 64 → BitVec 64) (pa w : BitVec 64) : BitVec 64 → BitVec 64 :=
  fun a => if a - pa < BitVec.ofNat 64 PGSIZE then w else mem a

def kalloc (s : St) : BitVec 64 × St :=
  match s.free with
  | [] => (0, s)
  | p :: free => (p, { mem := memset s.mem p 0x0505050505050505, free })

/-- `kfree`, where the kernel ends at `kend`. -/
def kfree (kend : Nat) (pa : BitVec 64) (s : St) : Except String St :=
  if pa.toNat % PGSIZE ≠ 0 ∨ pa.toNat < kend ∨ PHYSTOP ≤ pa.toNat then .error "kfree"
  else .ok
    { mem := Function.update (memset s.mem pa 0x0101010101010101) pa (s.free.headD 0)
      free := pa :: s.free }

/-- `*p = w`. -/
def St.write (s : St) (p w : BitVec 64) : St := { s with mem := Function.update s.mem p w }

/-! ## `vm.c` -/

/-- The loop of `walk`, from `level` on. -/
def walkFrom (va : BitVec 64) (alloc : Bool) : Nat → BitVec 64 → St → BitVec 64 × St
  | 0, pagetable, s => (slot pagetable (PX 0 va), s)
  | level + 1, pagetable, s =>
    let pte := slot pagetable (PX (level + 1) va)
    if s.mem pte &&& PTE_V ≠ 0 then walkFrom va alloc level (PTE2PA (s.mem pte)) s
    else if alloc then
      let (pagetable, s) := kalloc s
      if pagetable = 0 then (0, s)
      else walkFrom va alloc level pagetable
        ({ s with mem := memset s.mem pagetable 0 }.write pte (PA2PTE pagetable ||| PTE_V))
    else (0, s)

def walk (pagetable va : BitVec 64) (alloc : Bool) (s : St) : Except String (BitVec 64 × St) :=
  if MAXVA ≤ va then .error "walk" else .ok (walkFrom va alloc 2 pagetable s)

/-- The number of pages below `MAXVA`. -/
def NPAGES : Nat := 2 ^ 26

/-- The loop of `mappages`. It stops or panics within the first `NPAGES + 1` rounds. -/
def mappagesLoop (pagetable last : BitVec 64) (perm : BitVec 32) :
    Nat → BitVec 64 → BitVec 64 → St → Except String (Int × St)
  | 0, _, _, _ => .error "out of rounds"
  | n + 1, a, pa, s =>
    match walk pagetable a true s with
    | .error msg => .error msg
    | .ok (pte, s) =>
      if pte = 0 then .ok (-1, s)
      else if s.mem pte &&& PTE_V ≠ 0 then .error "remap"
      else
        let s := s.write pte (PA2PTE pa ||| perm.signExtend 64 ||| PTE_V)
        if a = last then .ok (0, s)
        else mappagesLoop pagetable last perm n (a + BitVec.ofNat 64 PGSIZE)
          (pa + BitVec.ofNat 64 PGSIZE) s

def mappages (pagetable va size pa : BitVec 64) (perm : BitVec 32) (s : St) :
    Except String (Int × St) :=
  mappagesLoop pagetable (PGROUNDDOWN (va + size - 1)) perm (NPAGES + 1) (PGROUNDDOWN va) pa s

/-- The loop of `uvmunmap`, up to the address `stop`. -/
def uvmunmapLoop (kend : Nat) (pagetable stop : BitVec 64) (doFree : Bool) :
    Nat → BitVec 64 → St → Except String St
  | 0, _, _ => .error "out of rounds"
  | n + 1, a, s =>
    if a < stop then
      match walk pagetable a false s with
      | .error msg => .error msg
      | .ok (pte, s) =>
        if pte = 0 then .error "uvmunmap: walk"
        else if s.mem pte &&& PTE_V = 0 then .error "uvmunmap: not mapped"
        else if PTE_FLAGS (s.mem pte) = PTE_V then .error "uvmunmap: not a leaf"
        else
          match if doFree then kfree kend (PTE2PA (s.mem pte)) s else .ok s with
          | .error msg => .error msg
          | .ok s => uvmunmapLoop kend pagetable stop doFree n (a + BitVec.ofNat 64 PGSIZE)
              (s.write pte 0)
    else .ok s

def uvmunmap (kend : Nat) (pagetable va npages : BitVec 64) (doFree : Bool) (s : St) :
    Except String St :=
  if va.toNat % PGSIZE ≠ 0 then .error "uvmunmap: not aligned"
  else uvmunmapLoop kend pagetable (va + npages * BitVec.ofNat 64 PGSIZE) doFree (NPAGES + 1) va s

/-! ## Pages and entries -/

/-- The address of the page with the number `n`. -/
def page (n : BitVec 52) : BitVec 64 := n.setWidth 64 <<< 12

/-- The page that an entry points to. -/
def child (pte : BitVec 64) : Option (BitVec 52) :=
  if pte &&& PTE_V ≠ 0 then some ((pte >>> 10).setWidth 52) else none

/-- The number of the page that has the address. -/
def pageNo (v : BitVec 64) : Nat := v.toNat / PGSIZE

/-- The entries of the pages. -/
def heap (mem : BitVec 64 → BitVec 64) (p : BitVec 52) (i : BitVec 9) : BitVec 64 :=
  mem (slot (page p) i)

theorem page_toNat (p : BitVec 52) : (page p).toNat = p.toNat * 4096 := by
  simp only [page, toNat_shiftLeft, toNat_setWidth]
  omega

theorem slot_toNat (p : BitVec 52) (i : BitVec 9) :
    (slot (page p) i).toNat = p.toNat * 4096 + 8 * i.toNat := by
  simp only [slot, toNat_add, page_toNat]
  simp
  omega

variable {p q : BitVec 52} {fl pa : BitVec 64} {i : BitVec 9}

theorem page_inj (h : page p = page q) : p = q := by
  have hn := congrArg BitVec.toNat h
  rw [page_toNat, page_toNat] at hn
  exact BitVec.eq_of_toNat_eq (by omega)

/-- Different slots have different addresses. -/
theorem slot_inj {j : BitVec 9} (h : slot (page p) i = slot (page q) j) : p = q ∧ i = j := by
  have hn := congrArg BitVec.toNat h
  rw [slot_toNat, slot_toNat] at hn
  exact ⟨BitVec.eq_of_toNat_eq (by omega), BitVec.eq_of_toNat_eq (by omega)⟩

theorem slot_ne_zero (h : p ≠ 0) : slot (page p) i ≠ 0 := by
  intro hz
  have hn := congrArg BitVec.toNat hz
  rw [slot_toNat] at hn
  refine h (BitVec.eq_of_toNat_eq ?_)
  simp only [BitVec.ofNat_eq_ofNat, BitVec.toNat_ofNat] at hn ⊢
  omega

theorem heap_write {s : St} {e : BitVec 64} :
    heap (s.write (slot (page p) i) e).mem = Trie.set (heap s.mem) p i e := by
  funext q j
  by_cases hqj : q = p ∧ j = i
  · obtain ⟨rfl, rfl⟩ := hqj
    simp [heap, St.write, Trie.set_self]
  · rw [Trie.set_of_ne fun hq hj => hqj ⟨hq, hj⟩]
    have hne : slot (page q) j ≠ slot (page p) i := fun h => hqj (slot_inj h)
    simp [heap, St.write, update_of_ne hne]

/-- The words of the page `q`. -/
theorem slot_in_page : slot (page p) i - page q < BitVec.ofNat 64 PGSIZE ↔ p = q := by
  rw [lt_def, toNat_sub, slot_toNat, page_toNat, ← toNat_inj]
  simp only [PGSIZE, toNat_ofNat]
  omega

theorem heap_memset {mem : BitVec 64 → BitVec 64} {w : BitVec 64} :
    heap (memset mem (page q) w) = update (heap mem) q fun _ => w := by
  funext p i
  unfold heap memset
  by_cases hpq : p = q
  · rw [if_pos (slot_in_page.mpr hpq), hpq, update_self]
  · rw [if_neg fun h => hpq (slot_in_page.mp h), update_of_ne hpq]

/-! ## Bits -/

theorem valid_iff {e : BitVec 64} : e &&& PTE_V ≠ 0 ↔ e.toNat % 2 = 1 := by
  rw [Ne, ← toNat_inj, toNat_and, show PTE_V.toNat = 1 from rfl, Nat.and_one_is_mod]
  simp only [ofNat_eq_ofNat, toNat_ofNat]
  omega

theorem page_child (e : BitVec 64) : page ((e >>> 10).setWidth 52) = PTE2PA e := by
  refine eq_of_toNat_eq ?_
  rw [page_toNat]
  simp only [PTE2PA, toNat_setWidth, toNat_shiftLeft]
  omega

theorem PA2PTE_toNat (pa : BitVec 64) : (PA2PTE pa).toNat = pa.toNat / 4096 * 1024 := by
  simp only [PA2PTE, toNat_shiftLeft, toNat_ushiftRight]
  omega

/-- The flags do not meet the page number. -/
theorem entry_toNat (hf : fl.toNat < 1024) :
    (PA2PTE pa ||| fl).toNat = pa.toNat / 4096 * 1024 + fl.toNat := by
  rw [toNat_or, PA2PTE_toNat, mul_comm, ← Nat.two_pow_add_eq_or_of_lt (i := 10) hf]

theorem PGROUNDDOWN_toNat (a : BitVec 64) : (PGROUNDDOWN a).toNat = a.toNat / 4096 * 4096 := by
  have h : PGROUNDDOWN a = a >>> 12 <<< 12 := by
    rw [BitVec.shiftLeft_ushiftRight]
    rfl
  rw [h]
  simp only [BitVec.toNat_shiftLeft, BitVec.toNat_ushiftRight]
  omega

theorem PTE2PA_entry (hf : fl.toNat < 1024) : PTE2PA (PA2PTE pa ||| fl) = PGROUNDDOWN pa := by
  refine eq_of_toNat_eq ?_
  rw [PGROUNDDOWN_toNat, PTE2PA, toNat_shiftLeft, toNat_ushiftRight, entry_toNat hf]
  omega

theorem PTE_FLAGS_toNat (e : BitVec 64) : (PTE_FLAGS e).toNat = e.toNat % 1024 :=
  Nat.and_two_pow_sub_one_eq_mod e.toNat 10

theorem PTE_FLAGS_entry (hf : fl.toNat < 1024) : PTE_FLAGS (PA2PTE pa ||| fl) = fl := by
  refine eq_of_toNat_eq ?_
  rw [PTE_FLAGS_toNat, entry_toNat hf]
  omega

theorem child_link (q : BitVec 52) : child (PA2PTE (page q) ||| PTE_V) = some q := by
  have hv : (PA2PTE (page q) ||| PTE_V).toNat = _ := entry_toNat (by decide)
  unfold child
  rw [if_pos (valid_iff.mpr ?_)]
  · refine congrArg some (page_inj ?_)
    rw [page_child, PTE2PA_entry (by decide)]
    refine eq_of_toNat_eq ?_
    rw [PGROUNDDOWN_toNat, page_toNat]
    omega
  · rw [hv, show PTE_V.toNat = 1 from rfl]
    omega

theorem PX_toNat (level : Nat) (a : BitVec 64) :
    (PX level a).toNat = a.toNat / 2 ^ (12 + 9 * level) % 512 := by
  rw [PX, toNat_setWidth, toNat_ushiftRight, Nat.shiftRight_eq_div_pow]

/-- The three indices give the page. -/
theorem PX_inj {a b : BitVec 64} (ha : a < MAXVA) (hb : b < MAXVA)
    (h : ∀ level ≤ 2, PX level a = PX level b) : pageNo a = pageNo b := by
  have h0 := congrArg BitVec.toNat (h 0 (by decide))
  have h1 := congrArg BitVec.toNat (h 1 (by decide))
  have h2 := congrArg BitVec.toNat (h 2 (by decide))
  have ha' : a.toNat < 2 ^ 38 := ha
  have hb' : b.toNat < 2 ^ 38 := hb
  rw [PX_toNat, PX_toNat] at h0 h1 h2
  simp only [pageNo, PGSIZE]
  omega

theorem PX_congr {a b : BitVec 64} (h : pageNo a = pageNo b) (level : Nat) :
    PX level a = PX level b := by
  refine eq_of_toNat_eq ?_
  simp only [pageNo, PGSIZE] at h
  rw [PX_toNat, PX_toNat, Nat.pow_add, ← Nat.div_div_eq_div_mul, ← Nat.div_div_eq_div_mul, h]

end Xv6.Vm
