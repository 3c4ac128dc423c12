import Xv6Rcu.Lib.Triple
import Xv6Rcu.Mem.Space
import Mathlib.Data.List.GetD

/-!
# Pages are added to an address space

`uvmalloc` and `uvmcopy` add pages to an address space, from one virtual page on, and take them back
when the memory is exhausted.

- `Batch`: the address space and the free pages at the beginning, and what is added.
- `Added X held N es s`: the entries `es` were added. The pages that are no longer free are those of
  `es`, the new page-table pages `N`, and the ones that are `held` in between.
- `Undone X N k s`: the `k` entries that were added are cleared, and only `N` is no longer free.
- `uvmallocLoop_added`, `uvmalloc_added`: `uvmalloc` ends in one or the other.
-/

namespace Xv6.Vm

open Lib Trie Function List
open BitVec (lt_def ofNat toNat_ofNat toNat_sub)

/-! ## The size of the user memory -/

variable {a : BitVec 64} {n : Nat}

/-- The address of a page of the user memory. -/
theorem uaddr_toNat_le (hn : n ≤ NPAGES) : (ofNat 64 (n * PGSIZE)).toNat = n * PGSIZE := by
  simp only [NPAGES, PGSIZE, toNat_ofNat] at *
  omega

theorem uaddr_toNat (hn : n < NPAGES) :
    (ofNat 64 (n * PGSIZE)).toNat = n * PGSIZE := uaddr_toNat_le hn.le

theorem uaddr_lt (hn : n < NPAGES) : ofNat 64 (n * PGSIZE) < MAXVA := by
  have hM : MAXVA.toNat = 2 ^ 38 := rfl
  rw [lt_def, uaddr_toNat hn]
  simp only [NPAGES, PGSIZE] at *
  omega

theorem vpn_uaddr (hn : n < NPAGES) : vpn (ofNat 64 (n * PGSIZE)) = n := by
  rw [vpn, uaddr_toNat hn]
  simp only [NPAGES, PGSIZE] at *
  omega

theorem uaddr_succ (n : Nat) : ofNat 64 (n * PGSIZE) + ofNat 64 PGSIZE =
    ofNat 64 ((n + 1) * PGSIZE) := by
  rw [add_mul, one_mul, BitVec.ofNat_add]

theorem uaddr_div (hn : n ≤ NPAGES) :
    (ofNat 64 (n * PGSIZE) / ofNat 64 PGSIZE).toNat = n := by
  rw [BitVec.toNat_udiv, uaddr_toNat_le hn]
  exact Nat.mul_div_cancel _ (by decide)

/-- The number of pages of a size. -/
def npages (sz : BitVec 64) : Nat := (sz.toNat + (PGSIZE - 1)) / PGSIZE

theorem npages_zero : npages 0 = 0 := by decide

theorem npages_mono {b : BitVec 64} (h : a ≤ b) : npages a ≤ npages b :=
  Nat.div_le_div_right (Nat.add_le_add_right h _)

theorem npages_uaddr (hn : n < NPAGES) : npages (ofNat 64 (n * PGSIZE)) = n := by
  rw [npages, uaddr_toNat hn]
  simp only [PGSIZE]
  omega

theorem uaddr_lt_iff_le (hn : n ≤ NPAGES) : ofNat 64 (n * PGSIZE) < a ↔ n < npages a := by
  rw [lt_def, uaddr_toNat_le hn, npages]
  simp only [PGSIZE]
  omega

theorem uaddr_lt_iff (hn : n < NPAGES) :
    ofNat 64 (n * PGSIZE) < a ↔ n < npages a := uaddr_lt_iff_le hn.le

theorem PGROUNDUP_eq (h : npages a < NPAGES) :
    PGROUNDUP a = ofNat 64 (npages a * PGSIZE) := by
  refine BitVec.eq_of_toNat_eq ((PGROUNDDOWN_toNat _).trans ?_)
  rw [toNat_sub, BitVec.toNat_add]
  have := h
  simp only [npages, PGSIZE, toNat_ofNat, BitVec.ofNat_eq_ofNat] at this ⊢
  omega

/-- The `int` of `uvmdealloc`. -/
theorem npages_int {m k : Nat} (hm : m ≤ k) (hk : k ≤ NPAGES) :
    (((((ofNat 64 (k * PGSIZE) - ofNat 64 (m * PGSIZE)) /
      ofNat 64 PGSIZE).setWidth 32).signExtend 64 : BitVec 64)).toNat = k - m := by
  have hN : NPAGES = 2 ^ 26 := rfl
  have hdiv : ((ofNat 64 (k * PGSIZE) - ofNat 64 (m * PGSIZE)) /
      ofNat 64 PGSIZE).toNat = k - m := by
    rw [BitVec.toNat_udiv, toNat_sub]
    simp only [PGSIZE, toNat_ofNat, Nat.reducePow, Nat.reduceMod]
    omega
  have hset : (((ofNat 64 (k * PGSIZE) - ofNat 64 (m * PGSIZE)) /
      ofNat 64 PGSIZE).setWidth 32).toNat = k - m := by
    rw [BitVec.toNat_setWidth]
    omega
  rw [BitVec.signExtend_eq_setWidth_of_msb_false, BitVec.toNat_setWidth]
  · omega
  · rw [BitVec.msb_eq_false_iff_two_mul_lt]
    omega

/-! ## Entries -/

/-- The flags of a leaf. -/
def LeafFlags (fl : BitVec 64) : Prop := fl.toNat < 1024 ∧ fl &&& PTE_V ≠ 0 ∧ fl ≠ PTE_V

instance (fl : BitVec 64) : Decidable (LeafFlags fl) := inferInstanceAs (Decidable (_ ∧ _ ∧ _))

theorem isLeaf_entry {pa fl : BitVec 64} (hf : LeafFlags fl) : IsLeaf (PA2PTE pa ||| fl) := by
  obtain ⟨hlt, hv, hne⟩ := hf
  constructor
  · rw [valid_iff] at hv ⊢
    rw [entry_toNat hlt]
    omega
  · rwa [PTE_FLAGS_entry hlt]

theorem PTE2PA_page {q : BitVec 52} {fl : BitVec 64} (hf : fl.toNat < 1024) :
    PTE2PA (PA2PTE (page q) ||| fl) = page q := by
  refine (PTE2PA_entry hf).trans (BitVec.eq_of_toNat_eq ?_)
  rw [PGROUNDDOWN_toNat, page_toNat]
  omega

theorem InRam.ne_zero {kend : Nat} {q : BitVec 52} (hq : InRam kend q) (hk : 0 < kend) : q ≠ 0 := by
  rintro rfl
  exact absurd hq.1 (not_le.mpr hk)

section
variable {M : Nat → BitVec 64} {n k j : Nat} {es : List (BitVec 64)} {e : BitVec 64}

/-- The entries `es` from the virtual page `n` on, and those of `M` elsewhere. -/
def extended (M : Nat → BitVec 64) (n : Nat) (es : List (BitVec 64)) (j : Nat) : BitVec 64 :=
  if n ≤ j ∧ j < n + es.length then es.getD (j - n) 0 else M j

theorem extended_nil : extended M n [] = M := by
  funext j
  exact if_neg fun h => absurd h.1 (not_le.mpr h.2)

theorem extended_add (hk : k < es.length) : extended M n es (n + k) = es[k] := by
  rw [extended, if_pos (by omega), Nat.add_sub_cancel_left, getD_eq_getElem _ _ hk]

theorem extended_other (hj : j < n ∨ n + es.length ≤ j) : extended M n es j = M j :=
  if_neg (by omega)

theorem extended_push :
    extended M n (es ++ [e]) = update (extended M n es) (n + es.length) e := by
  have hlen : (es ++ [e]).length = es.length + 1 := length_append
  funext j
  by_cases hj : j = n + es.length
  · rw [hj, extended_add (by omega)]
    simp
  · rw [update_of_ne hj]
    refine ite_congr (propext (by omega)) (fun h => ?_) fun _ => rfl
    exact getD_append _ _ _ _ (by omega)

theorem cleared_zero : cleared M n 0 = M := by
  funext j
  exact if_neg fun h => absurd h.1 (not_le.mpr h.2)

theorem cleared_extended : cleared (extended M n es) n es.length = cleared M n es.length := by
  funext j
  refine ite_congr rfl (fun _ => rfl) fun h => ?_
  exact extended_other (by omega)

/-- The pages that `uvmunmap` gives back. -/
theorem freed_eq (h : ∀ k (hk : k < es.length), M (n + k) = es[k]) :
    freed M n es.length = (es.map PTE2PA).reverse := by
  induction es generalizing n with
  | nil => rfl
  | cons e es ih =>
    have h0 : M n = e := h 0 (Nat.zero_lt_succ _)
    have ih' := ih fun k hk => by
      have := h (k + 1) (Nat.succ_lt_succ hk)
      rwa [← add_assoc, add_right_comm] at this
    rw [length_cons, freed, ih', h0, map_cons, reverse_cons]

end

/-! ## A batch of pages -/

/-- From the virtual page `first` on, pages with the contents `data 0`, `data 1`, … are added to the
address space `map`. -/
structure Batch where
  kend : Nat
  start : St
  root : BitVec 52
  tables : List (BitVec 52)
  map : Nat → BitVec 64
  first : Nat
  data : Nat → BitVec 9 → BitVec 64
  flags : Nat → BitVec 64

/-- The free pages are pages of the memory, and no page-table pages. -/
structure Supply (kend : Nat) (T : List (BitVec 52)) (s : St) : Prop where
  kend_pos : 0 < kend
  nodup : s.free.Nodup
  page : ∀ p ∈ s.free, ∃ q, p = page q ∧ InRam kend q ∧ q ∉ T

structure Batch.Ready (X : Batch) : Prop where
  space : Space X.start X.root X.tables X.map
  supply : Supply X.kend X.tables X.start

/-- The entries `es` were added, with the page-table pages `N`. -/
structure Added (X : Batch) (held : List (BitVec 64)) (N : List (BitVec 52))
    (es : List (BitVec 64)) (s : St) : Prop where
  space : Space s X.root (N ++ X.tables) (extended X.map X.first es)
  leaf : ∀ e ∈ es, IsLeaf e
  pages : X.start.free.Perm (s.free ++ held ++ N.map page ++ es.map PTE2PA)
  frame : ∀ x ∉ X.tables, page x ∉ X.start.free → heap s.mem x = heap X.start.mem x
  data : ∀ k (hk : k < es.length), heap s.mem (ppn es[k]) = X.data k ∧ PTE_FLAGS es[k] = X.flags k

/-- The `k` entries that were added are cleared again. -/
structure Undone (X : Batch) (N : List (BitVec 52)) (k : Nat) (s : St) : Prop where
  few : k ≤ X.start.free.length
  space : Space s X.root (N ++ X.tables) (cleared X.map X.first k)
  pages : X.start.free.Perm (s.free ++ N.map page)
  frame : ∀ x ∉ X.tables, page x ∉ X.start.free → heap s.mem x = heap X.start.mem x

namespace Added

variable {X : Batch} {held : List (BitVec 64)} {N : List (BitVec 52)} {es : List (BitVec 64)}
  {s s' : St} {q : BitVec 52} {e : BitVec 64} {n : Nat}

section
variable (hX : X.Ready) {p : BitVec 64}
include hX

theorem start : Added X [] [] [] X.start where
  space := by
    rw [extended_nil]
    exact hX.space
  leaf := fun e he => absurd he not_mem_nil
  pages := by simp
  frame := fun _ _ _ => rfl
  data := fun k hk => absurd hk (Nat.not_lt_zero k)

theorem nodup (h : Added X held N es s) :
    (s.free ++ held ++ N.map page ++ es.map PTE2PA).Nodup := h.pages.nodup hX.supply.nodup

omit hX in
theorem mem_start (h : Added X held N es s) : p ∈ X.start.free ↔
    ((p ∈ s.free ∨ p ∈ held) ∨ p ∈ N.map page) ∨ p ∈ es.map PTE2PA := by
  rw [h.pages.mem_iff]
  simp only [mem_append]

/-- A page that was free at the beginning, and is not in `N`, is no page-table page. -/
theorem not_table (hq : page q ∈ X.start.free) (hN : page q ∉ N.map page) : q ∉ N ++ X.tables := by
  obtain ⟨q', hqq, -, hq'⟩ := hX.supply.page _ hq
  rw [mem_append, not_or]
  exact ⟨fun hm => hN (mem_map_of_mem hm), page_inj hqq ▸ hq'⟩

theorem free_not_new (h : Added X held N es s) (hp : p ∈ s.free) :
    p ∉ held ∧ p ∉ N.map page ∧ p ∉ es.map PTE2PA := by
  have hn := h.nodup hX
  rw [append_assoc, append_assoc] at hn
  have hdisj := (nodup_append.mp hn).2.2 p hp
  refine ⟨fun hm => hdisj p ?_ rfl, fun hm => hdisj p ?_ rfl, fun hm => hdisj p ?_ rfl⟩ <;>
    simp only [mem_append, hm, true_or, or_true]

theorem held_not_new (h : Added X held N es s) (hp : p ∈ held) :
    p ∉ s.free ∧ p ∉ N.map page ∧ p ∉ es.map PTE2PA := by
  have hn := h.nodup hX
  rw [append_assoc, nodup_append] at hn
  refine ⟨fun hm => ?_, fun hm => ?_, fun hm => ?_⟩
  · exact (nodup_append.mp hn.1).2.2 p hm p hp rfl
  · exact hn.2.2 p (mem_append_right _ hp) p (mem_append_left _ hm) rfl
  · exact hn.2.2 p (mem_append_right _ hp) p (mem_append_right _ hm) rfl

theorem freePages (h : Added X held N es s) : FreePages (N ++ X.tables) s := by
  have hn := h.nodup hX
  rw [append_assoc, append_assoc] at hn
  refine ⟨(nodup_append.mp hn).1, fun p hp => ?_⟩
  have hp0 : p ∈ X.start.free := h.mem_start.mpr (.inl (.inl (.inl hp)))
  obtain ⟨q, rfl, hram, -⟩ := hX.supply.page p hp0
  exact ⟨q, rfl, hram.ne_zero hX.supply.kend_pos,
    not_table hX hp0 (h.free_not_new hX hp).2.1⟩

/-- The page of an entry that was added. -/
theorem entry_page (h : Added X held N es s) (he : e ∈ es) :
    ppn e ∉ N ++ X.tables ∧ InRam X.kend (ppn e) ∧ page (ppn e) ∉ s.free ∧
      page (ppn e) ∉ held := by
  have hmem : page (ppn e) ∈ es.map PTE2PA := by
    rw [page_ppn]
    exact mem_map_of_mem he
  have hp0 := h.mem_start.mpr (.inr hmem)
  obtain ⟨q, hq, hram, -⟩ := hX.supply.page _ hp0
  refine ⟨not_table hX hp0 fun hm => ?_, page_inj hq ▸ hram,
    fun hm => (h.free_not_new hX hm).2.2 hmem, fun hm => (h.held_not_new hX hm).2.2 hmem⟩
  exact (nodup_append.mp (h.nodup hX)).2.2 _ (mem_append_right _ hm) _ hmem rfl

theorem held_page (h : Added X [page q] N es s) :
    q ∉ N ++ X.tables ∧ InRam X.kend q ∧ page q ∉ s.free ∧ page q ∈ X.start.free := by
  have hmem : page q ∈ [page q] := mem_singleton_self _
  have hp0 := h.mem_start.mpr (.inl (.inl (.inr hmem)))
  obtain ⟨q', hq, hram, -⟩ := hX.supply.page _ hp0
  exact ⟨not_table hX hp0 (h.held_not_new hX hmem).2.1, page_inj hq ▸ hram,
    (h.held_not_new hX hmem).1, hp0⟩

omit hX in
theorem length_le (h : Added X held N es s) :
    s.free.length + held.length + N.length + es.length = X.start.free.length := by
  rw [h.pages.length_eq]
  simp only [length_append, length_map]

/-- A change of the page that is held. -/
theorem fill (h : Added X [page q] N es s) (hfree : s'.free = s.free)
    (hmem : ∀ x ≠ q, heap s'.mem x = heap s.mem x) : Added X [page q] N es s' := by
  obtain ⟨hq, -, -, hq0⟩ := h.held_page hX
  refine ⟨h.space.congr fun x hx => hmem x fun e => hq (e ▸ hx), h.leaf, hfree ▸ h.pages,
    fun x hx hx0 => ?_, fun k hk => ?_⟩
  · rw [hmem x fun e => hx0 (by rw [e]; exact hq0), h.frame x hx hx0]
  · obtain ⟨-, -, -, hne⟩ := h.entry_page hX (getElem_mem hk)
    rw [hmem _ fun e => hne (by rw [e]; exact mem_singleton_self _)]
    exact h.data k hk

/-- `kalloc` takes a page. -/
theorem kalloc (h : Added X [] N es s) :
    s.free = [] ∧ Vm.kalloc s = (0, s) ∨
      ∃ q s', Vm.kalloc s = (page q, s') ∧ page q ≠ 0 ∧ Added X [page q] N es s' := by
  cases hl : s.free with
  | nil => exact .inl ⟨rfl, by simp [Vm.kalloc, hl]⟩
  | cons p l =>
    have hp : p ∈ s.free := by
      rw [hl]
      exact mem_cons_self
    obtain ⟨q, rfl, hq0, -⟩ := (h.freePages hX).page p hp
    -- the page is held as it is, and then filled
    have hheld : Added X [page q] N es { s with free := l } := by
      refine ⟨h.space.congr fun _ _ => rfl, h.leaf, h.pages.trans ?_, h.frame, h.data⟩
      rw [hl]
      simp only [append_assoc]
      exact perm_middle.symm
    refine .inr ⟨q, ⟨memset s.mem (page q) 0x0505050505050505, l⟩, by simp [Vm.kalloc, hl],
      fun hz => hq0 (page_inj (hz.trans rfl)), hheld.fill hX rfl fun x hx => ?_⟩
    rw [heap_memset, update_of_ne hx]

/-- `kfree` of the page that is held. -/
theorem kfree (h : Added X [page q] N es s) :
    ∃ s', Vm.kfree X.kend (page q) s = .ok s' ∧ Added X [] N es s' := by
  obtain ⟨-, hram, -⟩ := h.held_page hX
  obtain ⟨s', hk, hfr, hheap⟩ := kfree_page hram
  have h' : Added X [page q] N es { s' with free := s.free } := h.fill hX rfl hheap
  refine ⟨s', hk, h'.space.congr fun _ _ => rfl, h'.leaf, h'.pages.trans ?_, h'.frame, h'.data⟩
  rw [hfr]
  simp only [append_assoc]
  exact perm_middle

omit hX in
/-- `mappages` of the page that is held. -/
theorem map (perm : BitVec 32) (hX : X.Ready) (h : Added X [page q] N es s)
    (hdata : heap s.mem q = X.data es.length)
    (hperm : perm.signExtend 64 ||| PTE_V = X.flags es.length)
    (hleaf : LeafFlags (X.flags es.length)) (hn : X.first + es.length < NPAGES)
    (hno : X.map (X.first + es.length) &&& PTE_V = 0) :
    ∃ N' r s', mappages (page X.root) (ofNat 64 ((X.first + es.length) * PGSIZE))
        (ofNat 64 PGSIZE) (page q) perm s = .ok (r, s') ∧ N'.length ≤ N.length + 2 ∧
      (r = 0 ∧ Added X [] N' (es ++ [PA2PTE (page q) ||| X.flags es.length]) s' ∨
        r = -1 ∧ s'.free = [] ∧ Added X [page q] N' es s') := by
  obtain ⟨hq, -, hqfree, hq0⟩ := h.held_page hX
  have hfl := hleaf.1
  have hentry : extended X.map X.first es (X.first + es.length) = X.map (X.first + es.length) :=
    extended_other (.inr le_rfl)
  obtain ⟨new, r, s', hr, hnew, htook, hend⟩ := mapPage (uaddr_lt hn)
    (by rw [uaddr_toNat hn, Nat.mul_mod_left]) h.space (h.freePages hX)
    (by rwa [vpn_uaddr hn, hentry]) (page q) perm
  rw [vpn_uaddr hn, BitVec.or_assoc, hperm, ← extended_push, ← append_assoc] at hend
  -- what is no page-table page and was not free is as before
  have hkeep : ∀ x ∉ N ++ X.tables, page x ∉ s.free → heap s'.mem x = heap s.mem x := htook.frame
  have hframe : ∀ x ∉ X.tables, page x ∉ X.start.free → heap s'.mem x = heap X.start.mem x := by
    intro x hx hx0
    rw [hkeep x, h.frame x hx hx0]
    · rw [mem_append, not_or]
      exact ⟨fun hm => hx0 (h.mem_start.mpr (.inl (.inr (mem_map_of_mem hm)))), hx⟩
    · exact fun hm => hx0 (h.mem_start.mpr (.inl (.inl (.inl hm))))
  have hold : ∀ k (hk : k < es.length),
      heap s'.mem (ppn es[k]) = X.data k ∧ PTE_FLAGS es[k] = X.flags k := by
    intro k hk
    obtain ⟨ht, -, hf, -⟩ := h.entry_page hX (getElem_mem hk)
    rw [hkeep _ ht hf]
    exact h.data k hk
  have hpages : X.start.free.Perm
      (s'.free ++ [page q] ++ (new ++ N).map page ++ es.map PTE2PA) := by
    refine h.pages.trans (Perm.append_right _ ?_)
    rw [htook.free, map_append]
    simp only [append_assoc]
    refine perm_append_comm_assoc _ _ _ |>.trans (Perm.append_left _ ?_)
    exact perm_append_comm_assoc _ _ _
  refine ⟨new ++ N, r, s', hr, by rw [length_append]; omega, ?_⟩
  rcases hend with ⟨rfl, hsp⟩ | ⟨rfl, hnil, hsp⟩
  · refine .inl ⟨rfl, hsp, fun e he => ?_, hpages.trans ?_, hframe, fun k hk => ?_⟩
    · rcases mem_append.mp he with he | he
      · exact h.leaf e he
      · rw [mem_singleton.mp he]
        exact isLeaf_entry hleaf
    · simp only [map_append, map_cons, PTE2PA_page hfl, append_assoc]
      refine Perm.append_left _ (perm_append_comm.trans ?_)
      simp only [append_assoc]
      exact Perm.refl _
    · rw [length_append, length_singleton] at hk
      by_cases hkl : k < es.length
      · rw [getElem_append_left hkl]
        exact hold k hkl
      · obtain rfl : k = es.length := by omega
        have hppn : ppn (PA2PTE (page q) ||| X.flags es.length) = q :=
          page_inj ((page_ppn _).trans (PTE2PA_page hfl))
        rw [getElem_append_right le_rfl]
        simp only [Nat.sub_self, getElem_cons_zero]
        rw [hppn, hkeep q hq hqfree]
        exact ⟨hdata, PTE_FLAGS_entry hfl⟩
  · exact .inr ⟨rfl, hnil, hsp, h.leaf, hpages, hframe, hold⟩

/-- `uvmunmap` of the pages that were added. -/
theorem unmap (h : Added X [] N es s) (hn : X.first + es.length ≤ NPAGES) (hpos : X.first < NPAGES)
    {npages : BitVec 64} (hk : npages.toNat = es.length) :
    ∃ s', uvmunmap X.kend (page X.root) (ofNat 64 (X.first * PGSIZE)) npages true s =
        .ok s' ∧ Undone X N es.length s' := by
  have hentry : ∀ j, X.first ≤ j → j < X.first + es.length →
      ∃ e ∈ es, extended X.map X.first es j = e := fun j h1 h2 => by
    have hj : j - X.first < es.length := by omega
    refine ⟨_, getElem_mem hj, ?_⟩
    rw [← extended_add hj, Nat.add_sub_cancel' h1]
  obtain ⟨s', hs', hsp, hfr, hframe⟩ := uvmunmap_space X.kend true h.space hk
    (by rw [uaddr_toNat hpos, Nat.mul_mod_left])
    (by
      rw [uaddr_toNat hpos, ← add_mul]
      simp only [NPAGES, PGSIZE] at *
      omega)
    (fun j h1 h2 => by
      rw [vpn_uaddr hpos] at h1 h2
      obtain ⟨e, he, heq⟩ := hentry j h1 h2
      exact heq ▸ h.leaf e he)
    (fun _ j h1 h2 => by
      rw [vpn_uaddr hpos] at h1 h2
      obtain ⟨e, he, heq⟩ := hentry j h1 h2
      obtain ⟨ht, hram, -⟩ := h.entry_page hX he
      exact heq ▸ ⟨ht, hram⟩)
  rw [vpn_uaddr hpos] at hsp hfr hframe
  rw [cleared_extended] at hsp
  rw [freed_eq fun k hk => extended_add hk] at hfr
  refine ⟨s', hs', by have := h.length_le; omega, hsp, ?_, fun x hx hx0 => ?_⟩
  · refine h.pages.trans ?_
    rw [hfr]
    simp only [append_nil, append_assoc]
    rw [← append_assoc]
    refine perm_append_comm.trans (Perm.append ?_ (Perm.refl _))
    exact (reverse_perm _).symm
  · have hx' : x ∉ N ++ X.tables := by
      rw [mem_append, not_or]
      exact ⟨fun hm => hx0 (h.mem_start.mpr (.inl (.inr (mem_map_of_mem hm)))), hx⟩
    rw [hframe x hx' fun _ j h1 h2 hxj => hx0 ?_, h.frame x hx hx0]
    obtain ⟨e, he, heq⟩ := hentry j h1 h2
    rw [hxj, heq, page_ppn]
    exact h.mem_start.mpr (.inr (mem_map_of_mem he))

end

theorem undone (h : Added X [] N [] s) : Undone X N 0 s := by
  have hsp := h.space
  rw [extended_nil] at hsp
  refine ⟨Nat.zero_le _, ?_, h.pages.trans ?_, h.frame⟩
  · rw [cleared_zero]
    exact hsp
  · simp

/-- `uvmdealloc` to the size before. -/
theorem dealloc (oldsz newsz : BitVec 64) (hX : X.Ready) (h : Added X [] N es s)
    (hold : npages oldsz = X.first + es.length) (hnew : npages newsz = X.first)
    (hle : newsz ≤ oldsz) (hn : npages oldsz < NPAGES) :
    ∃ s', uvmdealloc X.kend (page X.root) oldsz newsz s = .ok (newsz, s') ∧
      Undone X N es.length s' := by
  have hpos : X.first < NPAGES := by omega
  rw [uvmdealloc, PGROUNDUP_eq hn, PGROUNDUP_eq (hnew ▸ hpos), hold, hnew]
  have hint := npages_int (Nat.le_add_right X.first es.length) (hold ▸ hn.le)
  rw [Nat.add_sub_cancel_left] at hint
  obtain ⟨s', hs', hu⟩ := h.unmap hX (hold ▸ hn.le) hpos hint
  have hiff : ofNat 64 (X.first * PGSIZE) <
      ofNat 64 ((X.first + es.length) * PGSIZE) ↔ 0 < es.length := by
    rw [uaddr_lt_iff hpos, npages_uaddr (hold ▸ hn)]
    omega
  by_cases hlt : 0 < es.length
  · have hne : ¬ oldsz ≤ newsz := fun hc => by
      have := npages_mono hc
      omega
    rw [if_neg hne, if_pos (hiff.mpr hlt)]
    exact ⟨s', except_bind_of_ok hs', hu⟩
  · obtain rfl : es = [] := eq_nil_of_length_eq_zero (Nat.eq_zero_of_not_pos hlt)
    refine ⟨s, ?_, h.undone⟩
    rw [if_neg fun hc => hlt (hiff.mp hc)]
    by_cases hge : oldsz ≤ newsz
    · rw [if_pos hge, BitVec.le_antisymm hge hle]
      rfl
    · rw [if_neg hge]
      rfl

end Added

/-! ## `uvmalloc` -/

/-- The flags of user memory. -/
def USER_FLAGS : BitVec 64 := PTE_USER.signExtend 64 ||| PTE_V

theorem user_flags : LeafFlags USER_FLAGS := by decide

variable {X : Batch} {N : List (BitVec 52)} {es : List (BitVec 64)} {s : St} {newsz : BitVec 64}
  {n cap : Nat}

/-- The loop of `uvmalloc`. It adds no more pages than the new size has, and no more than there
are; it fails when no page is left for the next one and its tables. -/
theorem uvmallocLoop_added (hX : X.Ready) (hdata : ∀ k, X.data k = fun _ => 0)
    (hflags : ∀ k, X.flags k = USER_FLAGS) (hcap : cap < NPAGES)
    (hend : npages newsz ≤ cap ∨ X.first + X.start.free.length ≤ cap)
    (hno : ∀ j, X.first ≤ j → j < cap → X.map j &&& PTE_V = 0) (h : Added X [] N es s)
    (hle : X.first + es.length ≤ npages newsz) (hN : N.length ≤ 2 * es.length)
    (hn : cap < n + (X.first + es.length)) :
    ∃ r s', uvmallocLoop X.kend (page X.root) (ofNat 64 (X.first * PGSIZE)) newsz n
        (ofNat 64 ((X.first + es.length) * PGSIZE)) s = .ok (r, s') ∧
      ((r = newsz ∧ ∃ N es, X.first + es.length = npages newsz ∧ Added X [] N es s') ∨
        r = 0 ∧ 0 < newsz ∧ ∃ N k, X.first + k < npages newsz ∧
          X.start.free.length ≤ 3 * (k + 1) ∧ Undone X N k s') := by
  have hlen := h.length_le
  have hcur : X.first + es.length ≤ cap := by omega
  induction n generalizing N es s with
  | zero => omega
  | succ n ih =>
    have hlt : X.first + es.length < NPAGES := by omega
    rw [uvmallocLoop]
    by_cases ha : ofNat 64 ((X.first + es.length) * PGSIZE) < newsz
    · have hpos : 0 < newsz := lt_def.mpr (Nat.zero_lt_of_lt (lt_def.mp ha))
      have hnew := (uaddr_lt_iff hlt).mp ha
      have hback : ∀ {N : List (BitVec 52)} {s : St}, Added X [] N es s → _ := fun {N s} h =>
        h.dealloc (ofNat 64 ((X.first + es.length) * PGSIZE))
          (ofNat 64 (X.first * PGSIZE)) hX (npages_uaddr hlt) (npages_uaddr (by omega))
          (by
            rw [BitVec.le_def, uaddr_toNat hlt, uaddr_toNat (by omega)]
            exact Nat.mul_le_mul_right _ (Nat.le_add_right _ _))
          (by rwa [npages_uaddr hlt])
      rw [if_pos ha]
      rcases h.kalloc hX with ⟨hnil, hk⟩ | ⟨q, s1, hk, hq0, h1⟩
      · obtain ⟨s', hs', hu⟩ := hback h
        rw [hnil] at hlen
        simp only [length_nil] at hlen
        refine ⟨0, s', ?_, .inr ⟨rfl, hpos, N, _, hnew, by omega, hu⟩⟩
        simp only [hk, if_true]
        exact except_bind_of_ok hs'
      · -- the page is cleared and mapped
        have hroom : X.first + es.length < cap := by
          have := h1.length_le
          simp only [length_singleton] at this
          omega
        have h2 : Added X [page q] N es { s1 with mem := memset s1.mem (page q) 0 } :=
          h1.fill hX rfl fun x hx => by rw [heap_memset, update_of_ne hx]
        have hzero : heap (memset s1.mem (page q) 0) q = X.data es.length := by
          rw [heap_memset, update_self, hdata]
        obtain ⟨N', r, s3, hr, hN', hend'⟩ := h2.map PTE_USER hX hzero (hflags _).symm
          (hflags _ ▸ user_flags) hlt (hno _ (Nat.le_add_right _ _) hroom)
        rcases hend' with ⟨rfl, h3⟩ | ⟨rfl, hnil, h3⟩
        · have hsucc : (es ++ [PA2PTE (page q) ||| X.flags es.length]).length = es.length + 1 :=
            length_append
          obtain ⟨r, s', hs', hres⟩ :=
            ih h3 (by omega) (by omega) (by omega) h3.length_le (by omega)
          refine ⟨r, s', ?_, hres⟩
          rw [hsucc, ← add_assoc, ← uaddr_succ] at hs'
          simp only [hk, if_neg hq0]
          exact (except_bind_of_ok hr).trans hs'
        · obtain ⟨s4, hs4, h4⟩ := h3.kfree hX
          obtain ⟨s', hs', hu⟩ := hback h4
          have hlen := h3.length_le
          rw [hnil] at hlen
          simp only [length_nil, length_singleton] at hlen
          refine ⟨0, s', ?_, .inr ⟨rfl, hpos, N', _, hnew, by omega, hu⟩⟩
          simp only [hk, if_neg hq0]
          exact (except_bind_of_ok hr).trans ((except_bind_of_ok hs4).trans (except_bind_of_ok hs'))
    · have hge := (not_congr (uaddr_lt_iff hlt)).mp ha
      exact ⟨newsz, s, if_neg ha, .inl ⟨rfl, N, es, by omega, h⟩⟩

/-- `uvmalloc` to a size that is not smaller. -/
theorem uvmalloc_added (newsz : BitVec 64) (hX : X.Ready) (hdata : ∀ k, X.data k = fun _ => 0)
    (hflags : ∀ k, X.flags k = USER_FLAGS) (hcap : cap < NPAGES)
    (hend : npages newsz ≤ cap ∨ X.first + X.start.free.length ≤ cap)
    (hno : ∀ j, X.first ≤ j → j < cap → X.map j &&& PTE_V = 0) {oldsz : BitVec 64}
    (hold : npages oldsz = X.first) (hle : oldsz ≤ newsz) (hfirst : X.first < NPAGES) :
    ∃ r s', uvmalloc X.kend (page X.root) oldsz newsz X.start = .ok (r, s') ∧
      ((r = newsz ∧ ∃ N es, X.first + es.length = npages newsz ∧ Added X [] N es s') ∨
        r = 0 ∧ 0 < newsz ∧ ∃ N k, X.first + k < npages newsz ∧
          X.start.free.length ≤ 3 * (k + 1) ∧ Undone X N k s') := by
  have hloop := uvmallocLoop_added (n := NPAGES + 1) hX hdata hflags hcap hend hno (.start hX)
    (by
      have := npages_mono hle
      simp only [length_nil]
      omega)
    le_rfl (by omega)
  rw [uvmalloc, if_neg (BitVec.not_lt.mpr hle), PGROUNDUP_eq (hold ▸ hfirst), hold]
  exact hloop

end Xv6.Vm
