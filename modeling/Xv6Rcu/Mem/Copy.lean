import Xv6Rcu.Mem.Grow

/-!
# `uvmcopy`

The user memory of one address space is copied to another.

- `Parent`: the address space that is copied. `uvmcopy` writes to none of its pages.
- `uvmcopyLoop_added`: `uvmcopy` adds a batch of pages, with the contents and the flags of the
  parent's.
- **The theorem** (`uvmcopy_exact`): each page of the child comes from the free list and has the
  words and the flags of the page that it is a copy of (`Copy`), or the memory is exhausted and what
  was copied is given back.
-/

namespace Xv6.Vm

open Lib Trie Function List BitVec

theorem heap_memmove {mem : BitVec 64 → BitVec 64} {p q : BitVec 52} :
    heap (memmove mem (page q) (page p)) = update (heap mem) q (heap mem p) := by
  funext r i
  unfold heap memmove
  by_cases hrq : r = q
  · rw [if_pos (slot_in_page.mpr hrq), hrq, update_self, slot, add_sub_cancel_left]
    rfl
  · rw [if_neg fun h => hrq (slot_in_page.mp h), update_of_ne hrq]

/-- The page of the entry `e'` was free in `s₀`, and is a copy of the page of `e`. -/
structure Copy (s₀ s : St) (e e' : BitVec 64) : Prop where
  flags : PTE_FLAGS e' = PTE_FLAGS e
  page : PTE2PA e' ∈ s₀.free
  data : heap s.mem (ppn e') = heap s₀.mem (ppn e)

theorem flags_lt (e : BitVec 64) : (PTE_FLAGS e).toNat < 1024 := by
  rw [PTE_FLAGS_toNat]
  exact Nat.mod_lt _ (by decide)

/-- The flags that `uvmcopy` passes to `mappages`. -/
theorem copy_flags {e : BitVec 64} (he : IsLeaf e) :
    ((PTE_FLAGS e).setWidth 32 : BitVec 32).signExtend 64 ||| PTE_V = PTE_FLAGS e := by
  have hlt := flags_lt e
  have hset : ((PTE_FLAGS e).setWidth 32 : BitVec 32).toNat = (PTE_FLAGS e).toNat := by
    rw [toNat_setWidth]
    omega
  have hsame : ((PTE_FLAGS e).setWidth 32 : BitVec 32).signExtend 64 = PTE_FLAGS e := by
    refine eq_of_toNat_eq ?_
    rw [signExtend_eq_setWidth_of_msb_false, toNat_setWidth]
    · omega
    · rw [msb_eq_false_iff_two_mul_lt]
      omega
  have hodd : (PTE_FLAGS e).toNat % 2 = 1 := by
    have := valid_iff.mp he.1
    rw [PTE_FLAGS_toNat]
    omega
  rw [hsame]
  have hor := Nat.two_pow_add_eq_or_of_lt (i := 1) (b := 1) (by decide) ((PTE_FLAGS e).toNat / 2)
  rw [show 2 ^ 1 * ((PTE_FLAGS e).toNat / 2) + 1 = (PTE_FLAGS e).toNat by omega] at hor
  refine eq_of_toNat_eq ?_
  rw [toNat_or, hor, Nat.or_assoc]
  rfl

theorem leafFlags_of_isLeaf {e : BitVec 64} (he : IsLeaf e) : LeafFlags (PTE_FLAGS e) := by
  refine ⟨flags_lt e, ?_, he.2⟩
  have := valid_iff.mp he.1
  rw [valid_iff, PTE_FLAGS_toNat]
  omega

/-! ## The parent -/

/-- The first `n` pages of the address space `M` are mapped. Its pages are neither free in `s`, nor
page-table pages `T` of the child. -/
structure Parent (s : St) (T : List (BitVec 52)) (root : BitVec 52) (tables : List (BitVec 52))
    (M : Nat → BitVec 64) (n : Nat) : Prop where
  space : Space s root tables M
  leaf : ∀ k < n, IsLeaf (M k)
  tables : ∀ q ∈ tables, q ∉ T ∧ page q ∉ s.free
  pages : ∀ k < n, ppn (M k) ∉ T ∧ page (ppn (M k)) ∉ s.free
  small : n ≤ NPAGES

variable {X : Batch} {s s' : St} {root : BitVec 52} {T tables N : List (BitVec 52)}
  {M Mc : Nat → BitVec 64} {es : List (BitVec 64)} {sz : BitVec 64} {kend n k : Nat}

/-- `walk` finds the entry of the page `k`. -/
theorem Parent.walk (h : Parent s T root tables M n)
    (hs : ∀ q ∈ tables, heap s'.mem q = heap s.mem q) (hk : k < n) : ∃ pte, pte ≠ 0 ∧
      Vm.walk (page root) (BitVec.ofNat 64 (k * PGSIZE)) false s' = .ok (pte, s') ∧
      s'.mem pte = M k := by
  have hkn : k < NPAGES := hk.trans_le h.small
  have hsp := h.space.congr hs
  have hentry : Vm.leaf s' root (BitVec.ofNat 64 (k * PGSIZE)) = M k := by
    rw [hsp.leaf, vpn_uaddr hkn]
  obtain ⟨q, hq0, hq, hw⟩ := walk_valid (uaddr_lt hkn) hsp.table
    (by rw [hentry]; exact (h.leaf k hk).1)
  refine ⟨_, slot_ne_zero hq0, hw, ?_⟩
  rw [← hentry, leaf_eq hq]
  rfl

/-- `uvmcopy` from the page on that is next. -/
theorem uvmcopyLoop_added (hX : X.Ready) (hfirst : X.first = 0)
    (hP : Parent X.start X.tables root tables M (npages sz))
    (hdata : ∀ k < npages sz, X.data k = heap X.start.mem (ppn (M k)))
    (hflags : ∀ k < npages sz, X.flags k = PTE_FLAGS (M k))
    (hno : ∀ k < npages sz, X.map k &&& PTE_V = 0) (h : Added X [] N es s)
    (hle : es.length ≤ npages sz) (hN : N.length ≤ 2 * es.length)
    (hn : npages sz < n + es.length) :
    ∃ r s', uvmcopyLoop X.kend (page root) (page X.root) sz n
        (BitVec.ofNat 64 (es.length * PGSIZE)) s = .ok (r, s') ∧
      ((r = 0 ∧ ∃ N es, es.length = npages sz ∧ N.length ≤ 2 * es.length ∧ Added X [] N es s') ∨
        r = -1 ∧ ∃ N k, k < npages sz ∧ X.start.free.length ≤ 3 * (k + 1) ∧ Undone X N k s') := by
  induction n generalizing N es s with
  | zero => omega
  | succ n ih =>
    have hcap : es.length ≤ NPAGES := hle.trans hP.small
    rw [uvmcopyLoop]
    by_cases hk : es.length < npages sz
    · have hi : BitVec.ofNat 64 (es.length * PGSIZE) < sz := (uaddr_lt_iff_le hcap).mpr hk
      obtain ⟨pte, hpte, hw, hmem⟩ :=
        hP.walk (fun q hq => h.frame q (hP.tables q hq).1 (hP.tables q hq).2) hk
      have hleaf := hP.leaf _ hk
      -- on failure the copies are given back
      have hback : ∀ {N : List (BitVec 52)} {s : St}, Added X [] N es s → ∃ s', uvmunmap X.kend
          (page X.root) 0 (BitVec.ofNat 64 (es.length * PGSIZE) / BitVec.ofNat 64 PGSIZE) true s =
            .ok s' ∧ Undone X N es.length s' := fun {N s} h => by
        have := h.unmap hX (by omega) (by rw [hfirst]; decide) (uaddr_div hcap)
        rwa [hfirst] at this
      rw [if_pos hi]
      rcases h.kalloc hX with ⟨hnil, hk1⟩ | ⟨q, s1, hk1, hq0, h1⟩
      · obtain ⟨s', hs', hu⟩ := hback h
        have hlen := h.length_le
        rw [hnil] at hlen
        simp only [length_nil] at hlen
        refine ⟨-1, s', ?_, .inr ⟨rfl, N, _, hk, by omega, hu⟩⟩
        refine (except_bind_of_ok hw).trans ?_
        simp only [if_neg hpte, hmem, if_neg hleaf.1, hk1, if_true]
        exact except_bind_of_ok hs'
      · -- the copy is made in the page that is held
        have h2 : Added X [page q] N es
            { s1 with mem := memmove s1.mem (page q) (PTE2PA (M es.length)) } :=
          h1.fill hX rfl fun x hx => by rw [← page_ppn, heap_memmove, update_of_ne hx]
        have hcopy :
            heap (memmove s1.mem (page q) (PTE2PA (M es.length))) q = X.data es.length := by
          rw [← page_ppn, heap_memmove, update_self, hdata _ hk,
            h1.frame _ (hP.pages _ hk).1 (hP.pages _ hk).2]
        obtain ⟨N', r, s3, hr, hN', hend⟩ := h2.map ((PTE_FLAGS (M es.length)).setWidth 32) hX hcopy
          ((copy_flags hleaf).trans (hflags _ hk).symm)
          (hflags _ hk ▸ leafFlags_of_isLeaf hleaf) (by have := hP.small; omega) (by
            rw [hfirst, zero_add]
            exact hno _ hk)
        rw [hfirst, zero_add] at hr
        rcases hend with ⟨rfl, h3⟩ | ⟨rfl, hnil, h3⟩
        · have hsucc : (es ++ [PA2PTE (page q) ||| X.flags es.length]).length = es.length + 1 :=
            length_append
          obtain ⟨r, s', hs', hres⟩ := ih h3 (by omega) (by omega) (by omega)
          refine ⟨r, s', ?_, hres⟩
          rw [hsucc, ← uaddr_succ] at hs'
          refine (except_bind_of_ok hw).trans ?_
          simp only [if_neg hpte, hmem, if_neg hleaf.1, hk1, if_neg hq0]
          exact (except_bind_of_ok hr).trans hs'
        · obtain ⟨s4, hs4, h4⟩ := h3.kfree hX
          obtain ⟨s', hs', hu⟩ := hback h4
          have hlen := h3.length_le
          rw [hnil] at hlen
          simp only [length_nil, length_singleton] at hlen
          refine ⟨-1, s', ?_, .inr ⟨rfl, N', _, hk, by omega, hu⟩⟩
          refine (except_bind_of_ok hw).trans ?_
          simp only [if_neg hpte, hmem, if_neg hleaf.1, hk1, if_neg hq0]
          exact (except_bind_of_ok hr).trans
            ((except_bind_of_ok hs4).trans (except_bind_of_ok hs'))
    · have hi : ¬ BitVec.ofNat 64 (es.length * PGSIZE) < sz := fun hc =>
        hk ((uaddr_lt_iff_le hcap).mp hc)
      exact ⟨0, s, if_neg hi, .inl ⟨rfl, N, es, by omega, hN, h⟩⟩

theorem uvmcopy_added (hX : X.Ready) (hfirst : X.first = 0)
    (hP : Parent X.start X.tables root tables M (npages sz))
    (hdata : ∀ k < npages sz, X.data k = heap X.start.mem (ppn (M k)))
    (hflags : ∀ k < npages sz, X.flags k = PTE_FLAGS (M k))
    (hno : ∀ k < npages sz, X.map k &&& PTE_V = 0) :
    ∃ r s', uvmcopy X.kend (page root) (page X.root) sz X.start = .ok (r, s') ∧
      ((r = 0 ∧ ∃ N es, es.length = npages sz ∧ N.length ≤ 2 * es.length ∧ Added X [] N es s') ∨
        r = -1 ∧ ∃ N k, k < npages sz ∧ X.start.free.length ≤ 3 * (k + 1) ∧ Undone X N k s') :=
  uvmcopyLoop_added hX hfirst hP hdata hflags hno (.start hX) (Nat.zero_le _) le_rfl
    (lt_of_le_of_lt hP.small (Nat.lt_succ_self _))

/-! ## What is owned -/

variable {L : Multiset (BitVec 64)} {H : List (BitVec 64)} {A B : View}

/-- The address space that is copied; its pages are held. -/
structure Source (H : List (BitVec 64)) (A : View) (s : St) : Prop where
  space : Space s A.root A.tables A.entry
  tables : ∀ q ∈ A.tables, page q ∈ H
  leaf : ∀ e ∈ A.user, IsLeaf e
  user : ∀ e ∈ A.user, PTE2PA e ∈ H
  small : A.user.length ≤ NPAGES - 2

section
variable (hL : Pool kend L) (h : Owns L H B s)
include hL h

theorem Source.parent (hA : Source H A s) :
    Parent s B.tables A.root A.tables A.entry A.user.length where
  space := hA.space
  leaf := fun k hk => by
    rw [View.entry_user hA.small hk]
    exact hA.leaf _ (List.getElem_mem hk)
  tables := fun q hq =>
    ⟨h.held_not_table hL (hA.tables q hq), h.held_not_free hL (hA.tables q hq)⟩
  pages := fun k hk => by
    have hmem : page (ppn (A.entry k)) ∈ H := by
      rw [View.entry_user hA.small hk, page_ppn]
      exact hA.user _ (getElem_mem hk)
    exact ⟨h.held_not_table hL hmem, h.held_not_free hL hmem⟩
  small := hA.small.trans (Nat.sub_le _ _)

end

/-! ## Success and failure -/

/-- The address space `M` and its first `n` pages are as they were in `s`. -/
structure Same (s : St) (root : BitVec 52) (tables : List (BitVec 52)) (M : Nat → BitVec 64)
    (n : Nat) (s' : St) : Prop where
  translate : ∀ v, translate s' root v = translate s root v
  tables : ∀ q ∈ tables, heap s'.mem q = heap s.mem q
  pages : ∀ k < n, heap s'.mem (ppn (M k)) = heap s.mem (ppn (M k))

theorem Parent.same (h : Parent s T root tables M n)
    (hframe : ∀ x ∉ T, page x ∉ s.free → heap s'.mem x = heap s.mem x) :
    Same s root tables M n s' := by
  have htables : ∀ q ∈ tables, heap s'.mem q = heap s.mem q := fun q hq =>
    hframe q (h.tables q hq).1 (h.tables q hq).2
  exact ⟨fun v => Space.translate_eq h.space (h.space.congr htables) (.inl rfl), htables,
    fun k hk => hframe _ (h.pages k hk).1 (h.pages k hk).2⟩

/-- The entries `es` of the child are copies of those of the parent. -/
structure Copied (s : St) (root : BitVec 52) (T : List (BitVec 52)) (Mc M : Nat → BitVec 64)
    (n : Nat) (N : List (BitVec 52)) (es : List (BitVec 64)) (s' : St) : Prop where
  length : es.length = n
  space : Space s' root (N ++ T) (extended Mc 0 es)
  copy : ∀ k (hk : k < es.length), Copy s s' (M k) es[k]
  free : s.free.Perm (s'.free ++ N.map page ++ es.map PTE2PA)

/-- Nothing is mapped at the first `n` pages of the child, and only page-table pages are missing
from the free list. -/
structure NotCopied (s : St) (root : BitVec 52) (T : List (BitVec 52)) (n : Nat)
    (N : List (BitVec 52)) (s' : St) : Prop where
  translate : ∀ v, translate s' root v = translate s root v
  space : ∃ Mc, Space s' root (N ++ T) Mc ∧ ∀ k < n, Mc k &&& PTE_V = 0
  free : s.free.Perm (s'.free ++ N.map page)

/-- **`uvmcopy` copies or undoes**, the latter only if the free pages are too few for the copies and
their tables. -/
theorem uvmcopy_exact {croot : BitVec 52} (sz : BitVec 64) (hs : Space s croot T Mc)
    (hf : Supply kend T s)
    (hno : ∀ k < npages sz, Mc k &&& PTE_V = 0) (hP : Parent s T root tables M (npages sz)) :
    ∃ r s', uvmcopy kend (page root) (page croot) sz s = .ok (r, s') ∧
      Same s root tables M (npages sz) s' ∧
      ((r = 0 ∧ ∃ N es, Copied s croot T Mc M (npages sz) N es s') ∨
        r = -1 ∧ s.free.length ≤ 3 * npages sz ∧ ∃ N, NotCopied s croot T (npages sz) N s') := by
  obtain ⟨r, s', hr, hend⟩ := uvmcopy_added (X := ⟨kend, s, croot, T, Mc, 0,
      fun k => heap s.mem (ppn (M k)), fun k => PTE_FLAGS (M k)⟩)
    ⟨hs, hf⟩ rfl hP (fun _ _ => rfl) (fun _ _ => rfl) hno
  refine ⟨r, s', hr, ?_⟩
  rcases hend with ⟨h0, N, es, hlen, -, ha⟩ | ⟨h0, N, k, hk, hfew, hu⟩
  · refine ⟨hP.same ha.frame, .inl ⟨h0, N, es, hlen, ha.space, fun k hk => ?_, ?_⟩⟩
    · obtain ⟨hdata, hflags⟩ := ha.data k hk
      exact ⟨hflags, ha.mem_start.mpr (.inr (mem_map_of_mem (getElem_mem hk))), hdata⟩
    · have := ha.pages
      rwa [append_nil] at this
  · have hsp : Space s' croot (N ++ T) (cleared Mc 0 k) := hu.space
    have hclear : ∀ j < npages sz, cleared Mc 0 k j &&& PTE_V = 0 := fun j hj => by
      rw [cleared]
      split
      · rfl
      · exact hno j hj
    have hfew' : s.free.length ≤ 3 * (k + 1) := hfew
    refine ⟨hP.same hu.frame, .inr ⟨h0, by omega, N, fun v => Space.translate_eq hs hsp ?_,
      ⟨_, hsp, hclear⟩, hu.pages⟩⟩
    by_cases hv : vpn v < k
    · exact .inr ⟨hclear _ (hv.trans hk), hno _ (hv.trans hk)⟩
    · exact .inl (if_neg fun hc => hv (by omega))

/-- A page that is held and clear is an empty page table, and the address space can be copied to
it. -/
theorem Owns.copyable {q : BitVec 52} (hL : Pool kend L) (h : Owns L [page q] A s)
    (hz : ∀ i, heap s.mem q i = 0) : Space s q [q] (View.mk q [q] 0 0 []).entry ∧
      Supply kend [q] s ∧ Parent s [q] A.root A.tables A.entry A.user.length := by
  have hq0 : q ≠ 0 := by
    obtain ⟨q', hq, hram⟩ := hL.ram (page q)
      (h.mem_pool.mpr (.inl (.inl (.inr (mem_singleton_self _)))))
    exact page_inj hq ▸ hram.ne_zero hL.kend_pos
  have hB : Owns L (A.tables.map page ++ A.user.map PTE2PA) ⟨q, [q], 0, 0, []⟩ s := by
    refine .empty hq0 hz (h.pool.trans ?_)
    rw [Multiset.coe_singleton, ← Multiset.cons_coe, ← Multiset.singleton_add, ← Multiset.coe_add]
    abel
  refine ⟨hB.space, hB.supply hL, Source.parent hL hB ⟨h.space, fun x hx => ?_, h.leaf,
    fun e he => ?_, (h.user_lt hL).le⟩⟩
  · exact mem_append_left _ (mem_map_of_mem hx)
  · exact mem_append_right _ (mem_map_of_mem he)

/-- Six free pages, the page table and the page of a parent, and the page table of a child. -/
def ninePages : List (BitVec 52) :=
  [0x80103, 0x80104, 0x80105, 0x80106, 0x80107, 0x80108, 0x80100, 0x80101, 0x80102]

/-- Four pages are enough for the copy of one. -/
theorem uvmcopy_exact_ninePages : ∃ (s : St) (tables : List (BitVec 52)) (M : Nat → BitVec 64)
    (s' : St), npages 0x800 = 1 ∧ IsLeaf (M 0) ∧
      uvmcopy 0x80100000 (page 0x80100) (page 0x80102) 0x800 s = .ok (0, s') ∧
      Same s 0x80100 tables M (npages 0x800) s' ∧
      ∃ N es, Copied s 0x80102 [0x80102] (View.mk 0x80102 [0x80102] 0 0 []).entry M
        (npages 0x800) N es s' := by
  have hL : Pool 0x80100000 (ninePages.map page : List (BitVec 64)) :=
    .of_pages (by decide) (by decide) (by decide) (by decide)
  have hroot : Owns (ninePages.map page : List (BitVec 64)) [page 0x80101, page 0x80102]
      ⟨0x80100, [0x80100], 0, 0, []⟩ ⟨fun _ => 0, (ninePages.take 6).map page⟩ :=
    .empty (by decide) (fun _ => rfl) rfl
  obtain ⟨T, r, s, -, hgrow, ⟨-, howns⟩ | ⟨-, hnil, -⟩⟩ :=
    hroot.mapUser 30 hL (by decide) ⟨by decide, by decide⟩
  all_goals have hfree : 6 ≤ s.free.length + 2 := hgrow.few
  · have hone : npages 0x800 = 1 := by decide
    obtain ⟨hs, hf, hP⟩ := howns.copyable hL fun i => by
      rw [hgrow.frame 0x80102 (by decide) (by decide)]
      rfl
    obtain ⟨r, s', hr, hsame, ⟨rfl, hc⟩ | ⟨-, hfew, -⟩⟩ := uvmcopy_exact 0x800 hs hf (fun k hk => by
      rw [hone, Nat.lt_one_iff] at hk
      rw [hk]
      rfl) hP
    · exact ⟨s, T, _, s', hone, hP.leaf 0 zero_lt_one, hr, hsame, hc⟩
    · rw [hone] at hfew
      omega
  · rw [hnil] at hfree
    exact absurd hfree (by decide)

end Xv6.Vm
