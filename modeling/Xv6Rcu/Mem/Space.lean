import Xv6Rcu.Mem.Uvm

/-!
# An address space and its pages

- `Space s root T M`: the page-table pages below `root` are the pages `T`, and the entry of the
  virtual page `n` is `M n`. It depends on the pages `T` only (`Space.congr`).
- `FreePages T s`: the free pages are no page-table pages.
- `walk_space`, `mapPage`: the pages that `walk` and `mappages` take from the free list become
  page-table pages (`Took`), and nothing else is changed but the entry of the address.
- `unmapPage`, `uvmunmapLoop_space`: `uvmunmap` clears entries and gives the pages back.
-/

namespace Xv6.Vm

open Lib Trie Function
open BitVec (lt_def ofNat toNat_add toNat_ofNat)
open List hiding lookup

/-- The number of the virtual page of an address, as the three indices have it. -/
def vpn (v : BitVec 64) : Nat := v.toNat / 4096 % 2 ^ 27

/-- The page-table pages are `T`, and the entry of the virtual page `n` is `M n`. -/
structure Space (s : St) (root : BitVec 52) (T : List (BitVec 52)) (M : Nat → BitVec 64) :
    Prop where
  table : Table s root
  nodup : T.Nodup
  reach : ∀ q, q ∈ T ↔ Reaches child (heap s.mem) root 2 q
  /-- The entries that point to page-table pages have no permissions. -/
  dir : ∀ π p i, π.length < 2 → node child (heap s.mem) root π = some p →
    heap s.mem p i &&& PTE_V ≠ 0 → heap s.mem p i &&& (PTE_R ||| PTE_W ||| PTE_X) = 0
  leaf : ∀ v, leaf s root v = M (vpn v)

/-- The free pages are distinct, and no page-table pages. -/
structure FreePages (T : List (BitVec 52)) (s : St) : Prop where
  nodup : s.free.Nodup
  page : ∀ p ∈ s.free, ∃ q, p = page q ∧ q ≠ 0 ∧ q ∉ T

variable {s s' : St} {root p q : BitVec 52} {T T' : List (BitVec 52)} {M : Nat → BitVec 64}
  {π : List (BitVec 9)} {i : BitVec 9} {a v e : BitVec 64}

theorem same_iff : dirs v 2 = dirs a 2 ∧ PX 0 v = PX 0 a ↔ vpn v = vpn a := by
  simp only [dirs, cons.injEq, and_true, ← BitVec.toNat_inj, PX_toNat, vpn]
  omega

namespace Space

section
variable (h : Space s root T M)
include h

theorem fresh_iff : Fresh child (heap s.mem) root 2 q ↔ q ∉ T := by
  rw [Trie.fresh_iff, h.reach]

theorem mem_of_node (hπ : π.length ≤ 2) (hp : node child (heap s.mem) root π = some p) :
    p ∈ T := (h.reach p).mpr ⟨π, hπ, hp⟩

theorem perm (hT : T.Perm T') : Space s root T' M :=
  ⟨h.table, hT.nodup h.nodup, fun q => hT.mem_iff.symm.trans (h.reach q), h.dir, h.leaf⟩

theorem freshFree (hf : FreePages T s) : FreshFree s root := by
  refine ⟨hf.nodup, fun p hp => ?_⟩
  obtain ⟨q, rfl, hq0, hq⟩ := hf.page p hp
  refine ⟨fun hz => hq0 (page_inj (hz.trans rfl)), q, rfl, h.fresh_iff.mpr hq⟩

/-- Only the page-table pages matter. -/
theorem congr (hh : ∀ q ∈ T, heap s'.mem q = heap s.mem q) : Space s' root T M := by
  have hnode : ∀ π, π.length ≤ 2 →
      node child (heap s'.mem) root π = node child (heap s.mem) root π := fun π hπ =>
    node_congr_reaches (fun q hq => hh q ((h.reach q).mpr hq)) hπ
  refine ⟨⟨h.table.tree.congr hnode, fun π hπ => ?_⟩, h.nodup, fun q => ?_, ?_, fun v => ?_⟩
  · rw [hnode π hπ]
    exact h.table.nonnull π hπ
  · rw [h.reach]
    constructor
    · rintro ⟨π, hπ, hq⟩
      exact ⟨π, hπ, (hnode π hπ).trans hq⟩
    · rintro ⟨π, hπ, hq⟩
      exact ⟨π, hπ, (hnode π hπ).symm.trans hq⟩
  · intro π p i hπ hp
    rw [hnode π hπ.le] at hp
    rw [hh p (h.mem_of_node hπ.le hp)]
    exact h.dir π p i hπ hp
  · rw [← h.leaf, Vm.leaf, Vm.leaf, lookup, lookup, hnode _ le_rfl]
    cases hq : node child (heap s.mem) root (dirs v 2) with
    | none => rfl
    | some q => rw [Option.map_some, Option.map_some, hh q (h.mem_of_node le_rfl hq)]

/-- An entry is written. -/
theorem write (hq : node child (heap s.mem) root (dirs a 2) = some q) :
    Space (s.write (slot (page q) (PX 0 a)) e) root T (update M (vpn a) e) := by
  have hnode : ∀ π, π.length ≤ 2 →
      node child (heap (s.write (slot (page q) (PX 0 a)) e).mem) root π =
        node child (heap s.mem) root π := by
    intro π hπ
    rw [heap_write, node_set_leaf h.table.tree hq rfl hπ]
  refine ⟨h.table.write hq, h.nodup, fun x => ?_, ?_, fun v => ?_⟩
  · rw [h.reach]
    constructor
    · rintro ⟨π, hπ, hx⟩
      exact ⟨π, hπ, (hnode π hπ).trans hx⟩
    · rintro ⟨π, hπ, hx⟩
      exact ⟨π, hπ, (hnode π hπ).symm.trans hx⟩
  · intro π p i hπ hp
    rw [hnode π hπ.le] at hp
    have hpq : p ≠ q := by
      rintro rfl
      have := h.table.tree π (dirs a 2) p hπ.le le_rfl hp hq
      rw [this] at hπ
      simp [dirs] at hπ
    rw [heap_write, set_of_ne fun hc => absurd hc hpq]
    exact h.dir π p i hπ hp
  · rw [Vm.leaf, heap_write, lookup_set_leaf h.table.tree hq rfl rfl]
    by_cases hv : vpn v = vpn a
    · rw [if_pos (same_iff.mpr hv), hv, update_self]
      rfl
    · rw [if_neg fun hc => hv (same_iff.mp hc), update_of_ne hv, ← h.leaf]
      rfl

omit h in
/-- An entry that points to a page-table page has no permissions. -/
theorem dir_link (q : BitVec 52) :
    (PA2PTE (page q) ||| PTE_V) &&& (PTE_R ||| PTE_W ||| PTE_X) = 0 := by
  rw [← flags_and _ (by decide), PTE_FLAGS_entry (by decide)]
  decide

/-- A page from the free list becomes a page-table page. -/
theorem link (hf : FreePages T s) {l : List (BitVec 64)} (hl : s.free = page q :: l)
    (hp : node child (heap s.mem) root π = some p) (hd : π.length < 2)
    (hc : child (heap s.mem p i) = none)
    (hs : s' = St.write ⟨memset (memset s.mem (page q) 0x0505050505050505) (page q) 0, l⟩
      (slot (page p) i) (PA2PTE (page q) ||| PTE_V)) :
    Space s' root (q :: T) M ∧ FreePages (q :: T) s' ∧
      node child (heap s'.mem) root (π ++ [i]) = some q ∧
      ∀ x, x ≠ q → x ∉ T → heap s'.mem x = heap s.mem x := by
  obtain ⟨ht', hf', hleaf, hq', -⟩ := h.table.link (h.freshFree hf) hl hp hd hc hs
  obtain ⟨q', hqq, hq0, hqT⟩ := hf.page (page q) (by rw [hl]; exact mem_cons_self)
  obtain rfl := page_inj hqq
  have hnd := hf.nodup
  rw [hl] at hnd
  have hq := h.fresh_iff.mpr hqT
  have hheap : heap s'.mem = set (update (heap s.mem) q fun _ => 0) p i
      (PA2PTE (page q) ||| PTE_V) := by
    rw [hs, heap_write, heap_memset, heap_memset, update_idem]
  have hpT := h.mem_of_node hd.le hp
  have hpq : p ≠ q := fun e => hqT (e ▸ hpT)
  have hnode : ∀ π', π'.length ≤ 2 → node child (heap s'.mem) root π' =
      if π' = π ++ [i] then some q else node child (heap s.mem) root π' := by
    intro π' hπ'
    rw [hheap, node_link (h.table.tree.update hq) ((node_update_fresh hq hd.le).trans hp) hd ?_
      (hq.update hq) ?_ (child_link q) hπ', node_update_fresh hq hπ']
    · rw [update_of_ne hpq]
      exact hc
    · intro j
      rw [update_self]
      rfl
  have hsnoc : node child (heap s.mem) root (π ++ [i]) = none := (node_snoc hp i).trans hc
  have hframe : ∀ x j, x ≠ q → (x = p → j ≠ i) → heap s'.mem x j = heap s.mem x j := by
    intro x j hxq hxp
    rw [hheap, set_of_ne hxp, update_of_ne hxq]
  refine ⟨⟨ht', nodup_cons.mpr ⟨hqT, h.nodup⟩, fun x => ?_, ?_, fun v => ?_⟩, ⟨?_, ?_⟩, hq',
    ?_⟩
  · rw [mem_cons, h.reach]
    constructor
    · rintro (rfl | ⟨π', hπ', hx⟩)
      · exact ⟨π ++ [i], by simp; omega, hq'⟩
      · refine ⟨π', hπ', ?_⟩
        rw [hnode π' hπ', if_neg, hx]
        rintro rfl
        rw [hsnoc] at hx
        cases hx
    · rintro ⟨π', hπ', hx⟩
      rw [hnode π' hπ'] at hx
      split at hx
      · exact .inl (Option.some.inj hx).symm
      · exact .inr ⟨π', hπ', hx⟩
  · intro π' x j hπ' hx hv
    rw [hnode π' hπ'.le] at hx
    split at hx
    · -- the new page is empty
      obtain rfl := Option.some.inj hx
      rw [hheap, set_of_ne fun e => absurd e.symm hpq, update_self] at hv
      exact absurd rfl hv
    · by_cases hslot : x = p ∧ j = i
      · rw [hslot.1, hslot.2, hheap, set_self]
        exact dir_link q
      · have hxq : x ≠ q := fun e => hqT (e ▸ h.mem_of_node hπ'.le hx)
        rw [hframe x j hxq fun hxp hji => hslot ⟨hxp, hji⟩] at hv ⊢
        exact h.dir π' x j hπ' hx hv
  · rw [hleaf, h.leaf]
  · rw [hs]
    exact (nodup_cons.mp hnd).2
  · intro x hx
    rw [hs] at hx
    obtain ⟨r, rfl, hr0, hrT⟩ := hf.page x (by rw [hl]; exact mem_cons_of_mem _ hx)
    refine ⟨r, rfl, hr0, fun hm => ?_⟩
    rcases mem_cons.mp hm with rfl | hm
    · exact (nodup_cons.mp hnd).1 hx
    · exact hrT hm
  · intro x hxq hxT
    funext j
    exact hframe x j hxq fun e => absurd hpT (e ▸ hxT)

end

end Space

/-- The pages `new` were taken from the free list; of the other pages, only those in `T` may have
changed. -/
structure Took (T : List (BitVec 52)) (s : St) (new : List (BitVec 52)) (s' : St) : Prop where
  free : s.free = new.map page ++ s'.free
  pages : FreePages (new ++ T) s'
  frame : ∀ x ∉ T, page x ∉ s.free → heap s'.mem x = heap s.mem x

theorem FreePages.perm (hf : FreePages T s) (hT : T.Perm T') : FreePages T' s := by
  refine ⟨hf.nodup, fun p hp => ?_⟩
  obtain ⟨q, e, hq0, hq⟩ := hf.page p hp
  exact ⟨q, e, hq0, fun hm => hq (hT.mem_iff.mpr hm)⟩

theorem Took.refl (hf : FreePages T s) : Took T s [] s := ⟨rfl, hf, fun _ _ _ => rfl⟩

/-- `walk` has returned the slot `r` of the address `va`, or 0. -/
structure WalkedSpace (s : St) (root : BitVec 52) (T : List (BitVec 52)) (M : Nat → BitVec 64)
    (va : BitVec 64) (new : List (BitVec 52)) (r : BitVec 64) (s' : St) : Prop extends
    Took T s new s' where
  space : Space s' root (new ++ T) M
  fail : r = 0 → s'.free = []
  slot : r ≠ 0 → ∃ q, node child (heap s'.mem) root (dirs va 2) = some q ∧
    r = slot (page q) (PX 0 va)

theorem walkFrom_space {va : BitVec 64} {level : Nat} (h : Space s root T M) (hf : FreePages T s)
    (hp : node child (heap s.mem) root π = some p) (hlen : π.length + level = 2)
    (hπ : π ++ dirs va level = dirs va 2) : ∃ new, new.length ≤ level ∧
      WalkedSpace s root T M va new (walkFrom va true level (page p) s).1
        (walkFrom va true level (page p) s).2 := by
  induction level generalizing s p π T with
  | zero =>
    rw [dirs, append_nil] at hπ
    have hp0 : p ≠ 0 := by
      rintro rfl
      exact h.table.nonnull π (by omega) hp
    exact ⟨[], le_rfl, .refl hf, h, fun h0 => absurd h0 (slot_ne_zero hp0),
      fun _ => ⟨p, hπ ▸ hp, rfl⟩⟩
  | succ level ih =>
    rw [walkFrom]
    have hstep := (append_assoc π [PX (level + 1) va] (dirs va level)).trans hπ
    have hlen' : (π ++ [PX (level + 1) va]).length + level = 2 := by
      rw [length_append, length_singleton]
      omega
    split
    · next hv =>
      obtain ⟨q, hq, hpq⟩ := child_eq_some hv
      rw [← hpq]
      obtain ⟨new, hn, hw⟩ := ih h hf ((node_snoc hp _).trans hq) hlen' hstep
      exact ⟨new, Nat.le_succ_of_le hn, hw⟩
    · next hv =>
      have hc : child (heap s.mem p (PX (level + 1) va)) = none := child_eq_none hv
      cases hl : s.free with
      | nil =>
        simp only [kalloc, hl]
        exact ⟨[], Nat.zero_le _, .refl hf, h, fun _ => hl, fun h0 => absurd rfl h0⟩
      | cons x l =>
        obtain ⟨q, rfl, hq0, hqT⟩ := hf.page x (by rw [hl]; exact mem_cons_self)
        have hx0 : page q ≠ 0 := fun hz => hq0 (page_inj (hz.trans rfl))
        simp only [if_true, kalloc, hl, if_neg hx0]
        obtain ⟨h', hf', hq, hframe⟩ := h.link hf hl hp (by omega) hc rfl
        obtain ⟨new, hn, hw⟩ := ih h' hf' hq hlen' hstep
        have hperm : (new ++ q :: T).Perm (q :: new ++ T) := perm_middle
        refine ⟨q :: new, Nat.succ_le_succ hn, ⟨?_, hw.pages.perm hperm, fun x hxT hx => ?_⟩,
          hw.space.perm hperm, hw.fail, hw.slot⟩
        · rw [hl]
          exact congrArg _ hw.free
        · rw [hl, mem_cons, not_or] at hx
          have hxq : x ≠ q := fun e => hx.1 (congrArg page e)
          rw [hw.frame x (by simp [hxq, hxT]) hx.2, hframe x hxq hxT]

theorem walk_space (hva : a < MAXVA) (h : Space s root T M) (hf : FreePages T s) :
    ∃ new r s', walk (page root) a true s = .ok (r, s') ∧ new.length ≤ 2 ∧
      WalkedSpace s root T M a new r s' := by
  obtain ⟨new, hn, hw⟩ := walkFrom_space (π := []) h hf rfl (zero_add 2) rfl
  refine ⟨new, _, _, ?_, hn, hw⟩
  rw [walk, if_neg (BitVec.not_le.mpr hva)]

/-! ## One page is mapped -/

/-- `mappages` of the page at the address `a`, whose entry is not valid: it writes the entry, or the
memory is exhausted. -/
theorem mapPage (hva : a < MAXVA) (hal : a.toNat % PGSIZE = 0) (h : Space s root T M)
    (hf : FreePages T s) (hno : M (vpn a) &&& PTE_V = 0) (pa : BitVec 64) (perm : BitVec 32) :
    ∃ new r s', mappages (page root) a (ofNat 64 PGSIZE) pa perm s = .ok (r, s') ∧
      new.length ≤ 2 ∧ Took T s new s' ∧
      (r = 0 ∧ Space s' root (new ++ T)
          (update M (vpn a) (PA2PTE pa ||| perm.signExtend 64 ||| PTE_V)) ∨
        r = -1 ∧ s'.free = [] ∧ Space s' root (new ++ T) M) := by
  obtain ⟨new, r, s1, hr, hn, hw⟩ := walk_space hva h hf
  simp only [PGSIZE] at hal
  have hdown : PGROUNDDOWN a = a := by
    refine BitVec.eq_of_toNat_eq ?_
    rw [PGROUNDDOWN_toNat]
    omega
  have hlast : PGROUNDDOWN (a + ofNat 64 PGSIZE - 1) = a := by
    refine BitVec.eq_of_toNat_eq ?_
    rw [PGROUNDDOWN_toNat, BitVec.toNat_sub, toNat_add]
    simp only [PGSIZE, BitVec.ofNat_eq_ofNat, toNat_ofNat]
    omega
  rw [mappages, hdown, hlast, mappagesLoop, hr]
  by_cases h0 : r = 0
  · exact ⟨new, -1, s1, if_pos h0, hn, hw.toTook, .inr ⟨rfl, hw.fail h0, hw.space⟩⟩
  · obtain ⟨q, hq, rfl⟩ := hw.slot h0
    have hmem : s1.mem (slot (page q) (PX 0 a)) = M (vpn a) := by
      rw [← hw.space.leaf, leaf_eq hq]
      rfl
    refine ⟨new, 0, _, ?_, hn, ?_, .inl ⟨rfl, hw.space.write hq⟩⟩
    · simp only [if_neg h0, hmem, if_neg (not_not_intro hno), if_true]
    · refine ⟨hw.free, ⟨hw.pages.nodup, hw.pages.page⟩, fun x hxT hx => ?_⟩
      have hxq : x ≠ q := by
        rintro rfl
        rcases mem_append.mp (hw.space.mem_of_node le_rfl hq) with hm | hm
        · exact hx (by rw [hw.free]; exact mem_append_left _ (mem_map_of_mem hm))
        · exact hxT hm
      funext j
      rw [heap_write, set_of_ne fun e => absurd e hxq]
      exact congrFun (hw.frame x hxT hx) j

/-! ## Pages are unmapped -/

/-- The page that an entry points to. -/
def ppn (e : BitVec 64) : BitVec 52 := (e >>> 10).setWidth 52

theorem page_ppn (e : BitVec 64) : page (ppn e) = PTE2PA e := page_child e

/-- `kfree` takes the page. -/
def InRam (kend : Nat) (q : BitVec 52) : Prop :=
  kend ≤ (page q).toNat ∧ (page q).toNat < PHYSTOP

theorem kfree_page {kend : Nat} (hq : InRam kend q) : ∃ s', kfree kend (page q) s = .ok s' ∧
    s'.free = page q :: s.free ∧ ∀ x ≠ q, heap s'.mem x = heap s.mem x := by
  obtain ⟨s', f, hk, hheap⟩ := kfree_heap hq.1 hq.2
  refine ⟨s', hk, ?_, fun x hx => ?_⟩
  · simp only [kfree] at hk
    split at hk
    · cases hk
    · cases hk
      rfl
  · rw [hheap, update_of_ne hx]

/-- The entries of `k` virtual pages from `n` on are cleared. -/
def cleared (M : Nat → BitVec 64) (n k : Nat) : Nat → BitVec 64 :=
  fun x => if n ≤ x ∧ x < n + k then 0 else M x

/-- The pages that these entries point to, the last one first. -/
def freed (M : Nat → BitVec 64) (n : Nat) : Nat → List (BitVec 64)
  | 0 => []
  | k + 1 => freed M (n + 1) k ++ [PTE2PA (M n)]

theorem freed_congr {M' : Nat → BitVec 64} {n k : Nat} (h : ∀ j, n ≤ j → j < n + k → M' j = M j) :
    freed M' n k = freed M n k := by
  induction k generalizing n with
  | zero => rfl
  | succ k ih =>
    rw [freed, freed, ih fun j h1 h2 => h j (by omega) (by omega), h n le_rfl (by omega)]

/-- One round of `uvmunmap`. -/
theorem unmapPage {kend : Nat} {doFree : Bool} (hva : a < MAXVA) (h : Space s root T M)
    (hl : IsLeaf (M (vpn a)))
    (hfree : doFree = true → ppn (M (vpn a)) ∉ T ∧ InRam kend (ppn (M (vpn a)))) : ∃ q s1,
      slot (page q) (PX 0 a) ≠ 0 ∧
      walk (page root) a false s = .ok (slot (page q) (PX 0 a), s) ∧
      s.mem (slot (page q) (PX 0 a)) = M (vpn a) ∧
      (if doFree then kfree kend (PTE2PA (M (vpn a))) s else .ok s) = .ok s1 ∧
      Space (s1.write (slot (page q) (PX 0 a)) 0) root T (update M (vpn a) 0) ∧
      s1.free = (if doFree then [PTE2PA (M (vpn a))] else []) ++ s.free ∧
      ∀ x ∉ T, (doFree = true → x ≠ ppn (M (vpn a))) →
        heap (s1.write (slot (page q) (PX 0 a)) 0).mem x = heap s.mem x := by
  have hv : leaf s root a &&& PTE_V ≠ 0 := by
    rw [h.leaf]
    exact hl.1
  obtain ⟨q, hq0, hq, hw⟩ := walk_valid hva h.table hv
  have hqT : q ∈ T := h.mem_of_node le_rfl hq
  have hmem : s.mem (slot (page q) (PX 0 a)) = M (vpn a) := by
    rw [← h.leaf, leaf_eq hq]
    rfl
  have hwrite : ∀ (s1 : St) x, x ∉ T → heap s1.mem x = heap s.mem x →
      heap (s1.write (slot (page q) (PX 0 a)) 0).mem x = heap s.mem x := by
    intro s1 x hx he
    have hxq : x ≠ q := fun e => hx (e ▸ hqT)
    funext j
    rw [heap_write, set_of_ne fun e => absurd e hxq, he]
  refine ⟨q, ?_⟩
  cases doFree with
  | false =>
    exact ⟨s, slot_ne_zero hq0, hw, hmem, rfl, h.write hq, rfl, fun x hx _ => hwrite s x hx rfl⟩
  | true =>
    obtain ⟨hpT, hram⟩ := hfree rfl
    obtain ⟨s1, hk, hfr, hheap⟩ := kfree_page hram
    have h1 : Space s1 root T M := h.congr fun x hx => hheap x fun e => hpT (e ▸ hx)
    have hq1 : node child (heap s1.mem) root (dirs a 2) = some q := by
      rw [node_congr_reaches (fun x hx => hheap x fun e => hpT (e ▸ (h.reach x).mpr hx)) le_rfl, hq]
    rw [page_ppn] at hk hfr
    exact ⟨s1, slot_ne_zero hq0, hw, hmem, hk, h1.write hq1, hfr,
      fun x hx hne => hwrite s1 x hx (hheap x (hne rfl))⟩

theorem uvmunmapLoop_space {kend n k : Nat} {doFree : Bool} {stop : BitVec 64}
    (h : Space s root T M) (hstop : stop.toNat = a.toNat + k * PGSIZE) (hM : stop ≤ MAXVA)
    (hn : k < n) (ha : a.toNat % PGSIZE = 0)
    (hl : ∀ j, vpn a ≤ j → j < vpn a + k → IsLeaf (M j))
    (hfree : doFree = true → ∀ j, vpn a ≤ j → j < vpn a + k →
      ppn (M j) ∉ T ∧ InRam kend (ppn (M j))) :
    ∃ s', uvmunmapLoop kend (page root) stop doFree n a s = .ok s' ∧
      Space s' root T (cleared M (vpn a) k) ∧
      s'.free = (if doFree then freed M (vpn a) k else []) ++ s.free ∧
      ∀ x ∉ T, (doFree = true → ∀ j, vpn a ≤ j → j < vpn a + k → x ≠ ppn (M j)) →
        heap s'.mem x = heap s.mem x := by
  have hM' : stop.toNat ≤ 2 ^ 38 := hM
  induction n generalizing k a s M with
  | zero => omega
  | succ n ih =>
    simp only [PGSIZE] at hstop ha
    rw [uvmunmapLoop]
    cases k with
    | zero =>
      refine ⟨s, if_neg ?_, ?_, ?_, fun _ _ _ => rfl⟩
      · rw [lt_def]
        omega
      · have : cleared M (vpn a) 0 = M := by
          funext x
          exact if_neg (by omega)
        rwa [this]
      · cases doFree <;> rfl
    | succ k =>
      have haM : a < MAXVA := by
        refine lt_def.mpr (lt_of_lt_of_le ?_ hM')
        omega
      obtain ⟨q, s1, hq0, hw, hmem, hk, h1, hfr1, hframe1⟩ := unmapPage haM h
        (hl _ le_rfl (by omega)) fun hd => hfree hd _ le_rfl (by omega)
      have hnext : (a + ofNat 64 PGSIZE).toNat = a.toNat + 4096 := by
        rw [toNat_add, PGSIZE, toNat_ofNat]
        omega
      have hvpn : vpn (a + ofNat 64 PGSIZE) = vpn a + 1 := by
        simp only [vpn, hnext]
        omega
      have hsame : ∀ j, vpn a + 1 ≤ j → update M (vpn a) 0 j = M j := fun j hj =>
        update_of_ne (by omega) _ _
      rw [if_pos (lt_def.mpr (by omega)), hw]
      simp only [if_neg hq0, hmem, if_neg (hl _ le_rfl (by omega)).1,
        if_neg (hl _ le_rfl (by omega)).2, hk]
      obtain ⟨s', hs', h', hfr', hframe'⟩ := ih (k := k) h1
        (by rw [hnext, PGSIZE]; omega) (by omega) (by rw [hnext, PGSIZE]; omega)
        (fun j h1 h2 => by
          rw [hvpn] at h1 h2
          rw [hsame j h1]
          exact hl j (by omega) (by omega))
        (fun hd j h1 h2 => by
          rw [hvpn] at h1 h2
          rw [hsame j h1]
          exact hfree hd j (by omega) (by omega))
      rw [hvpn] at h' hfr' hframe'
      refine ⟨s', hs', ?_, ?_, fun x hx hne => ?_⟩
      · have : cleared (update M (vpn a) 0) (vpn a + 1) k = cleared M (vpn a) (k + 1) := by
          funext j
          simp only [cleared]
          by_cases hj : j = vpn a
          · subst hj
            rw [if_neg (by omega), if_pos (by omega), update_self]
          · rw [update_of_ne hj]
            exact if_congr (by omega) rfl rfl
        rwa [this] at h'
      · rw [hfr', freed_congr fun j hj _ => hsame j hj]
        show _ ++ s1.free = _
        rw [hfr1]
        cases doFree with
        | false => rfl
        | true => simp [freed]
      · rw [hframe' x hx fun hd j h1 h2 => ?_]
        · exact hframe1 x hx fun hd => hne hd _ le_rfl (by omega)
        · rw [hsame j h1]
          exact hne hd j (by omega) (by omega)

/-- `uvmunmap` of the `k` virtual pages at `a`. -/
theorem uvmunmap_space (kend : Nat) (doFree : Bool) {k : Nat} {npages : BitVec 64}
    (h : Space s root T M) (hk : npages.toNat = k) (ha : a.toNat % PGSIZE = 0)
    (hM : a.toNat + k * PGSIZE ≤ 2 ^ 38)
    (hl : ∀ j, vpn a ≤ j → j < vpn a + k → IsLeaf (M j))
    (hfree : doFree = true → ∀ j, vpn a ≤ j → j < vpn a + k →
      ppn (M j) ∉ T ∧ InRam kend (ppn (M j))) :
    ∃ s', uvmunmap kend (page root) a npages doFree s = .ok s' ∧
      Space s' root T (cleared M (vpn a) k) ∧
      s'.free = (if doFree then freed M (vpn a) k else []) ++ s.free ∧
      ∀ x ∉ T, (doFree = true → ∀ j, vpn a ≤ j → j < vpn a + k → x ≠ ppn (M j)) →
        heap s'.mem x = heap s.mem x := by
  simp only [PGSIZE] at hM
  have hstop : (a + npages * ofNat 64 PGSIZE).toNat = a.toNat + k * PGSIZE := by
    rw [toNat_add, BitVec.toNat_mul]
    simp only [PGSIZE, toNat_ofNat]
    omega
  rw [uvmunmap, if_neg (not_not_intro ha)]
  refine uvmunmapLoop_space h hstop ?_ ?_ ha hl hfree
  · rw [BitVec.le_def, hstop]
    exact hM
  · simp only [NPAGES]
    omega

end Xv6.Vm
