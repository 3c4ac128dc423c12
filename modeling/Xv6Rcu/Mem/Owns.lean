import Xv6Rcu.Mem.Extend
import Xv6Rcu.Mem.Freewalk
import Mathlib.Algebra.Order.Group.Multiset
import Mathlib.Tactic.Abel

/-!
# The pages that an address space owns

A `View` names the parts of a user address space: its page-table pages, and the entries of the user
memory, of the trampoline and of the trapframe.

- `Owns L held A s`: the pages `L` of the system are the free ones, those `held` by others, and the
  page-table pages and user pages of `A`.
- The operations of `vm.c` move pages between these (`Owns.kalloc`, `Owns.mapUser`,
  `Owns.unmapUser`, `Owns.uvmdealloc`, `Owns.uvmalloc`), and `proc_pagetable` and
  `proc_freepagetable` begin and end an address space.
-/

namespace Xv6.Vm

open Lib Trie Function
open Multiset (card_add coe_add coe_card coe_eq_coe coe_singleton cons_coe mem_add mem_coe
  singleton_add)
open BitVec (ofNat)
open List hiding lookup

/-- A user address space. -/
structure View where
  root : BitVec 52
  tables : List (BitVec 52)
  trampoline : BitVec 64
  trapframe : BitVec 64
  /-- The entries of the user memory, from address 0 on. -/
  user : List (BitVec 64)

namespace View

/-- The entry of a virtual page. -/
def entry (A : View) (n : Nat) : BitVec 64 :=
  if n = NPAGES - 1 then A.trampoline
  else if n = NPAGES - 2 then A.trapframe
  else A.user.getD n 0

variable {A : View} {e : BitVec 64} {m k : Nat}

theorem entry_user {j : Nat} (hn : A.user.length ≤ NPAGES - 2) (hj : j < A.user.length) :
    A.entry j = A.user[j] := by
  rw [entry, if_neg (by omega), if_neg (by omega), getD_eq_getElem _ _ hj]

theorem entry_push (hn : A.user.length < NPAGES - 2) :
    { A with user := A.user ++ [e] }.entry = update A.entry A.user.length e := by
  funext j
  by_cases hj : j = A.user.length
  · subst hj
    rw [entry, if_neg (by omega), if_neg (by omega)]
    simp
  · rw [update_of_ne hj]
    refine if_congr Iff.rfl rfl (if_congr Iff.rfl rfl ?_)
    rcases lt_or_gt_of_ne hj with hlt | hgt
    · exact getD_append _ _ _ _ hlt
    · rw [getD_eq_default _ _ hgt.le, getD_eq_default]
      rw [length_append]
      exact hgt

theorem entry_beyond {j : Nat} (hj : A.user.length ≤ j) (hn : j < NPAGES - 2) : A.entry j = 0 := by
  rw [entry, if_neg (by omega), if_neg (by omega), getD_eq_default _ _ hj]

theorem entry_append {es : List (BitVec 64)} (hn : A.user.length + es.length ≤ NPAGES - 2) :
    { A with user := A.user ++ es }.entry = extended A.entry A.user.length es := by
  funext j
  by_cases hj : A.user.length ≤ j ∧ j < A.user.length + es.length
  · rw [extended, if_pos hj, entry, if_neg (by omega), if_neg (by omega)]
    exact getD_append_right _ _ _ _ hj.1
  · rw [extended, if_neg hj]
    refine if_congr Iff.rfl rfl (if_congr Iff.rfl rfl ?_)
    rcases lt_or_ge j A.user.length with hlt | hge
    · exact getD_append _ _ _ _ hlt
    · rw [getD_eq_default _ _ hge, getD_eq_default]
      rw [length_append]
      omega

theorem entry_take (hn : A.user.length ≤ NPAGES - 2) (hm : m + k = A.user.length) :
    { A with user := A.user.take m }.entry = cleared A.entry m k := by
  funext j
  by_cases hj : m ≤ j ∧ j < m + k
  · rw [cleared, if_pos hj, entry, if_neg (by omega), if_neg (by omega), getD_eq_default]
    simpa using .inl hj.1
  · rw [cleared, if_neg hj]
    refine if_congr Iff.rfl rfl (if_congr Iff.rfl rfl ?_)
    rcases lt_or_ge j m with hlt | hge
    · simp [hlt]
    · rw [getD_eq_default, getD_eq_default]
      · omega
      · exact (length_take_le ..).trans hge

theorem entry_trampoline :
    { A with trampoline := e }.entry = update A.entry (NPAGES - 1) e := by
  funext j
  rw [update_apply]
  exact ite_congr rfl (fun _ => rfl) fun hj => (if_neg hj).symm

theorem entry_trapframe :
    { A with trapframe := e }.entry = update A.entry (NPAGES - 2) e := by
  have hne : NPAGES - 2 ≠ NPAGES - 1 := by decide
  funext j
  rw [update_apply, entry, entry]
  by_cases hj : j = NPAGES - 2
  · rw [if_pos hj, if_neg (hj ▸ hne), if_pos hj]
  · rw [if_neg hj, if_neg hj, if_neg hj]

/-- The pages that `uvmunmap` gives back. -/
theorem freed_user (hn : A.user.length ≤ NPAGES - 2) (hm : m + k = A.user.length) :
    freed A.entry m k = ((A.user.drop m).map PTE2PA).reverse := by
  induction k generalizing m with
  | zero => rw [drop_of_length_le (by omega)]; rfl
  | succ k ih =>
    have hlt : m < A.user.length := by omega
    rw [freed, ih (by omega), entry_user hn hlt, drop_eq_getElem_cons hlt, map_cons,
      reverse_cons]

end View

/-! ## Ownership -/

/-- The page is no page of the address space. -/
def View.Foreign (A : View) (x : BitVec 52) : Prop :=
  x ∉ A.tables ∧ page x ∉ A.user.map PTE2PA

/-- The page-table pages `T` have become `T'`, with up to two pages from the free list. -/
structure Grows (T : List (BitVec 52)) (s : St) (T' : List (BitVec 52)) (s' : St) : Prop where
  suffix : s'.free <:+ s.free
  few : s.free.length ≤ s'.free.length + 2
  tables : ∀ q ∈ T', q ∈ T ∨ page q ∈ s.free
  frame : ∀ x ∉ T, page x ∉ s.free → heap s'.mem x = heap s.mem x

/-- The pages of the system. -/
structure Pool (kend : Nat) (L : Multiset (BitVec 64)) : Prop where
  kend_pos : 0 < kend
  nodup : L.Nodup
  ram : ∀ p ∈ L, ∃ q, p = page q ∧ InRam kend q
  small : L.card ≤ (PHYSTOP - KERNBASE) / PGSIZE

theorem Pool.of_pages {kend : Nat} {qs : List (BitVec 52)} (hk : 0 < kend) (hn : qs.Nodup)
    (hram : qs.all fun q => kend ≤ q.toNat * 4096 ∧ q.toNat * 4096 < PHYSTOP)
    (hlen : qs.length ≤ (PHYSTOP - KERNBASE) / PGSIZE) : Pool kend (qs.map page) where
  kend_pos := hk
  nodup := Multiset.coe_nodup.mpr (hn.map fun _ _ => page_inj)
  ram := by
    intro p hp
    obtain ⟨q, hq, rfl⟩ := mem_map.mp (mem_coe.mp hp)
    have hrange := of_decide_eq_true (all_eq_true.mp hram q hq)
    rw [← page_toNat] at hrange
    exact ⟨q, rfl, hrange⟩
  small := by rwa [coe_card, length_map]

/-- `kalloc` takes a page of the system. -/
theorem Pool.kalloc {kend : Nat} {L H : Multiset (BitVec 64)} {s : St} (hL : Pool kend L)
    (hpool : L = s.free + H) :
    s.free = [] ∧ Vm.kalloc s = (0, s) ∨ ∃ q s', Vm.kalloc s = (page q, s') ∧ page q ≠ 0 ∧
      s.free = page q :: s'.free ∧ L = s'.free + ({page q} + H) ∧
      ∀ x ≠ q, heap s'.mem x = heap s.mem x := by
  cases hl : s.free with
  | nil => exact .inl ⟨rfl, by simp [Vm.kalloc, hl]⟩
  | cons p l =>
    have hmem : p ∈ L := by
      rw [hpool, hl]
      exact mem_add.mpr (.inl mem_cons_self)
    obtain ⟨q, rfl, hram⟩ := hL.ram p hmem
    refine .inr ⟨q, ⟨memset s.mem (page q) 0x0505050505050505, l⟩, by simp [Vm.kalloc, hl],
      fun hz => hram.ne_zero hL.kend_pos (page_inj (hz.trans rfl)), rfl, ?_, fun x hx => ?_⟩
    · rw [hpool, hl, ← cons_coe, ← singleton_add]
      abel
    · rw [heap_memset, update_of_ne hx]

/-- Every page of `L` is free, or held by others, or belongs to the address space. -/
structure Owns (L : Multiset (BitVec 64)) (held : List (BitVec 64)) (A : View) (s : St) :
    Prop where
  space : Space s A.root A.tables A.entry
  leaf : ∀ e ∈ A.user, IsLeaf e
  pool : L = s.free + held + A.tables.map page + A.user.map PTE2PA

namespace Owns

variable {kend : Nat} {L : Multiset (BitVec 64)} {held : List (BitVec 64)} {A : View} {s s' : St}
  {q x : BitVec 52} {m : Nat}

theorem mem_pool (h : Owns L held A s) {p : BitVec 64} : p ∈ L ↔
    ((p ∈ s.free ∨ p ∈ held) ∨ p ∈ A.tables.map page) ∨ p ∈ A.user.map PTE2PA := by
  rw [h.pool]
  simp only [mem_add, mem_coe]

section
variable (hL : Pool kend L) (h : Owns L held A s)
include hL h

theorem user_length : A.user.length ≤ 2 ^ 15 := by
  have hc : L.card ≤ 2 ^ 15 := hL.small
  rw [h.pool] at hc
  simp only [card_add, coe_card, length_map] at hc
  omega

theorem user_lt : A.user.length < NPAGES - 2 :=
  lt_of_le_of_lt (h.user_length hL) (by decide)

theorem nodup : (s.free ++ held ++ A.tables.map page ++ A.user.map PTE2PA).Nodup := by
  have hn := hL.nodup
  rwa [h.pool] at hn

theorem freePages : FreePages A.tables s := by
  have hn := h.nodup hL
  rw [append_assoc, append_assoc] at hn
  obtain ⟨hfree, -, hdisj⟩ := nodup_append.mp hn
  refine ⟨hfree, fun p hp => ?_⟩
  obtain ⟨q, rfl, hram⟩ := hL.ram p (h.mem_pool.mpr (.inl (.inl (.inl hp))))
  exact ⟨q, rfl, hram.ne_zero hL.kend_pos, fun hq =>
    hdisj _ hp _ (by simp [mem_map_of_mem hq]) rfl⟩

theorem table_not_free (hq : q ∈ A.tables) : page q ∉ s.free := fun hm => by
  obtain ⟨q', hqq, -, hq'⟩ := (h.freePages hL).page (page q) hm
  exact hq' (page_inj hqq ▸ hq)

theorem tables_ram (hq : q ∈ A.tables) : InRam kend q := by
  obtain ⟨q', hqq, hram⟩ := hL.ram (page q)
    (h.mem_pool.mpr (.inl (.inr (mem_map_of_mem hq))))
  rwa [page_inj hqq]

/-- A page that others hold is no page-table page. -/
theorem held_not_table (hq : page q ∈ held) : q ∉ A.tables := fun hm => by
  have hn := (nodup_append.mp (h.nodup hL)).1
  exact (nodup_append.mp hn).2.2 _ (mem_append_right _ hq) _ (mem_map_of_mem hm) rfl

theorem held_not_free {p : BitVec 64} (hp : p ∈ held) : p ∉ s.free := fun hm => by
  have hn := (nodup_append.mp (nodup_append.mp (h.nodup hL)).1).1
  exact (nodup_append.mp hn).2.2 p hm p hp rfl

theorem user_page {e : BitVec 64} (he : e ∈ A.user) : ppn e ∉ A.tables ∧ InRam kend (ppn e) := by
  constructor
  · intro hm
    refine (nodup_append.mp (h.nodup hL)).2.2 (page (ppn e)) ?_ _ (mem_map_of_mem he)
      (page_ppn e)
    exact mem_append_right _ (mem_map_of_mem hm)
  · obtain ⟨q, hq, hram⟩ := hL.ram (PTE2PA e) (h.mem_pool.mpr (.inr (mem_map_of_mem he)))
    rw [← page_ppn] at hq
    rwa [page_inj hq]

omit hL h in
/-- The other pages do not matter. -/
theorem congr (h : Owns L held A s) (hfree : s'.free = s.free)
    (hh : ∀ q ∈ A.tables, heap s'.mem q = heap s.mem q) : Owns L held A s' :=
  ⟨h.space.congr hh, h.leaf, by rw [hfree]; exact h.pool⟩

/-- `kalloc` takes a page, which is held from now on. -/
theorem kalloc :
    s.free = [] ∧ Vm.kalloc s = (0, s) ∨ ∃ q s', Vm.kalloc s = (page q, s') ∧ page q ≠ 0 ∧
      s.free = page q :: s'.free ∧ Owns L (page q :: held) A s' ∧
      ∀ x ≠ q, heap s'.mem x = heap s.mem x := by
  have hpool : L = s.free + (held + A.tables.map page + A.user.map PTE2PA) := by
    rw [h.pool]
    abel
  refine (hL.kalloc hpool).imp id ?_
  rintro ⟨q, s', hk, hq0, hfr, hpool', hheap⟩
  have hq : q ∉ A.tables := fun hm =>
    h.table_not_free hL hm (by rw [hfr]; exact mem_cons_self)
  refine ⟨q, s', hk, hq0, hfr, ⟨h.space.congr fun x hx => hheap x fun e => hq (e ▸ hx), h.leaf, ?_⟩,
    hheap⟩
  rw [hpool', ← cons_coe, ← singleton_add]
  abel

omit hL h in
/-- `kfree` of a page that was held. -/
theorem kfree (hL : Pool kend L) (h : Owns L (page q :: held) A s) :
    ∃ s', Vm.kfree kend (page q) s = .ok s' ∧ Owns L held A s' ∧
      ∀ x ≠ q, heap s'.mem x = heap s.mem x := by
  have hq := h.held_not_table hL mem_cons_self
  obtain ⟨q', hqq, hram⟩ := hL.ram (page q)
    (h.mem_pool.mpr (.inl (.inl (.inr mem_cons_self))))
  rw [← page_inj hqq] at hram
  obtain ⟨s', hk, hfr, hheap⟩ := kfree_page hram
  refine ⟨s', hk, ⟨h.space.congr fun x hx => hheap x fun e => hq (e ▸ hx), h.leaf, ?_⟩, hheap⟩
  rw [h.pool, hfr, ← cons_coe, ← cons_coe, ← singleton_add,
    ← singleton_add]
  abel

/-- `mappages` of one page takes up to two pages for the page table. -/
theorem mapPage {a : BitVec 64} (hva : a < MAXVA) (hal : a.toNat % PGSIZE = 0)
    (hno : A.entry (vpn a) &&& PTE_V = 0) (pa : BitVec 64) (perm : BitVec 32) :
    ∃ T r s', mappages (page A.root) a (ofNat 64 PGSIZE) pa perm s = .ok (r, s') ∧
      Grows A.tables s T s' ∧
      L = s'.free + held + T.map page + A.user.map PTE2PA ∧
      (r = 0 ∧ Space s' A.root T
          (update A.entry (vpn a) (PA2PTE pa ||| perm.signExtend 64 ||| PTE_V)) ∨
        r = -1 ∧ s'.free = [] ∧ Owns L held { A with tables := T } s') := by
  obtain ⟨new, r, s', hr, hn, htook, hend⟩ :=
    Vm.mapPage hva hal h.space (h.freePages hL) hno pa perm
  have hpool : L = s'.free + held + (new ++ A.tables).map page + A.user.map PTE2PA := by
    rw [h.pool, htook.free, map_append, ← coe_add, ← coe_add]
    abel
  refine ⟨new ++ A.tables, r, s', hr, ⟨?_, ?_, fun q hq => ?_, htook.frame⟩, hpool,
    hend.imp id fun hf => ⟨hf.1, hf.2.1, hf.2.2, h.leaf, hpool⟩⟩
  · rw [htook.free]
    exact suffix_append _ _
  · rw [htook.free, length_append, length_map]
    omega
  · rw [htook.free]
    rcases mem_append.mp hq with hq | hq
    · exact .inr (mem_append_left _ (mem_map_of_mem hq))
    · exact .inl hq

omit hL h in
/-- The page `pa` becomes the next page of the user memory. -/
theorem mapUser {pa : BitVec 64} (perm : BitVec 32) (hL : Pool kend L)
    (h : Owns L (pa :: held) A s)
    (hpa : PTE2PA (PA2PTE pa ||| perm.signExtend 64 ||| PTE_V) = pa)
    (hleaf : IsLeaf (PA2PTE pa ||| perm.signExtend 64 ||| PTE_V)) :
    ∃ T r s', mappages (page A.root) (ofNat 64 (A.user.length * PGSIZE))
        (ofNat 64 PGSIZE) pa perm s = .ok (r, s') ∧
      Grows A.tables s T s' ∧
      (r = 0 ∧ Owns L held { A with
          tables := T, user := A.user ++ [PA2PTE pa ||| perm.signExtend 64 ||| PTE_V] } s' ∨
        r = -1 ∧ s'.free = [] ∧ Owns L (pa :: held) { A with tables := T } s') := by
  have hlt := h.user_lt hL
  have hn : A.user.length < NPAGES := hlt.trans_le (Nat.sub_le _ _)
  have hno : A.entry (vpn (ofNat 64 (A.user.length * PGSIZE))) &&& PTE_V = 0 := by
    rw [vpn_uaddr hn, View.entry, if_neg (by omega), if_neg (by omega),
      getD_eq_default _ _ le_rfl]
    rfl
  obtain ⟨T, r, s', hr, hgrow, hpool, hend⟩ := h.mapPage hL (uaddr_lt hn)
    (by rw [uaddr_toNat hn, Nat.mul_mod_left]) hno pa perm
  refine ⟨T, r, s', hr, hgrow, hend.imp (fun ⟨h0, hsp⟩ => ⟨h0, ?_, ?_, ?_⟩) id⟩
  · rwa [vpn_uaddr hn, ← View.entry_push hlt] at hsp
  · intro e he
    rcases mem_append.mp he with he | he
    · exact h.leaf e he
    · rwa [mem_singleton.mp he]
  · rw [hpool, map_append, map_singleton, hpa, ← coe_add, coe_singleton,
      ← cons_coe, ← singleton_add]
    abel

/-- The user memory from the page `m` on is given back. -/
theorem unmapUser (hm : m ≤ A.user.length) {npages : BitVec 64}
    (hk : npages.toNat = A.user.length - m) :
    ∃ s', uvmunmap kend (page A.root) (ofNat 64 (m * PGSIZE)) npages true s = .ok s' ∧
      Owns L held { A with user := A.user.take m } s' ∧
      ∀ x ∉ A.tables, page x ∉ (A.user.drop m).map PTE2PA → heap s'.mem x = heap s.mem x := by
  have hlt := h.user_lt hL
  have hn : m < NPAGES := (hm.trans_lt hlt).trans_le (Nat.sub_le _ _)
  have hmk : m + (A.user.length - m) = A.user.length := by omega
  have hentry : ∀ j, vpn (ofNat 64 (m * PGSIZE)) ≤ j →
      j < vpn (ofNat 64 (m * PGSIZE)) + (A.user.length - m) →
      ∃ e ∈ A.user.drop m, A.entry j = e := fun j h1 hj => by
    rw [vpn_uaddr hn] at h1
    rw [vpn_uaddr hn, hmk] at hj
    refine ⟨_, mem_drop_iff_getElem.mpr ⟨j - m, by omega, rfl⟩, ?_⟩
    rw [View.entry_user hlt.le hj]
    simp only [Nat.add_sub_cancel' h1]
  obtain ⟨s', hs', hsp, hfr, hframe⟩ := uvmunmap_space kend true h.space hk
    (by rw [uaddr_toNat hn, Nat.mul_mod_left])
    (by
      rw [uaddr_toNat hn, ← add_mul]
      simp only [NPAGES, PGSIZE] at *
      omega)
    (fun j h1 h2 => by
      obtain ⟨e, he, heq⟩ := hentry j h1 h2
      exact heq ▸ h.leaf e (mem_of_mem_drop he))
    (fun _ j h1 h2 => by
      obtain ⟨e, he, heq⟩ := hentry j h1 h2
      exact heq ▸ h.user_page hL (mem_of_mem_drop he))
  rw [vpn_uaddr hn] at hsp hfr
  refine ⟨s', hs', ⟨?_, fun e he => h.leaf e (mem_of_mem_take he), ?_⟩,
    fun x hxT hx => ?_⟩
  · rw [View.entry_take hlt.le hmk]
    exact hsp
  · have hsplit : (A.user.map PTE2PA : Multiset (BitVec 64)) =
        (A.user.take m).map PTE2PA + (A.user.drop m).map PTE2PA := by
      rw [coe_add, ← map_append, take_append_drop]
    rw [hfr, if_pos rfl, View.freed_user hlt.le hmk, ← coe_add, Multiset.coe_reverse,
      h.pool, hsplit]
    abel
  · refine hframe x hxT fun _ j h1 h2 hxj => hx ?_
    obtain ⟨e, he, heq⟩ := hentry j h1 h2
    rw [hxj, heq, page_ppn]
    exact mem_map_of_mem he

theorem uvmdealloc {oldsz : BitVec 64} (hsz : npages oldsz = A.user.length) (newsz : BitVec 64) :
    ∃ s', Vm.uvmdealloc kend (page A.root) oldsz newsz s =
        .ok (if oldsz ≤ newsz then oldsz else newsz, s') ∧
      Owns L held { A with user := A.user.take (npages newsz) } s' ∧
      ∀ x ∉ A.tables, page x ∉ (A.user.drop (npages newsz)).map PTE2PA →
        heap s'.mem x = heap s.mem x := by
  have hlt : A.user.length < NPAGES := (h.user_lt hL).trans_le (Nat.sub_le _ _)
  -- nothing is given back if no page is given up
  have hall : A.user.length ≤ npages newsz →
      Owns L held { A with user := A.user.take (npages newsz) } s := fun hle => by
    rw [take_of_length_le hle]
    exact h
  by_cases hle : oldsz ≤ newsz
  · refine ⟨s, ?_, hall (hsz ▸ npages_mono hle), fun _ _ _ => rfl⟩
    rw [Vm.uvmdealloc, if_pos hle, if_pos hle]
    rfl
  · have hnew : npages newsz ≤ A.user.length :=
      hsz ▸ npages_mono (BitVec.le_of_lt (BitVec.not_le.mp hle))
    have hiff : ofNat 64 (npages newsz * PGSIZE) < ofNat 64 (A.user.length * PGSIZE) ↔
        npages newsz < A.user.length := by
      rw [uaddr_lt_iff (hnew.trans_lt hlt), npages_uaddr hlt]
    rw [Vm.uvmdealloc, if_neg hle, if_neg hle, PGROUNDUP_eq (hnew.trans_lt hlt),
      PGROUNDUP_eq (hsz ▸ hlt), hsz]
    by_cases hfew : npages newsz < A.user.length
    · obtain ⟨s', hs', h', hframe⟩ := h.unmapUser hL hnew (npages_int hnew hlt.le)
      refine ⟨s', ?_, h', hframe⟩
      rw [if_pos (hiff.mpr hfew)]
      simp only [hs']
      rfl
    · exact ⟨s, if_neg fun hc => hfew (hiff.mp hc), hall (not_lt.mp hfew), fun _ _ _ => rfl⟩

end

/-! ## `uvmalloc` -/

/-- Pages are added to the user memory. -/
def batch (kend : Nat) (A : View) (s : St) (data : Nat → BitVec 9 → BitVec 64)
    (flags : Nat → BitVec 64) : Batch where
  kend := kend
  start := s
  root := A.root
  tables := A.tables
  map := A.entry
  first := A.user.length
  data := data
  flags := flags

variable {data : Nat → BitVec 9 → BitVec 64} {flags : Nat → BitVec 64}

section
variable (hL : Pool kend L) (h : Owns L held A s)
include hL h

theorem supply : Supply kend A.tables s := by
  refine ⟨hL.kend_pos, (h.freePages hL).nodup, fun p hp => ?_⟩
  obtain ⟨q, rfl, hram⟩ := hL.ram p (h.mem_pool.mpr (.inl (.inl (.inl hp))))
  exact ⟨q, rfl, hram, fun hm => h.table_not_free hL hm hp⟩

theorem ready : (batch kend A s data flags).Ready :=
  ⟨h.space, h.supply hL⟩

/-- There are few pages, so the user memory does not reach the trapframe. -/
theorem room : A.user.length + s.free.length ≤ 2 ^ 15 := by
  have hc : L.card ≤ 2 ^ 15 := hL.small
  rw [h.pool] at hc
  simp only [card_add, coe_card, length_map] at hc
  omega

theorem of_added {N : List (BitVec 52)} {es : List (BitVec 64)}
    (ha : Added (batch kend A s data flags) [] N es s') :
    Owns L held { A with tables := N ++ A.tables, user := A.user ++ es } s' := by
  have hroom := h.room hL
  have hlen : s'.free.length + 0 + N.length + es.length = s.free.length := ha.length_le
  have hN : NPAGES = 2 ^ 26 := rfl
  refine ⟨?_, fun e he => (mem_append.mp he).elim (h.leaf e) (ha.leaf e), ?_⟩
  · rw [View.entry_append (A := { A with tables := N ++ A.tables }) (by simp only; omega)]
    exact ha.space
  · have hp : (s.free : Multiset (BitVec 64)) = _ := coe_eq_coe.mpr ha.pages
    rw [h.pool, hp, map_append, map_append]
    simp only [← coe_add]
    abel

theorem of_undone {N : List (BitVec 52)} {k : Nat} (hu : Undone (batch kend A s data flags) N k s')
    :
    Owns L held { A with tables := N ++ A.tables } s' := by
  have hroom := h.room hL
  have hN : NPAGES = 2 ^ 26 := rfl
  have hk : k ≤ s.free.length := hu.few
  have hclear : cleared A.entry A.user.length k = A.entry := by
    funext j
    refine (ite_congr rfl (fun hj => ?_) fun _ => rfl).trans (ite_self _)
    exact (View.entry_beyond hj.1 (by omega)).symm
  have hsp : Space s' A.root (N ++ A.tables) (cleared A.entry A.user.length k) := hu.space
  rw [hclear] at hsp
  refine ⟨hsp, h.leaf, ?_⟩
  have hp : (s.free : Multiset (BitVec 64)) = _ := coe_eq_coe.mpr hu.pages
  rw [h.pool, hp, map_append]
  simp only [← coe_add]
  abel

/-- `uvmalloc` to a size that is not smaller. -/
theorem grow {oldsz newsz : BitVec 64} (hsz : npages oldsz = A.user.length) (hle : oldsz ≤ newsz) :
    ∃ r s', Vm.uvmalloc kend (page A.root) oldsz newsz s = .ok (r, s') ∧
      ((r = newsz ∧ ∃ N es, A.user.length + es.length = npages newsz ∧
          Added (batch kend A s (fun _ _ => 0) fun _ => USER_FLAGS) [] N es s' ∧
          Owns L held { A with tables := N ++ A.tables, user := A.user ++ es } s') ∨
        r = 0 ∧ 0 < newsz ∧ ∃ N k,
          Undone (batch kend A s (fun _ _ => 0) fun _ => USER_FLAGS) N k s' ∧
          Owns L held { A with tables := N ++ A.tables } s') := by
  have hroom := h.room hL
  have hN : NPAGES = 2 ^ 26 := rfl
  have hcap : A.user.length + s.free.length < NPAGES := by omega
  obtain ⟨r, s', hr, hend⟩ := uvmalloc_added newsz (h.ready hL)
    (fun _ => rfl) (fun _ => rfl) hcap (.inr le_rfl)
    (fun j h1 h2 => by
      have : A.entry j = 0 := View.entry_beyond h1 (by omega)
      simp only [batch, this]
      rfl)
    hsz hle (by simp only [batch]; omega)
  refine ⟨r, s', hr, hend.imp ?_ ?_⟩
  · rintro ⟨h0, N, es, hlen, ha⟩
    exact ⟨h0, N, es, hlen, ha, h.of_added hL ha⟩
  · rintro ⟨h0, hpos, N, k, -, -, hu⟩
    exact ⟨h0, hpos, N, k, hu, h.of_undone hL hu⟩

/-- `uvmalloc`, and the size that its callers keep. -/
theorem uvmalloc {oldsz : BitVec 64} (hsz : npages oldsz = A.user.length) (newsz : BitVec 64) :
    ∃ T us r s', Vm.uvmalloc kend (page A.root) oldsz newsz s = .ok (r, s') ∧
      Owns L held { A with tables := T, user := us } s' ∧
      npages (if r = 0 then oldsz else r) = us.length ∧
      ∀ x, page x ∈ held → heap s'.mem x = heap s.mem x := by
  by_cases hnew : newsz < oldsz
  · refine ⟨A.tables, A.user, oldsz, s, if_pos hnew, h, ?_, fun _ _ => rfl⟩
    rwa [ite_self]
  · have hle : oldsz ≤ newsz := BitVec.not_lt.mp hnew
    obtain ⟨r, s', hr, hend⟩ := h.grow hL hsz hle
    have hframe : ∀ x, page x ∈ held → x ∉ A.tables ∧ page x ∉ s.free := fun x hx =>
      ⟨h.held_not_table hL hx, h.held_not_free hL hx⟩
    rcases hend with ⟨rfl, N, es, hlen, ha, h'⟩ | ⟨rfl, -, N, k, hu, h'⟩
    · refine ⟨_, _, r, s', hr, h', ?_, fun x hx => ha.frame x (hframe x hx).1 (hframe x hx).2⟩
      rw [length_append, hlen]
      split
      · next h0 =>
        rw [h0] at hle ⊢
        rw [show oldsz = 0 from BitVec.le_zero_iff.mp hle]
      · rfl
    · refine ⟨_, _, 0, s', hr, h', ?_, fun x hx => hu.frame x (hframe x hx).1 (hframe x hx).2⟩
      rw [if_pos rfl, hsz]

end

/-! ## The trampoline and the trapframe -/

/-- `uvmunmap` of one page that is not given back. -/
theorem unmapPage (kend : Nat) (h : Owns L held A s) {a : BitVec 64} (ha : a < MAXVA)
    (hal : a.toNat % PGSIZE = 0) (hleaf : IsLeaf (A.entry (vpn a))) :
    ∃ s', uvmunmap kend (page A.root) a 1 false s = .ok s' ∧ s'.free = s.free ∧
      Space s' A.root A.tables (update A.entry (vpn a) 0) ∧
      ∀ x ∉ A.tables, heap s'.mem x = heap s.mem x := by
  have hM : a.toNat + 1 * PGSIZE ≤ 2 ^ 38 := by
    have : a.toNat < 2 ^ 38 := ha
    simp only [PGSIZE] at *
    omega
  have hone : ∀ j, vpn a ≤ j → j < vpn a + 1 → j = vpn a := fun j h1 h2 => by omega
  obtain ⟨s', hs', hsp, hfr, hframe⟩ := uvmunmap_space kend false h.space
    (show (1 : BitVec 64).toNat = 1 from rfl) hal hM
    (fun j h1 h2 => hone j h1 h2 ▸ hleaf) (fun hc => absurd hc Bool.false_ne_true)
  have hclear : cleared A.entry (vpn a) 1 = update A.entry (vpn a) 0 := by
    funext j
    rw [update_apply]
    exact if_congr ⟨fun hj => hone j hj.1 hj.2, fun hj => by omega⟩ rfl rfl
  rw [hclear] at hsp
  exact ⟨s', hs', hfr, hsp, fun x hx => hframe x hx fun hc => absurd hc Bool.false_ne_true⟩

theorem unmapTrampoline (kend : Nat) (h : Owns L held A s)
    (hleaf : IsLeaf A.trampoline) :
    ∃ s', uvmunmap kend (page A.root) TRAMPOLINE 1 false s = .ok s' ∧
      Owns L held { A with trampoline := 0 } s' ∧ ∀ x ∉ A.tables, heap s'.mem x = heap s.mem x := by
  have hvpn : vpn TRAMPOLINE = NPAGES - 1 := by decide
  obtain ⟨s', hs', hfr, hsp, hframe⟩ := h.unmapPage kend (a := TRAMPOLINE) (by decide)
    (by decide) (by rwa [hvpn])
  rw [hvpn, ← View.entry_trampoline] at hsp
  exact ⟨s', hs', ⟨hsp, h.leaf, by rw [hfr]; exact h.pool⟩, hframe⟩

theorem unmapTrapframe (kend : Nat) (h : Owns L held A s)
    (hleaf : IsLeaf A.trapframe) :
    ∃ s', uvmunmap kend (page A.root) TRAPFRAME 1 false s = .ok s' ∧
      Owns L held { A with trapframe := 0 } s' ∧ ∀ x ∉ A.tables, heap s'.mem x = heap s.mem x := by
  have hvpn : vpn TRAPFRAME = NPAGES - 2 := by decide
  obtain ⟨s', hs', hfr, hsp, hframe⟩ := h.unmapPage kend (a := TRAPFRAME) (by decide)
    (by decide) (by rwa [hvpn])
  rw [hvpn, ← View.entry_trapframe] at hsp
  exact ⟨s', hs', ⟨hsp, h.leaf, by rw [hfr]; exact h.pool⟩, hframe⟩

/-- `uvmfree`, once the trampoline and the trapframe are unmapped. -/
theorem uvmfree (hL : Pool kend L) (h : Owns L held A s) {sz : BitVec 64}
    (hsz : npages sz = A.user.length) (htr : A.trampoline = 0) (htf : A.trapframe = 0) :
    ∃ s', Vm.uvmfree kend (page A.root) sz s = .ok s' ∧ L = s'.free + held ∧
      ∀ x, A.Foreign x → heap s'.mem x = heap s.mem x := by
  have hlt : A.user.length < NPAGES := (h.user_lt hL).trans_le (Nat.sub_le _ _)
  have hpos : 0 < sz ↔ 0 < npages sz := uaddr_lt_iff (n := 0) (by decide)
  -- the user memory is given back first
  obtain ⟨s1, hs1, h1, hframe1⟩ : ∃ s1, (if 0 < sz then
        uvmunmap kend (page A.root) 0 (PGROUNDUP sz / ofNat 64 PGSIZE) true s
      else pure s) = .ok s1 ∧ Owns L held { A with user := [] } s1 ∧
      ∀ x ∉ A.tables, page x ∉ A.user.map PTE2PA → heap s1.mem x = heap s.mem x := by
    by_cases h0 : 0 < sz
    · rw [if_pos h0]
      refine h.unmapUser hL (Nat.zero_le _) ?_
      rw [PGROUNDUP_eq (hsz ▸ hlt), hsz, BitVec.toNat_udiv, uaddr_toNat hlt]
      exact Nat.mul_div_cancel _ (by decide)
    · have hnil : A.user = [] := by
        rw [hpos, hsz] at h0
        exact eq_nil_of_length_eq_zero (Nat.eq_zero_of_not_pos h0)
      refine ⟨s, if_neg h0, ?_, fun _ _ _ => rfl⟩
      rw [← hnil]
      exact h
  have hzero : ∀ n, { A with user := [] }.entry n &&& PTE_V = 0 := fun n => by
    simp only [View.entry, htr, htf, getD_nil, ite_self]
    rfl
  obtain ⟨s', hs', hfr, hframe⟩ := freewalk_space h1.space hzero fun q hq => h1.tables_ram hL hq
  refine ⟨s', ?_, ?_, fun x hx => (hframe x hx.1).trans (hframe1 x hx.1 hx.2)⟩
  · rw [Vm.uvmfree]
    by_cases h0 : 0 < sz
    · rw [if_pos h0] at hs1 ⊢
      exact (except_bind_of_ok hs1).trans hs'
    · rw [if_neg h0] at hs1 ⊢
      exact (except_bind_of_ok hs1).trans hs'
  · rw [coe_eq_coe.mpr hfr, h1.pool, ← coe_add]
    abel

/-- `proc_freepagetable` gives back the pages of the address space. -/
theorem procFreepagetable (hL : Pool kend L) (h : Owns L held A s) {sz : BitVec 64}
    (hsz : npages sz = A.user.length) (htr : IsLeaf A.trampoline) (htf : IsLeaf A.trapframe) :
    ∃ s', Vm.procFreepagetable kend (page A.root) sz s = .ok s' ∧ L = s'.free + held ∧
      ∀ x, A.Foreign x → heap s'.mem x = heap s.mem x := by
  obtain ⟨s1, hs1, h1, hframe1⟩ := h.unmapTrampoline kend htr
  obtain ⟨s2, hs2, h2, hframe2⟩ := h1.unmapTrapframe kend htf
  obtain ⟨s', hs', hpool, hframe⟩ := h2.uvmfree hL hsz rfl rfl
  refine ⟨s', ?_, hpool, fun x hx => ?_⟩
  · exact (except_bind_of_ok hs1).trans ((except_bind_of_ok hs2).trans hs')
  · rw [hframe x hx, hframe2 x hx.1, hframe1 x hx.1]

/-- A page that is cleared is an empty page table. -/
theorem empty (hq : q ≠ 0) (hz : ∀ i, heap s.mem q i = 0) (hpool : L = s.free + (page q :: held)) :
    Owns L held ⟨q, [q], 0, 0, []⟩ s := by
  have hnone : ∀ i, child (heap s.mem q i) = none := fun i => by
    rw [hz]
    rfl
  have hnode : ∀ π x, node child (heap s.mem) q π = some x → π = [] ∧ x = q := fun π x hx => by
    cases π with
    | nil => exact ⟨rfl, (Option.some.inj hx).symm⟩
    | cons i π =>
      rw [node, hnone] at hx
      cases hx
  refine ⟨⟨⟨fun π π' p _ _ hp hp' => ?_, fun π _ hp => ?_⟩, nodup_singleton q, fun x => ?_, ?_,
    fun v => ?_⟩, fun e he => absurd he not_mem_nil, ?_⟩
  · rw [(hnode π p hp).1, (hnode π' p hp').1]
  · exact hq (hnode π 0 hp).2.symm
  · rw [mem_singleton]
    constructor
    · rintro rfl
      exact reaches_self
    · rintro ⟨π, -, hx⟩
      exact (hnode π x hx).2
  · intro π p i _ hp hv
    rw [(hnode π p hp).2, hz] at hv
    exact absurd rfl hv
  · have hentry : (⟨q, [q], 0, 0, []⟩ : View).entry (vpn v) = 0 := by
      simp [View.entry]
    rw [hentry, Vm.leaf, lookup, dirs, node, hnone]
    rfl
  · rw [hpool, ← cons_coe, ← singleton_add]
    simp only [map_cons, map_nil, coe_singleton]
    abel

/-- The entries of the two pages that `proc_pagetable` maps. -/
def trampolineEntry (trampoline : BitVec 64) : BitVec 64 :=
  PA2PTE trampoline ||| ((PTE_R ||| PTE_X).setWidth 32 : BitVec 32).signExtend 64 ||| PTE_V

def trapframeEntry (trapframe : BitVec 64) : BitVec 64 :=
  PA2PTE trapframe ||| ((PTE_R ||| PTE_W).setWidth 32 : BitVec 32).signExtend 64 ||| PTE_V

theorem isLeaf_trampolineEntry (pa : BitVec 64) : IsLeaf (trampolineEntry pa) := by
  rw [trampolineEntry, BitVec.or_assoc]
  exact isLeaf_entry (by decide)

theorem isLeaf_trapframeEntry (pa : BitVec 64) : IsLeaf (trapframeEntry pa) := by
  rw [trapframeEntry, BitVec.or_assoc]
  exact isLeaf_entry (by decide)

theorem mapTrampoline (hL : Pool kend L) (h : Owns L held A s) (h0 : A.trampoline = 0)
    (pa : BitVec 64) :
    ∃ T r s', mappages (page A.root) TRAMPOLINE (ofNat 64 PGSIZE) pa
        ((PTE_R ||| PTE_X).setWidth 32) s = .ok (r, s') ∧
      Grows A.tables s T s' ∧
      (r = 0 ∧ Owns L held { A with tables := T, trampoline := trampolineEntry pa } s' ∨
        r = -1 ∧ s'.free = [] ∧ Owns L held { A with tables := T } s') := by
  have hvpn : vpn TRAMPOLINE = NPAGES - 1 := by decide
  obtain ⟨T, r, s', hr, hgrow, hpool, hend⟩ := h.mapPage hL (a := TRAMPOLINE) (by decide)
    (by decide) (by rw [hvpn, View.entry, if_pos rfl, h0]; rfl) pa ((PTE_R ||| PTE_X).setWidth 32)
  refine ⟨T, r, s', hr, hgrow, hend.imp (fun ⟨hr0, hsp⟩ => ⟨hr0, ?_, h.leaf, hpool⟩) id⟩
  rwa [hvpn, ← View.entry_trampoline] at hsp

theorem mapTrapframe (hL : Pool kend L) (h : Owns L held A s) (h0 : A.trapframe = 0)
    (pa : BitVec 64) :
    ∃ T r s', mappages (page A.root) TRAPFRAME (ofNat 64 PGSIZE) pa
        ((PTE_R ||| PTE_W).setWidth 32) s = .ok (r, s') ∧
      Grows A.tables s T s' ∧
      (r = 0 ∧ Owns L held { A with tables := T, trapframe := trapframeEntry pa } s' ∨
        r = -1 ∧ s'.free = [] ∧ Owns L held { A with tables := T } s') := by
  have hvpn : vpn TRAPFRAME = NPAGES - 2 := by decide
  obtain ⟨T, r, s', hr, hgrow, hpool, hend⟩ := h.mapPage hL (a := TRAPFRAME) (by decide)
    (by decide) (by rw [hvpn, View.entry, if_neg (by decide), if_pos rfl, h0]; rfl) pa
    ((PTE_R ||| PTE_W).setWidth 32)
  refine ⟨T, r, s', hr, hgrow, hend.imp (fun ⟨hr0, hsp⟩ => ⟨hr0, ?_, h.leaf, hpool⟩) id⟩
  rwa [hvpn, ← View.entry_trapframe] at hsp

theorem uvmcreate (hL : Pool kend L) (hpool : L = s.free + held) :
    s.free = [] ∧ Vm.uvmcreate s = (0, s) ∨ ∃ q s', Vm.uvmcreate s = (page q, s') ∧ page q ≠ 0 ∧
      s.free = page q :: s'.free ∧ Owns L held ⟨q, [q], 0, 0, []⟩ s' ∧
      ∀ x ≠ q, heap s'.mem x = heap s.mem x := by
  rcases hL.kalloc hpool with ⟨hnil, hk⟩ | ⟨q, s1, hk, hq0, hfr, hpool', hheap⟩
  · exact .inl ⟨hnil, by simp [Vm.uvmcreate, hk]⟩
  · have hset : heap (memset s1.mem (page q) 0) = update (heap s1.mem) q fun _ => 0 :=
      heap_memset
    refine .inr ⟨q, { s1 with mem := memset s1.mem (page q) 0 },
      by simp only [Vm.uvmcreate, hk, if_neg hq0], hq0, hfr,
      empty (fun e => hq0 (e ▸ rfl)) (fun i => by rw [hset, update_self]) ?_,
      fun x hx => ?_⟩
    · rw [hpool', ← cons_coe, ← singleton_add]
    · rw [hset, update_of_ne hx, hheap x hx]

/-- `proc_pagetable` returns an address space with no user memory, or it gives back all pages. -/
theorem procPagetable (hL : Pool kend L) (hpool : L = s.free + held)
    (trampoline trapframe : BitVec 64) :
    ∃ r s', Vm.procPagetable kend trampoline trapframe s = .ok (r, s') ∧
      (∀ x, page x ∉ s.free → heap s'.mem x = heap s.mem x) ∧
      (r = 0 ∧ s.free.length ≤ 5 ∧ L = s'.free + held ∨ r ≠ 0 ∧ ∃ A, r = page A.root ∧
        A.user = [] ∧ A.trampoline = trampolineEntry trampoline ∧
        A.trapframe = trapframeEntry trapframe ∧ (∀ q ∈ A.tables, page q ∈ s.free) ∧
        s'.free <:+ s.free ∧ s.free.length ≤ s'.free.length + 5 ∧ Owns L held A s') := by
  rw [Vm.procPagetable]
  rcases uvmcreate hL hpool with ⟨hnil, hc⟩ | ⟨q, s1, hc, hq0, hfr1, h1, hframe1⟩
  · refine ⟨0, s, ?_, fun _ _ => rfl, .inl ⟨rfl, by simp [hnil], hpool⟩⟩
    simp only [hc]
    rfl
  simp only [hc, if_neg hq0]
  have hlen1 : s.free.length = s1.free.length + 1 := congrArg length hfr1
  have hsub1 : s1.free <:+ s.free := hfr1 ▸ suffix_cons _ _
  have hfree1 : ∀ x ∈ [q], page x ∈ s.free := fun x hx => by
    rw [mem_singleton.mp hx, hfr1]
    exact mem_cons_self
  obtain ⟨T2, r2, s2, hr2, hg2, hend2⟩ := h1.mapTrampoline hL rfl trampoline
  have hlen2 := hg2.few
  have hfree2 : ∀ x ∈ T2, page x ∈ s.free := fun x hx =>
    (hg2.tables x hx).elim (hfree1 x) fun hm => hsub1.subset hm
  have hframe2 : ∀ x, page x ∉ s.free → heap s2.mem x = heap s.mem x := fun x hx => by
    rw [hg2.frame x (fun hm => hx (hfree1 x hm)) fun hm => hx (hsub1.subset hm),
      hframe1 x fun e => hx (hfree1 x (mem_singleton.mpr e))]
  rcases hend2 with ⟨rfl, h2⟩ | ⟨rfl, hnil, h2⟩
  · obtain ⟨T3, r3, s3, hr3, hg3, hend3⟩ := h2.mapTrapframe hL rfl trapframe
    have hlen3 := hg3.few
    have hsub2 : s2.free <:+ s.free := hg2.suffix.trans hsub1
    have hfree3 : ∀ x ∈ T3, page x ∈ s.free := fun x hx =>
      (hg3.tables x hx).elim (hfree2 x) fun hm => hsub2.subset hm
    have hframe3 : ∀ x, page x ∉ s.free → heap s3.mem x = heap s.mem x := fun x hx => by
      rw [hg3.frame x (fun hm => hx (hfree2 x hm)) fun hm => hx (hsub2.subset hm), hframe2 x hx]
    rcases hend3 with ⟨rfl, h3⟩ | ⟨rfl, hnil, h3⟩
    · refine ⟨page q, s3, ?_, hframe3, .inr ⟨hq0,
        ⟨q, T3, trampolineEntry trampoline, trapframeEntry trapframe, []⟩, rfl, rfl, rfl, rfl,
        hfree3, hg3.suffix.trans hsub2, by omega, h3⟩⟩
      refine (except_bind_of_ok hr2).trans ((if_neg (lt_irrefl 0)).trans ?_)
      exact (except_bind_of_ok hr3).trans ((if_neg (lt_irrefl 0)).trans rfl)
    · -- the trampoline is unmapped, and the page table given back
      obtain ⟨s4, hs4, h4, hframe4⟩ := h3.unmapTrampoline kend (isLeaf_trampolineEntry trampoline)
      obtain ⟨s', hs', hpool', hframe'⟩ := h4.uvmfree hL npages_zero rfl rfl
      refine ⟨0, s', ?_, fun x hx => ?_, .inl ⟨rfl, ?_, hpool'⟩⟩
      · refine (except_bind_of_ok hr2).trans ((if_neg (lt_irrefl 0)).trans ?_)
        refine (except_bind_of_ok hr3).trans ((if_pos (Int.negSucc_lt_zero 0)).trans ?_)
        exact (except_bind_of_ok hs4).trans (except_bind_of_ok hs')
      · have hxT : x ∉ T3 := fun hm => hx (hfree3 x hm)
        rw [hframe' x ⟨hxT, not_mem_nil⟩, hframe4 x hxT, hframe3 x hx]
      · rw [hnil, length_nil] at hlen3
        omega
  · obtain ⟨s', hs', hpool', hframe'⟩ := h2.uvmfree hL npages_zero rfl rfl
    refine ⟨0, s', ?_, fun x hx => ?_, .inl ⟨rfl, ?_, hpool'⟩⟩
    · refine (except_bind_of_ok hr2).trans ((if_pos (Int.negSucc_lt_zero 0)).trans ?_)
      exact except_bind_of_ok hs'
    · rw [hframe' x ⟨fun hm => hx (hfree2 x hm), not_mem_nil⟩, hframe2 x hx]
    · rw [hnil, length_nil] at hlen2
      omega

end Owns

end Xv6.Vm
