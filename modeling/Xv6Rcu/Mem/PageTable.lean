import Xv6Rcu.Mem.Vm

/-!
# Page tables are finite maps

- `Table s root`: the page-table pages below `root` form a tree. `FreshFree s root`: the free pages
  are none of them.
- `leaf s root va`: the level-0 entry of `va`, or 0 if there is none. `translate s root va`: the
  page and the flags that it maps `va` to.
- `walkFrom_walked`: `walk` keeps all entries and finds the slot of the entry of `va`, creating
  pages on the way. `mappagesLoop_mapped` and `uvmunmapLoop_unmapped`: what the loops write.
- `page_table_refines`: the operations are those of a finite map on pages.
-/

namespace Xv6.Vm

open Lib Trie Function
open BitVec (le_def lt_def not_le ofNat toNat_add toNat_ofNat)
open List hiding lookup

/-- The page-table pages form a tree, and none of them is `NULL`. -/
structure Table (s : St) (root : BitVec 52) : Prop where
  tree : Tree child (heap s.mem) root 2
  nonnull : Fresh child (heap s.mem) root 2 0

/-- The pages that `kalloc` will return are fresh. -/
structure FreshFree (s : St) (root : BitVec 52) : Prop where
  nodup : s.free.Nodup
  fresh : ∀ p ∈ s.free, p ≠ 0 ∧ ∃ q, p = page q ∧ Fresh child (heap s.mem) root 2 q

/-- The indices of `va` from `level` on, except the last one. -/
def dirs (va : BitVec 64) : Nat → List (BitVec 9)
  | 0 => []
  | level + 1 => PX (level + 1) va :: dirs va level

def leaf (s : St) (root : BitVec 52) (va : BitVec 64) : BitVec 64 :=
  (lookup child (heap s.mem) root (dirs va 2) (PX 0 va)).getD 0

/-- The page that `va` is mapped to, with the flags: its entry is valid and can be used. -/
def translate (s : St) (root : BitVec 52) (va : BitVec 64) : Option (BitVec 64 × BitVec 64) :=
  let e := leaf s root va
  if e &&& PTE_V ≠ 0 ∧ e &&& (PTE_R ||| PTE_W ||| PTE_X) ≠ 0 then some (PTE2PA e, PTE_FLAGS e)
  else none

variable {s s' : St} {root p q : BitVec 52} {π : List (BitVec 9)} {i : BitVec 9} {e : BitVec 64}
  {va : BitVec 64}

theorem child_eq_some (h : e &&& PTE_V ≠ 0) : ∃ q, child e = some q ∧ page q = PTE2PA e :=
  ⟨_, if_pos h, page_child e⟩

theorem child_eq_none (h : ¬ e &&& PTE_V ≠ 0) : child e = none := if_neg h

theorem leaf_eq (hq : node child (heap s.mem) root (dirs va 2) = some q) :
    leaf s root va = heap s.mem q (PX 0 va) := by
  unfold leaf lookup
  rw [hq]
  rfl

theorem dirs_congr {a b : BitVec 64} (h : pageNo a = pageNo b) (level : Nat) :
    dirs a level = dirs b level := by
  induction level with
  | zero => rfl
  | succ level ih => rw [dirs, dirs, ih, PX_congr h]

theorem pageNo_eq_iff {a b : BitVec 64} (ha : a < MAXVA) (hb : b < MAXVA) :
    pageNo a = pageNo b ↔ dirs a 2 = dirs b 2 ∧ PX 0 a = PX 0 b := by
  refine ⟨fun h => ⟨dirs_congr h 2, PX_congr h 0⟩, fun ⟨h, h0⟩ => PX_inj ha hb fun level hl => ?_⟩
  simp only [dirs, cons.injEq, and_true] at h
  match level, hl with
  | 0, _ => exact h0
  | 1, _ => exact h.2
  | 2, _ => exact h.1

/-! ## A new page-table page -/

/-- What `walk` does with a page from `kalloc`. -/
theorem Table.link (ht : Table s root) (hf : FreshFree s root) {l : List (BitVec 64)}
    (hl : s.free = page q :: l) (hp : node child (heap s.mem) root π = some p) (hd : π.length < 2)
    (hc : child (heap s.mem p i) = none)
    (hs : s' = St.write ⟨memset (memset s.mem (page q) 0x0505050505050505) (page q) 0, l⟩
      (slot (page p) i) (PA2PTE (page q) ||| PTE_V)) :
    Table s' root ∧ FreshFree s' root ∧ (∀ v, leaf s' root v = leaf s root v) ∧
      node child (heap s'.mem) root (π ++ [i]) = some q ∧
      ∀ π' p', π'.length ≤ 2 → node child (heap s.mem) root π' = some p' →
        node child (heap s'.mem) root π' = some p' := by
  obtain ⟨hq0, q', hqq, hq⟩ := hf.fresh (page q) (by rw [hl]; exact mem_cons_self)
  obtain rfl := page_inj hqq
  have hnd := hf.nodup
  rw [hl] at hnd
  have hheap : heap s'.mem = set (update (heap s.mem) q fun _ => 0) p i
      (PA2PTE (page q) ||| PTE_V) := by
    rw [hs, heap_write, heap_memset, heap_memset, update_idem]
  -- the zeroed page is still fresh
  have ht1 := ht.tree.update hq (f := fun _ => 0)
  have hq1 := hq.update hq (f := fun _ => 0)
  have hp1 := (node_update_fresh hq (f := fun _ => 0) hd.le).trans hp
  have hpq : p ≠ q := by
    rintro rfl
    exact hq π hd.le hp
  have hc1 : child (update (heap s.mem) q (fun _ => 0) p i) = none := by
    rw [update_of_ne hpq]
    exact hc
  have hz : ∀ j, child (update (heap s.mem) q (fun _ => 0) q j) = none := by
    intro j
    rw [update_self]
    rfl
  have he := child_link q
  have hnone : node child (heap s.mem) root (π ++ [i]) = none := (node_snoc hp i).trans hc
  refine ⟨⟨?_, ?_⟩, ⟨?_, fun x hx => ?_⟩, fun v => ?_, ?_, fun π' p' hπ' hp' => ?_⟩
  · rw [hheap]
    exact ht1.link hp1 hd hc1 hq1 hz he
  · rw [hheap]
    refine Fresh.link ht1 hp1 hd hc1 hq1 hz he ?_ (hq.update ht.nonnull)
    rintro rfl
    exact hq0 rfl
  · rw [hs]
    exact (nodup_cons.mp hnd).2
  · rw [hs] at hx
    obtain ⟨hx0, r, rfl, hr⟩ := hf.fresh x (by rw [hl]; exact mem_cons_of_mem _ hx)
    refine ⟨hx0, r, rfl, ?_⟩
    rw [hheap]
    refine Fresh.link ht1 hp1 hd hc1 hq1 hz he ?_ (hq.update hr)
    rintro rfl
    exact (nodup_cons.mp hnd).1 hx
  · unfold leaf
    rw [hheap, lookup_link ht1 hp1 hd hc1 hq1 hz he rfl, lookup_update_fresh hq (le_refl 2)]
    split
    · next hdirs =>
      rw [hdirs, update_self]
      unfold lookup
      rw [hnone]
      rfl
    · rfl
  · rw [hheap, node_link ht1 hp1 hd hc1 hq1 hz he (by simp; omega), if_pos rfl]
  · rw [hheap, node_link ht1 hp1 hd hc1 hq1 hz he hπ', node_update_fresh hq hπ', if_neg, hp']
    rintro rfl
    rw [hnone] at hp'
    cases hp'

/-! ## `walk` -/

/-- `walk` has returned `r`, in the state `s'`. -/
structure Walked (s : St) (root : BitVec 52) (va : BitVec 64) (alloc : Bool) (r : BitVec 64)
    (s' : St) : Prop where
  table : Table s' root
  fresh : FreshFree s' root
  leaf : ∀ v, leaf s' root v = leaf s root v
  keep : ∀ π p, π.length ≤ 2 → node child (heap s.mem) root π = some p →
    node child (heap s'.mem) root π = some p
  slot : r ≠ 0 → ∃ q, node child (heap s'.mem) root (dirs va 2) = some q ∧
    r = slot (page q) (PX 0 va)
  same : alloc = false → s' = s
  fail : r = 0 → alloc = false ∧ node child (heap s.mem) root (dirs va 2) = none ∨
    alloc = true ∧ s'.free = []

theorem walkFrom_walked {alloc : Bool} {level : Nat} (ht : Table s root) (hf : FreshFree s root)
    (hp : node child (heap s.mem) root π = some p) (hlen : π.length + level = 2)
    (hπ : π ++ dirs va level = dirs va 2) :
    Walked s root va alloc (walkFrom va alloc level (page p) s).1
      (walkFrom va alloc level (page p) s).2 := by
  induction level generalizing s p π with
  | zero =>
    rw [dirs, append_nil] at hπ
    have hp0 : p ≠ 0 := by
      rintro rfl
      exact ht.nonnull π (by omega) hp
    exact ⟨ht, hf, fun _ => rfl, fun _ _ _ => id, fun _ => ⟨p, hπ ▸ hp, rfl⟩, fun _ => rfl,
      fun h => absurd h (slot_ne_zero hp0)⟩
  | succ level ih =>
    rw [walkFrom]
    have hstep := (append_assoc π [PX (level + 1) va] (dirs va level)).trans hπ
    have hlen' : (π ++ [PX (level + 1) va]).length + level = 2 := by
      rw [length_append, length_singleton]
      omega
    have hsnoc := node_snoc hp (PX (level + 1) va)
    split
    · next hv =>
      obtain ⟨q, hq, hpq⟩ := child_eq_some hv
      rw [← hpq]
      exact ih ht hf (hsnoc.trans hq) hlen' hstep
    · next hv =>
      have hc : child (heap s.mem p (PX (level + 1) va)) = none := child_eq_none hv
      cases alloc with
      | false =>
        refine ⟨ht, hf, fun _ => rfl, fun _ _ _ => id, fun h => absurd rfl h, fun _ => rfl,
          fun _ => .inl ⟨rfl, ?_⟩⟩
        rw [← hstep, node_append, hsnoc, hc]
        rfl
      | true =>
        cases hl : s.free with
        | nil =>
          simp only [kalloc, hl]
          exact ⟨ht, hf, fun _ => rfl, fun _ _ _ => id, fun h => absurd rfl h,
            Bool.noConfusion, fun _ => .inr ⟨rfl, hl⟩⟩
        | cons x l =>
          obtain ⟨hx0, q, rfl, -⟩ := hf.fresh x (by rw [hl]; exact mem_cons_self)
          simp only [kalloc, hl, if_neg hx0]
          obtain ⟨ht', hf', hleaf, hq, hkeep⟩ := ht.link hf hl hp (by omega) hc rfl
          have hw := ih ht' hf' hq hlen' hstep
          exact ⟨hw.table, hw.fresh, fun v => (hw.leaf v).trans (hleaf v),
            fun π p hπ hp => hw.keep π p hπ (hkeep π p hπ hp), hw.slot,
            Bool.noConfusion,
            fun h => (hw.fail h).elim (fun h => Bool.noConfusion h.1) .inr⟩

theorem walk_walked (hva : va < MAXVA) (alloc : Bool) (ht : Table s root) (hf : FreshFree s root) :
    ∃ r s', walk (page root) va alloc s = .ok (r, s') ∧
      Walked s root va alloc r s' := by
  refine ⟨_, _, ?_, walkFrom_walked (π := []) ht hf rfl (zero_add 2) rfl⟩
  rw [walk, if_neg (not_le.mpr hva)]

/-- The entry in the slot that `walk` returns. -/
theorem Walked.mem_eq {r : BitVec 64} {alloc : Bool} (hw : Walked s root va alloc r s') (hr : r ≠ 0)
    :
    s'.mem r = Vm.leaf s root va := by
  obtain ⟨q, hq, rfl⟩ := hw.slot hr
  rw [← hw.leaf, leaf_eq hq]
  rfl

/-! ## Writing an entry -/

section Write
variable {a : BitVec 64} (hq : node child (heap s.mem) root (dirs a 2) = some q)
include hq

theorem fresh_write (ht : Table s root) (hp : Fresh child (heap s.mem) root 2 p) :
    Fresh child (heap (s.write (Vm.slot (page q) (PX 0 a)) e).mem) root 2 p := by
  intro π hπ
  rw [heap_write, node_set_leaf ht.tree hq rfl hπ]
  exact hp π hπ

theorem Table.write (ht : Table s root) :
    Table (s.write (Vm.slot (page q) (PX 0 a)) e) root := by
  refine ⟨?_, fresh_write hq ht ht.nonnull⟩
  rw [heap_write]
  exact ht.tree.congr fun π hπ => node_set_leaf ht.tree hq rfl hπ

theorem FreshFree.write (ht : Table s root) (hf : FreshFree s root) :
    FreshFree (s.write (Vm.slot (page q) (PX 0 a)) e) root := by
  refine ⟨hf.nodup, fun x hx => ?_⟩
  obtain ⟨hx0, r, hr, hfr⟩ := hf.fresh x hx
  exact ⟨hx0, r, hr, fresh_write hq ht hfr⟩

theorem leaf_write (ht : Table s root) (ha : a < MAXVA) {v : BitVec 64} (hv : v < MAXVA) :
    leaf (s.write (Vm.slot (page q) (PX 0 a)) e) root v =
      if pageNo v = pageNo a then e else leaf s root v := by
  unfold leaf
  rw [heap_write, lookup_set_leaf ht.tree hq rfl rfl]
  by_cases h : pageNo v = pageNo a
  · rw [if_pos h, if_pos ((pageNo_eq_iff hv ha).mp h)]
    rfl
  · rw [if_neg h, if_neg fun h' => h ((pageNo_eq_iff hv ha).mpr h')]

end Write

/-! ## `mappages` -/

variable {perm : BitVec 32} {a pa v va : BitVec 64} {kend n : Nat}

/-- One round of `mappages`, which writes the entry `w` for `a`. -/
theorem mapRound (ha : a < MAXVA) (w : BitVec 64) (ht : Table s root) (hf : FreshFree s root) :
    ∃ r s', walk (page root) a true s = .ok (r, s') ∧
      (r = 0 ∧ Table s' root ∧ FreshFree s' root ∧ s'.free = [] ∧
        (∀ v, leaf s' root v = leaf s root v) ∨
      r ≠ 0 ∧ s'.mem r = leaf s root a ∧ Table (s'.write r w) root ∧
        FreshFree (s'.write r w) root ∧ ∀ v < MAXVA, leaf (s'.write r w) root v =
          if pageNo v = pageNo a then w else leaf s root v) := by
  obtain ⟨r, s', hr, hw⟩ := walk_walked ha true ht hf
  refine ⟨r, s', hr, ?_⟩
  by_cases h0 : r = 0
  · refine .inl ⟨h0, hw.table, hw.fresh, ?_, hw.leaf⟩
    exact ((hw.fail h0).resolve_left fun h => nomatch h.1).2
  · refine .inr ⟨h0, hw.mem_eq h0, ?_⟩
    obtain ⟨q, hq, rfl⟩ := hw.slot h0
    refine ⟨hw.table.write hq, hw.fresh.write hq hw.table, fun v hv => ?_⟩
    rw [leaf_write hq hw.table ha hv, hw.leaf]

/-- Whatever its arguments are, `mappages` keeps the tree. -/
theorem mappagesLoop_table {last : BitVec 64} {r : Int} (ht : Table s root) (hf : FreshFree s root)
    (hm : mappagesLoop (page root) last perm n a pa s = .ok (r, s')) :
    Table s' root ∧ FreshFree s' root := by
  induction n generalizing a pa s with
  | zero => cases hm
  | succ n ih =>
    rw [mappagesLoop] at hm
    by_cases ha : a < MAXVA
    · obtain ⟨pte, s1, hw, hround⟩ :=
        mapRound ha (PA2PTE pa ||| perm.signExtend 64 ||| PTE_V) ht hf
      rw [hw] at hm
      rcases hround with ⟨rfl, ht1, hf1, -⟩ | ⟨h0, -, ht1, hf1, -⟩
      · cases hm
        exact ⟨ht1, hf1⟩
      · simp only [if_neg h0] at hm
        split at hm
        · cases hm
        · split at hm
          · cases hm
            exact ⟨ht1, hf1⟩
          · exact ih ht1 hf1 hm
    · rw [walk, if_pos (BitVec.not_lt.mp ha)] at hm
      cases hm

/-- The page of `v` is one of the pages of `a` to `b`. -/
def Within (a b v : BitVec 64) : Prop := pageNo a ≤ pageNo v ∧ pageNo v ≤ pageNo b

instance (a b v : BitVec 64) : Decidable (Within a b v) := inferInstanceAs (Decidable (_ ∧ _))

/-- The entry that `mappages` writes for the page `k` of its range. -/
def mapEntry (pa : BitVec 64) (perm : BitVec 32) (k : Nat) : BitVec 64 :=
  PA2PTE (pa + ofNat 64 (k * PGSIZE)) ||| perm.signExtend 64 ||| PTE_V

/-- What `mappages` does to the entries of the pages of `a` to `last`. -/
def Mapped (s : St) (root : BitVec 52) (a last pa : BitVec 64) (perm : BitVec 32) :
    Except String (Int × St) → Prop
  | .error _ => ∃ v < MAXVA, Within a last v ∧ leaf s root v &&& PTE_V ≠ 0
  | .ok (r, s') =>
    r = 0 ∧ (∀ v < MAXVA, leaf s' root v =
      if Within a last v then mapEntry pa perm (pageNo v - pageNo a) else leaf s root v) ∨
    r = -1 ∧ s'.free = [] ∧ ∀ v < MAXVA, ¬ Within a last v → leaf s' root v = leaf s root v

theorem mapEntry_zero (pa : BitVec 64) (perm : BitVec 32) :
    mapEntry pa perm 0 = PA2PTE pa ||| perm.signExtend 64 ||| PTE_V := by
  simp [mapEntry]

theorem mapEntry_succ (pa : BitVec 64) (perm : BitVec 32) (k : Nat) :
    mapEntry (pa + ofNat 64 PGSIZE) perm k = mapEntry pa perm (k + 1) := by
  unfold mapEntry
  rw [add_assoc, ← BitVec.ofNat_add, Nat.add_comm, Nat.succ_mul]

theorem mappagesLoop_mapped {last : BitVec 64} (ht : Table s root) (hf : FreshFree s root)
    (ha : a.toNat % PGSIZE = 0) (hl : last.toNat % PGSIZE = 0) (hlast : last < MAXVA)
    (hle : a ≤ last) (hn : pageNo last - pageNo a < n) :
    Mapped s root a last pa perm (mappagesLoop (page root) last perm n a pa s) := by
  induction n generalizing a pa s with
  | zero => omega
  | succ n ih =>
    have hlast' : last.toNat < 2 ^ 38 := hlast
    have hle' : a.toNat ≤ last.toNat := hle
    have haM : a < MAXVA := lt_def.mpr (lt_of_le_of_lt hle' hlast)
    simp only [PGSIZE] at ha hl
    obtain ⟨pte, s1, hw, hround⟩ := mapRound haM (PA2PTE pa ||| perm.signExtend 64 ||| PTE_V) ht hf
    rw [mappagesLoop, hw]
    rcases hround with ⟨rfl, -, -, hfree, hleaf⟩ | ⟨h0, hmem, ht1, hf1, hleaf⟩
    · exact .inr ⟨rfl, hfree, fun v _ _ => hleaf v⟩
    · simp only [if_neg h0]
      have hself : Within a last a := by
        simp only [Within, pageNo, PGSIZE]
        omega
      split
      · next hv => exact ⟨a, haM, hself, hmem ▸ hv⟩
      · next hv =>
        split
        · next hal =>
          subst hal
          refine .inl ⟨rfl, fun v hvM => ?_⟩
          rw [hleaf v hvM]
          by_cases hva : pageNo v = pageNo a
          · rw [if_pos hva, if_pos ⟨hva.ge, hva.le⟩, hva, Nat.sub_self, mapEntry_zero]
          · rw [if_neg hva, if_neg fun h => hva (le_antisymm h.2 h.1)]
        · next hal =>
          have hne : a.toNat ≠ last.toNat := fun h => hal (BitVec.eq_of_toNat_eq h)
          have hnext : (a + ofNat 64 PGSIZE).toNat = a.toNat + 4096 := by
            rw [toNat_add, PGSIZE, toNat_ofNat]
            omega
          have hpage : pageNo (a + ofNat 64 PGSIZE) = pageNo a + 1 := by
            simp only [pageNo, PGSIZE] at hnext ⊢
            omega
          have hwithin : ∀ v, Within (a + ofNat 64 PGSIZE) last v ↔
              Within a last v ∧ pageNo v ≠ pageNo a := by
            intro v
            unfold Within
            rw [hpage]
            omega
          have hlt : pageNo a < pageNo last := by
            simp only [pageNo, PGSIZE]
            omega
          have hother : ∀ v < MAXVA, pageNo v ≠ pageNo a →
              leaf (s1.write pte (PA2PTE pa ||| perm.signExtend 64 ||| PTE_V)) root v =
                leaf s root v := fun v hvM hva => by rw [hleaf v hvM, if_neg hva]
          have hih : Mapped _ root _ last (pa + ofNat 64 PGSIZE) perm _ :=
            ih ht1 hf1 (by rw [hnext, PGSIZE]; omega) (by rw [le_def, hnext]; omega)
              (by rw [hpage]; omega)
          revert hih
          generalize mappagesLoop (page root) last perm n _ _ _ = res
          intro hih
          cases res with
          | error msg =>
            obtain ⟨v, hvM, hin, hval⟩ := hih
            obtain ⟨hin, hva⟩ := (hwithin v).mp hin
            exact ⟨v, hvM, hin, hother v hvM hva ▸ hval⟩
          | ok p =>
            rcases hih with ⟨hr, hmap⟩ | ⟨hr, hfree, hout⟩
            · refine .inl ⟨hr, fun v hvM => ?_⟩
              rw [hmap v hvM, hpage, mapEntry_succ]
              by_cases hva : pageNo v = pageNo a
              · rw [if_neg fun h => ((hwithin v).mp h).2 hva, hleaf v hvM, if_pos hva,
                  if_pos ⟨hva.ge, by omega⟩, hva, Nat.sub_self, mapEntry_zero]
              · rw [hother v hvM hva]
                by_cases hin : Within a last v
                · have hk : pageNo v - (pageNo a + 1) + 1 = pageNo v - pageNo a := by
                    have := hin.1
                    omega
                  rw [if_pos ((hwithin v).mpr ⟨hin, hva⟩), if_pos hin, hk]
                · rw [if_neg fun h => hin ((hwithin v).mp h).1, if_neg hin]
            · refine .inr ⟨hr, hfree, fun v hvM hin => ?_⟩
              rw [hout v hvM fun h => hin ((hwithin v).mp h).1, hother v hvM]
              exact fun hva => hin ⟨hva.ge, by omega⟩

/-! ## `uvmunmap` -/

/-- The page of the entry of `v` may be freed: `kfree` takes it, and it is no page-table page. -/
def Freeable (kend : Nat) (s : St) (root : BitVec 52) (v : BitVec 64) : Prop :=
  kend ≤ (PTE2PA (leaf s root v)).toNat ∧ (PTE2PA (leaf s root v)).toNat < PHYSTOP ∧
  ∀ q, page q = PTE2PA (leaf s root v) → Fresh child (heap s.mem) root 2 q

/-- `kfree` of a page changes this page only. -/
theorem kfree_heap (hlow : kend ≤ (page q).toNat) (hhigh : (page q).toNat < PHYSTOP) :
    ∃ s' f, kfree kend (page q) s = .ok s' ∧ heap s'.mem = update (heap s.mem) q f := by
  have hno : ¬ ((page q).toNat % PGSIZE ≠ 0 ∨ (page q).toNat < kend ∨
      PHYSTOP ≤ (page q).toNat) := by
    rw [page_toNat] at *
    simp only [PGSIZE]
    omega
  refine ⟨St.write ⟨memset s.mem (page q) 0x0101010101010101, page q :: s.free⟩
    (slot (page q) 0) (s.free.headD 0), ?_⟩
  rw [heap_write, heap_memset, Trie.set, update_idem]
  refine ⟨_, ?_, rfl⟩
  -- the link to the next free page is in the first word
  have hslot : slot (page q) 0 = page q := by simp [slot]
  rw [kfree, if_neg hno, hslot]
  rfl

/-- `walk` without `alloc`. -/
theorem walkFrom_find {level : Nat} : walkFrom va false level (page p) s =
    (((node child (heap s.mem) p (dirs va level)).map fun q => slot (page q) (PX 0 va)).getD 0,
      s) := by
  induction level generalizing p with
  | zero => rfl
  | succ level ih =>
    rw [walkFrom, dirs, node]
    split
    · next hv =>
      obtain ⟨q, hq, hpq⟩ := child_eq_some hv
      rw [← hpq, ih, show child (heap s.mem p _) = _ from hq]
      rfl
    · next hv =>
      rw [show child (heap s.mem p _) = _ from child_eq_none hv]
      rfl

/-- `walk` finds the slot of a valid entry. -/
theorem walk_valid (hva : va < MAXVA) (ht : Table s root) (hv : leaf s root va &&& PTE_V ≠ 0) :
    ∃ q, q ≠ 0 ∧
      node child (heap s.mem) root (dirs va 2) = some q ∧
      walk (page root) va false s = .ok (slot (page q) (PX 0 va), s) := by
  cases hq : node child (heap s.mem) root (dirs va 2) with
  | none =>
    unfold leaf lookup at hv
    rw [hq] at hv
    simp at hv
  | some q =>
    refine ⟨q, ?_, rfl, ?_⟩
    · rintro rfl
      exact ht.nonnull _ le_rfl hq
    · rw [walk, if_neg (not_le.mpr hva), walkFrom_find, hq]
      rfl

/-- The entry is valid, and `uvmunmap` takes it for a leaf. -/
def IsLeaf (e : BitVec 64) : Prop := e &&& PTE_V ≠ 0 ∧ PTE_FLAGS e ≠ PTE_V

/-- One round of `uvmunmap`. -/
theorem unmapRound {doFree : Bool} (ha : a < MAXVA) (ht : Table s root)
    (hl : IsLeaf (leaf s root a)) (hfree : doFree = true → Freeable kend s root a) : ∃ q s1,
      q ≠ 0 ∧ walk (page root) a false s = .ok (slot (page q) (PX 0 a), s) ∧
      s.mem (slot (page q) (PX 0 a)) = leaf s root a ∧
      (if doFree then kfree kend (PTE2PA (leaf s root a)) s else .ok s) = .ok s1 ∧
      Table (s1.write (slot (page q) (PX 0 a)) 0) root ∧
      (∀ v < MAXVA, leaf (s1.write (slot (page q) (PX 0 a)) 0) root v =
        if pageNo v = pageNo a then 0 else leaf s root v) ∧
      (∀ p, Fresh child (heap s.mem) root 2 p →
        Fresh child (heap (s1.write (slot (page q) (PX 0 a)) 0).mem) root 2 p) ∧
      (doFree = false → s1 = s) := by
  obtain ⟨q, hq0, hq, hw⟩ := walk_valid ha ht hl.1
  have hmem : s.mem (slot (page q) (PX 0 a)) = leaf s root a := (leaf_eq hq).symm
  cases doFree with
  | false =>
    exact ⟨q, s, hq0, hw, hmem, rfl, ht.write hq, fun v hv => leaf_write hq ht ha hv,
      fun p hp => fresh_write hq ht hp, fun _ => rfl⟩
  | true =>
    obtain ⟨hlow, hhigh, hfr⟩ := hfree rfl
    rw [← page_child] at hlow hhigh hfr ⊢
    have hfr := hfr _ rfl
    obtain ⟨s1, f, hk, hheap⟩ := kfree_heap (s := s) hlow hhigh
    have ht1 : Table s1 root := by
      constructor
      · rw [hheap]
        exact ht.tree.update hfr
      · rw [hheap]
        exact hfr.update ht.nonnull
    have hq1 : node child (heap s1.mem) root (dirs a 2) = some q := by
      rw [hheap, node_update_fresh hfr le_rfl, hq]
    refine ⟨q, s1, hq0, hw, hmem, hk, ht1.write hq1, fun v hv => ?_, fun p hp => ?_, nofun⟩
    · rw [leaf_write hq1 ht1 ha hv]
      unfold leaf
      rw [hheap, lookup_update_fresh hfr le_rfl]
    · refine fresh_write hq1 ht1 ?_
      rw [hheap]
      exact hfr.update hp

theorem uvmunmapLoop_unmapped {k : Nat} {doFree : Bool} {stop : BitVec 64} (ht : Table s root)
    (hstop : stop.toNat = a.toNat + k * PGSIZE) (hM : stop ≤ MAXVA) (hn : k < n)
    (ha : a.toNat % PGSIZE = 0) (hl : ∀ v < MAXVA, pageNo a ≤ pageNo v → pageNo v < pageNo a + k →
      IsLeaf (leaf s root v) ∧ (doFree = true → Freeable kend s root v)) :
    ∃ s', uvmunmapLoop kend (page root) stop doFree n a s = .ok s' ∧ Table s' root ∧
      (∀ v < MAXVA, leaf s' root v =
        if pageNo a ≤ pageNo v ∧ pageNo v < pageNo a + k then 0 else leaf s root v) ∧
      (doFree = false → FreshFree s root → FreshFree s' root) := by
  have hM' : stop.toNat ≤ 2 ^ 38 := hM
  induction n generalizing k a s with
  | zero => omega
  | succ n ih =>
    simp only [PGSIZE] at hstop ha
    rw [uvmunmapLoop]
    cases k with
    | zero =>
      refine ⟨s, if_neg ?_, ht, fun v _ => ?_, fun _ => id⟩
      · rw [lt_def]
        omega
      · rw [if_neg (by omega)]
    | succ k =>
      have haM : a < MAXVA := by
        refine lt_def.mpr (lt_of_lt_of_le ?_ hM')
        omega
      obtain ⟨hleaf, hfree⟩ := hl a haM le_rfl (by omega)
      obtain ⟨q, s1, hq0, hw, hmem, hk, ht1, hleaf1, hfr1, hsame⟩ := unmapRound haM ht hleaf hfree
      have hnext : (a + ofNat 64 PGSIZE).toNat = a.toNat + 4096 := by
        rw [toNat_add, PGSIZE, toNat_ofNat]
        omega
      have hpage : pageNo (a + ofNat 64 PGSIZE) = pageNo a + 1 := by
        simp only [pageNo, PGSIZE] at hnext ⊢
        omega
      rw [if_pos (lt_def.mpr (by omega)), hw]
      simp only [if_neg (slot_ne_zero hq0), hmem, if_neg hleaf.1, if_neg hleaf.2, hk]
      obtain ⟨s', hs', ht', hleaf', hfr'⟩ := ih (k := k) (a := a + ofNat 64 PGSIZE) ht1
        (by rw [hnext, PGSIZE]; omega) (by omega) (by rw [hnext, PGSIZE]; omega)
        fun v hvM hlo hhi => by
          rw [hpage] at hlo hhi
          obtain ⟨hv, hvf⟩ := hl v hvM (by omega) (by omega)
          have he := hleaf1 v hvM
          rw [if_neg (by omega)] at he
          unfold Freeable at hvf ⊢
          rw [he]
          exact ⟨hv, fun hd => ⟨(hvf hd).1, (hvf hd).2.1, fun p hp => hfr1 p ((hvf hd).2.2 p hp)⟩⟩
      refine ⟨s', hs', ht', fun v hvM => ?_, fun hd hf => hfr' hd ?_⟩
      · rw [hleaf' v hvM, hleaf1 v hvM]
        by_cases hva : pageNo v = pageNo a
        · rw [if_neg (by omega), if_pos hva, if_pos (by omega)]
        · rw [if_neg hva]
          exact if_congr (by omega) rfl rfl
      · obtain rfl := hsame hd
        refine ⟨hf.nodup, fun x hx => ?_⟩
        obtain ⟨hx0, r, hr, hfr⟩ := hf.fresh x hx
        exact ⟨hx0, r, hr, hfr1 r hfr⟩

/-! ## The finite map -/

/-- The operations on the page table `root`, as operations on the map `translate s root`. -/
structure Refines (s : St) (root : BitVec 52) : Prop where
  /-- `walk` changes no translation, also when it fails half-way. -/
  walk : ∀ va < MAXVA, ∀ alloc, ∃ r s', walk (page root) va alloc s = .ok (r, s') ∧
    Table s' root ∧ FreshFree s' root ∧ (∀ v, translate s' root v = translate s root v) ∧
    (alloc = false → s' = s)
  /-- It yields the same slot for two addresses exactly when they are in the same page. -/
  slot : ∀ va < MAXVA, ∀ va' < MAXVA, ∀ alloc alloc' r r' s₁ s₂,
    Vm.walk (page root) va alloc s = .ok (r, s₁) →
    Vm.walk (page root) va' alloc' s₁ = .ok (r', s₂) →
    r ≠ 0 → r' ≠ 0 → (r = r' ↔ pageNo va = pageNo va')
  /-- `mappages` maps the pages of its range, and changes no other page. -/
  mapped : ∀ va size pa perm s', 0 < size.toNat → va.toNat + size.toNat ≤ MAXVA.toNat →
    perm.toNat < 2 ^ 10 → perm.setWidth 64 &&& (PTE_R ||| PTE_W ||| PTE_X) ≠ 0 →
    mappages (page root) va size pa perm s = .ok (0, s') → ∀ v < MAXVA, translate s' root v =
      if Within va (va + size - 1) v then
        some (PGROUNDDOWN (pa + ofNat 64 ((pageNo v - pageNo va) * PGSIZE)),
          perm.setWidth 64 ||| PTE_V)
      else translate s root v
  /-- If the range has no valid entry, it returns 0, or -1 when the memory is exhausted. -/
  returns : ∀ va size pa perm, 0 < size.toNat → va.toNat + size.toNat ≤ MAXVA.toNat →
    (∀ v < MAXVA, Within va (va + size - 1) v → leaf s root v &&& PTE_V = 0) →
    ∃ r s', mappages (page root) va size pa perm s = .ok (r, s') ∧ (r = 0 ∨ r = -1 ∧ s'.free = [])
  /-- It keeps the tree, also when it fails. -/
  mappages : ∀ va size pa perm r s', mappages (page root) va size pa perm s = .ok (r, s') →
    Table s' root ∧ FreshFree s' root
  /-- `uvmunmap` of mapped pages removes their translations, changes no other page and keeps the
  tree. -/
  uvmunmap : ∀ kend va npages doFree, va.toNat % PGSIZE = 0 →
    va.toNat + npages.toNat * PGSIZE ≤ MAXVA.toNat →
    (∀ v < MAXVA, pageNo va ≤ pageNo v → pageNo v < pageNo va + npages.toNat →
      (translate s root v).isSome ∧ (doFree = true → Freeable kend s root v)) →
    ∃ s', uvmunmap kend (page root) va npages doFree s = .ok s' ∧ Table s' root ∧
      (doFree = false → FreshFree s' root) ∧ ∀ v < MAXVA, translate s' root v =
        if pageNo va ≤ pageNo v ∧ pageNo v < pageNo va + npages.toNat then none
        else translate s root v

theorem translate_congr (h : leaf s' root v = leaf s root v) :
    translate s' root v = translate s root v := by
  unfold translate
  rw [h]

theorem translate_zero (h : leaf s root v = 0) : translate s root v = none := by
  unfold translate
  rw [h]
  rfl

theorem flags_and (e : BitVec 64) {w : BitVec 64} (hw : 0x3FF &&& w = w) :
    PTE_FLAGS e &&& w = e &&& w := by
  rw [PTE_FLAGS, BitVec.and_assoc, hw]

theorem isLeaf_of_translate (h : (translate s root v).isSome) : IsLeaf (leaf s root v) := by
  simp only [translate] at h
  split at h
  · next hv =>
    refine ⟨hv.1, fun hf => hv.2 ?_⟩
    rw [← flags_and _ rfl, hf]
    rfl
  · cases h

theorem translate_mapEntry {k : Nat} (hp : perm.toNat < 2 ^ 10)
    (hx : perm.setWidth 64 &&& (PTE_R ||| PTE_W ||| PTE_X) ≠ 0)
    (h : leaf s root v = mapEntry pa perm k) : translate s root v =
      some (PGROUNDDOWN (pa + ofNat 64 (k * PGSIZE)), perm.setWidth 64 ||| PTE_V) := by
  have hse : perm.signExtend 64 = perm.setWidth 64 := by
    refine BitVec.signExtend_eq_setWidth_of_msb_false ?_
    rw [BitVec.msb_eq_false_iff_two_mul_lt]
    omega
  have hlt : (perm.setWidth 64 ||| PTE_V).toNat < 1024 := by
    refine Nat.or_lt_two_pow (n := 10) ?_ (by decide)
    rw [BitVec.toNat_setWidth]
    omega
  unfold mapEntry at h
  rw [hse, BitVec.or_assoc] at h
  have hflags : PTE_FLAGS (PA2PTE (pa + ofNat 64 (k * PGSIZE)) |||
      (perm.setWidth 64 ||| PTE_V)) = perm.setWidth 64 ||| PTE_V := PTE_FLAGS_entry hlt
  unfold translate
  simp only [h]
  rw [if_pos, PTE2PA_entry hlt, hflags]
  have hand : ∀ w, 0x3FF &&& w = w → (perm.setWidth 64 &&& w ≠ 0 ∨ PTE_V &&& w ≠ 0) →
      (PA2PTE (pa + ofNat 64 (k * PGSIZE)) ||| (perm.setWidth 64 ||| PTE_V)) &&& w ≠ 0 := by
    intro w hw hor h0
    rw [← flags_and _ hw, hflags, BitVec.and_or_distrib_right] at h0
    obtain ⟨h1, h2⟩ := BitVec.or_eq_zero_iff.mp h0
    exact hor.elim (absurd h1) (absurd h2)
  exact ⟨hand _ rfl (.inr (by decide)), hand _ rfl (.inl hx)⟩

theorem pageNo_PGROUNDDOWN (a : BitVec 64) : pageNo (PGROUNDDOWN a) = pageNo a := by
  simp only [pageNo, PGSIZE, PGROUNDDOWN_toNat]
  omega

theorem within_PGROUNDDOWN {b : BitVec 64} :
    Within (PGROUNDDOWN a) (PGROUNDDOWN b) v ↔ Within a b v := by
  unfold Within
  rw [pageNo_PGROUNDDOWN, pageNo_PGROUNDDOWN]

/-- Two walks that return the same slot. -/
theorem walk_slot_eq_iff {va' r r' : BitVec 64} {alloc alloc' : Bool} {s1 s2 : St}
    (hva : va < MAXVA) (hva' : va' < MAXVA) (hw : Walked s root va alloc r s1)
    (hw' : Walked s1 root va' alloc' r' s2) (hr : r ≠ 0) (hr' : r' ≠ 0) :
    r = r' ↔ pageNo va = pageNo va' := by
  obtain ⟨q, hq, rfl⟩ := hw.slot hr
  obtain ⟨q', hq', rfl⟩ := hw'.slot hr'
  have hq2 := hw'.keep _ q le_rfl hq
  rw [pageNo_eq_iff hva hva']
  constructor
  · intro h
    obtain ⟨rfl, h0⟩ := slot_inj h
    exact ⟨hw'.table.tree _ _ q le_rfl le_rfl hq2 hq', h0⟩
  · rintro ⟨hdirs, h0⟩
    rw [hdirs, hq'] at hq2
    cases hq2
    rw [h0]

/-- What a call of `mappages` does to the entries. -/
theorem mappages_mapped {size : BitVec 64} (pa : BitVec 64) (perm : BitVec 32) (ht : Table s root)
    (hf : FreshFree s root) (hs : 0 < size.toNat) (hM : va.toNat + size.toNat ≤ MAXVA.toNat) :
    Mapped s root (PGROUNDDOWN va) (PGROUNDDOWN (va + size - 1)) pa perm
      (mappages (page root) va size pa perm s) := by
  have hM' : va.toNat + size.toNat ≤ 2 ^ 38 := hM
  have hlast : (va + size - 1).toNat = va.toNat + size.toNat - 1 := by
    rw [BitVec.toNat_sub, toNat_add]
    simp only [BitVec.ofNat_eq_ofNat, toNat_ofNat]
    omega
  have ha := PGROUNDDOWN_toNat va
  have hl := PGROUNDDOWN_toNat (va + size - 1)
  have hmod : ∀ x : BitVec 64, (PGROUNDDOWN x).toNat % PGSIZE = 0 := by
    intro x
    rw [PGROUNDDOWN_toNat]
    exact Nat.mul_mod_left _ _
  refine mappagesLoop_mapped ht hf (hmod va) (hmod _) ?_ ?_ ?_
  · show (PGROUNDDOWN (va + size - 1)).toNat < 2 ^ 38
    omega
  · rw [le_def]
    omega
  · simp only [pageNo, PGSIZE, NPAGES]
    omega

/-- **Page tables refine finite maps.** -/
theorem page_table_refines (ht : Table s root) (hf : FreshFree s root) : Refines s root where
  walk := fun va hva alloc => by
    obtain ⟨r, s', hr, hw⟩ := walk_walked hva alloc ht hf
    exact ⟨r, s', hr, hw.table, hw.fresh, fun v => translate_congr (hw.leaf v), hw.same⟩
  slot := fun va hva va' hva' alloc alloc' r r' s₁ s₂ h h' hr hr' => by
    obtain ⟨_, _, he, hw⟩ := walk_walked hva alloc ht hf
    rw [h] at he
    cases he
    obtain ⟨_, _, he', hw'⟩ := walk_walked hva' alloc' hw.table hw.fresh
    rw [h'] at he'
    cases he'
    exact walk_slot_eq_iff hva hva' hw hw' hr hr'
  mapped := fun va size pa perm s' hs hM hp hx hm v hv => by
    have hmap := mappages_mapped pa perm ht hf hs hM
    rw [hm] at hmap
    rcases hmap with ⟨-, hmap⟩ | ⟨h, -⟩
    · have hleaf := hmap v hv
      by_cases hin : Within va (va + size - 1) v
      · rw [if_pos (within_PGROUNDDOWN.mpr hin), pageNo_PGROUNDDOWN] at hleaf
        rw [if_pos hin]
        exact translate_mapEntry hp hx hleaf
      · rw [if_neg fun h => hin (within_PGROUNDDOWN.mp h)] at hleaf
        rw [if_neg hin]
        exact translate_congr hleaf
    · cases h
  returns := fun va size pa perm hs hM hno => by
    have hmap := mappages_mapped pa perm ht hf hs hM
    revert hmap
    generalize Vm.mappages (page root) va size pa perm s = res
    intro hmap
    match res, hmap with
    | .error _, ⟨v, hv, hin, hval⟩ => exact absurd (hno v hv (within_PGROUNDDOWN.mp hin)) hval
    | .ok (r, s'), .inl ⟨hr, _⟩ => exact ⟨r, s', rfl, .inl hr⟩
    | .ok (r, s'), .inr ⟨hr, hfree, _⟩ => exact ⟨r, s', rfl, .inr ⟨hr, hfree⟩⟩
  mappages := fun va size pa perm r s' hm => mappagesLoop_table ht hf hm
  uvmunmap := fun kend va npages doFree hal hM hmap => by
    have hM' : va.toNat + npages.toNat * 4096 ≤ 2 ^ 38 := hM
    have hstop : (va + npages * ofNat 64 PGSIZE).toNat =
        va.toNat + npages.toNat * PGSIZE := by
      rw [toNat_add, BitVec.toNat_mul]
      simp only [PGSIZE, toNat_ofNat]
      omega
    obtain ⟨s', hs', ht', hleaf, hfr⟩ := uvmunmapLoop_unmapped (n := NPAGES + 1) ht hstop
      (by rw [le_def, hstop]; exact hM) (by simp only [NPAGES]; omega) hal
      fun v hv hlo hhi => ⟨isLeaf_of_translate (hmap v hv hlo hhi).1, (hmap v hv hlo hhi).2⟩
    refine ⟨s', ?_, ht', fun hd => hfr hd hf, fun v hv => ?_⟩
    · rw [uvmunmap, if_neg (not_not_intro hal)]
      exact hs'
    · by_cases hin : pageNo va ≤ pageNo v ∧ pageNo v < pageNo va + npages.toNat
      · rw [if_pos hin]
        exact translate_zero ((hleaf v hv).trans (if_pos hin))
      · rw [if_neg hin]
        exact translate_congr ((hleaf v hv).trans (if_neg hin))

/-- An empty page table with three free pages. -/
def emptyTable : St := ⟨fun _ => 0, [page 0x80101, page 0x80102, page 0x80103]⟩

theorem node_emptyTable (r : BitVec 52) (j : BitVec 9) (π : List (BitVec 9)) :
    node child (heap emptyTable.mem) r (j :: π) = none := by
  have hc : child (heap emptyTable.mem r j) = none := child_eq_none (by simp [heap, emptyTable])
  rw [node, hc]
  rfl

theorem page_table_refines_emptyTable : Refines emptyTable 0x80100 ∧
    ((mappages (page 0x80100) 0x3ffffff000 1 0x80005123 10 emptyTable).toOption.map fun x =>
      (x.1, translate x.2 0x80100 0x3ffffff000)) = some (0, some (0x80005000, 11)) := by
  have hnode : ∀ π p, node child (heap emptyTable.mem) 0x80100 π = some p → π = [] ∧
      p = 0x80100 := by
    intro π p hp
    cases π with
    | nil => exact ⟨rfl, (Option.some.inj hp).symm⟩
    | cons j π => cases (node_emptyTable _ j π).symm.trans hp
  have ht : Table emptyTable 0x80100 := by
    refine ⟨fun π π' p _ _ hp hp' => ?_, fun π _ hp => ?_⟩
    · rw [(hnode π p hp).1, (hnode π' p hp').1]
    · exact absurd (hnode π 0 hp).2 (by decide)
  have hf : FreshFree emptyTable 0x80100 := by
    refine ⟨by decide, fun p hp => ?_⟩
    simp only [emptyTable, mem_cons, not_mem_nil, or_false] at hp
    rcases hp with rfl | rfl | rfl
    all_goals
      refine ⟨by decide, _, rfl, fun π _ hq => ?_⟩
      exact absurd (hnode π _ hq).2 (by decide)
  exact ⟨page_table_refines ht hf, by decide +kernel⟩

end Xv6.Vm
