import Xv6Rcu.Mem.Space

/-!
# `freewalk`

- `freewalk_gave`, by induction on the levels: the pages that a page reaches are given back, each
  once, if there is no leaf among their entries (`Bare`).
- `freewalk_space`: of an address space with no page mapped, these are the page-table pages.
-/

namespace Xv6.Vm

open Lib Trie List

variable {kend d : Nat} {s s' : St} {root p q c : BitVec 52} {T : List (BitVec 52)}
  {M : Nat → BitVec 64} {i : BitVec 9} {h h' : BitVec 52 → BitVec 9 → BitVec 64}

theorem mem_indices (i : BitVec 9) : i ∈ indices :=
  mem_map.mpr ⟨i.toNat, mem_range.mpr i.isLt, by simp⟩

theorem nodup_indices : indices.Nodup := by
  refine nodup_range.map_on fun x hx y hy e => ?_
  have hn := congrArg BitVec.toNat e
  rw [mem_range] at hx hy
  simp only [BitVec.toNat_ofNat] at hn
  omega

/-- A page-table page with `d` levels below it, without leaves. -/
structure Bare (kend : Nat) (h : BitVec 52 → BitVec 9 → BitVec 64) (p : BitVec 52) (d : Nat) :
    Prop where
  tree : Tree child h p d
  dir : ∀ π q i, π.length ≤ d → node child h p π = some q → h q i &&& PTE_V ≠ 0 →
    π.length < d ∧ h q i &&& (PTE_R ||| PTE_W ||| PTE_X) = 0
  ram : ∀ q, Reaches child h p d q → InRam kend q

theorem reaches_congr (hh : ∀ q, Reaches child h p d q → h' q = h q) (q : BitVec 52) :
    Reaches child h' p d q ↔ Reaches child h p d q := by
  constructor
  · rintro ⟨π, hπ, hq⟩
    exact ⟨π, hπ, (node_congr_reaches hh hπ).symm.trans hq⟩
  · rintro ⟨π, hπ, hq⟩
    exact ⟨π, hπ, (node_congr_reaches hh hπ).trans hq⟩

theorem Bare.congr (hb : Bare kend h p d) (hh : ∀ q, Reaches child h p d q → h' q = h q) :
    Bare kend h' p d := by
  have hnode : ∀ π, π.length ≤ d → node child h' p π = node child h p π := fun π hπ =>
    node_congr_reaches hh hπ
  refine ⟨hb.tree.congr hnode, fun π q i hπ hq hv => ?_, fun q hq => ?_⟩
  · rw [hnode π hπ] at hq
    rw [hh q ⟨π, hπ, hq⟩] at hv ⊢
    exact hb.dir π q i hπ hq hv
  · exact hb.ram q ((reaches_congr hh q).mp hq)

theorem Bare.sub (hb : Bare kend h p (d + 1)) (hc : child (h p i) = some c) : Bare kend h c d := by
  refine ⟨hb.tree.sub hc, fun π q j hπ hq hv => ?_, fun q hq => ?_⟩
  · obtain ⟨hlt, hr⟩ := hb.dir (i :: π) q j (Nat.succ_le_succ hπ) ((node_child hc π).trans hq) hv
    exact ⟨Nat.lt_of_succ_lt_succ hlt, hr⟩
  · exact hb.ram q (reaches_succ.mpr (.inr ⟨i, c, hc, hq⟩))

/-- The pages `l` were given back, and no other page has changed. -/
structure Gave (l : List (BitVec 52)) (s s' : St) : Prop where
  nodup : l.Nodup
  free : s'.free = l.map page ++ s.free
  frame : ∀ x ∉ l, heap s'.mem x = heap s.mem x

/-- The pages below the entries `is` of the page `p`. -/
def Below (h : BitVec 52 → BitVec 9 → BitVec 64) (p : BitVec 52) (d : Nat) (is : List (BitVec 9))
    (q : BitVec 52) : Prop :=
  ∃ i ∈ is, ∃ c, child (h p i) = some c ∧ Reaches child h c d q

/-- The loop over the entries, where `down` gives back the pages of a child. -/
theorem freewalkLoop_gave {down : BitVec 64 → St → Except String St}
    (hdown : ∀ c s, Bare kend (heap s.mem) c d → ∃ l s', down (page c) s = .ok s' ∧ Gave l s s' ∧
      ∀ q, q ∈ l ↔ Reaches child (heap s.mem) c d q)
    (hb : Bare kend h p (d + 1)) (is : List (BitVec 9)) (hnd : is.Nodup) (s : St)
    (hp : ∀ i ∈ is, heap s.mem p i = h p i)
    (hsub : ∀ q, Below h p d is q → heap s.mem q = h q) :
    ∃ (l : List (BitVec 52)) (s' : St), freewalkLoop down (page p) is s = .ok s' ∧ l.Nodup ∧
      (∀ q, q ∈ l ↔ Below h p d is q) ∧ s'.free = l.map page ++ s.free ∧
      ∀ x ∉ l, x ≠ p → heap s'.mem x = heap s.mem x := by
  induction is generalizing s with
  | nil => exact ⟨[], s, rfl, .nil, by simp [Below], rfl, fun _ _ _ => rfl⟩
  | cons i is ih =>
    obtain ⟨hi, hnd⟩ := nodup_cons.mp hnd
    have he : s.mem (slot (page p) i) = h p i := hp i mem_cons_self
    rw [freewalkLoop, he]
    by_cases hv : h p i &&& PTE_V ≠ 0
    · -- the entry points to a page of the next level
      obtain ⟨-, hr⟩ := hb.dir [] p i (Nat.zero_le _) rfl hv
      obtain ⟨c, hc, hpc⟩ := child_eq_some hv
      have hcs : ∀ q, Reaches child h c d q → heap s.mem q = h q := fun q hq =>
        hsub q ⟨i, mem_cons_self, c, hc, hq⟩
      obtain ⟨l1, s1, hd1, hg1, hl1⟩ := hdown c s ((hb.sub hc).congr hcs)
      have hmem1 : ∀ q, q ∈ l1 ↔ Reaches child h c d q := fun q =>
        (hl1 q).trans (reaches_congr hcs q)
      have hpl : p ∉ l1 := fun hm => hb.tree.fresh_root hc ((hmem1 p).mp hm)
      have hwrite : ∀ x j, (x = p → j ≠ i) → x ∉ l1 →
          heap (s1.write (slot (page p) i) 0).mem x j = heap s.mem x j := fun x j hne hx => by
        rw [heap_write, set_of_ne hne, hg1.frame x hx]
      obtain ⟨l, s', hs', hln, hlm, hfr, hframe⟩ := ih hnd (s1.write (slot (page p) i) 0)
        (fun j hj => by
          rw [hwrite p j (fun _ e => hi (e ▸ hj)) hpl]
          exact hp j (mem_cons_of_mem _ hj))
        (fun q ⟨j, hj, c', hc', hq⟩ => by
          have hqp : q ≠ p := fun e => hb.tree.fresh_root hc' (e ▸ hq)
          have hql : q ∉ l1 := fun hm =>
            hb.tree.sub_disjoint hc hc' (fun e => hi (e ▸ hj)) ((hmem1 q).mp hm) hq
          rw [← hsub q ⟨j, mem_cons_of_mem _ hj, c', hc', hq⟩]
          funext x
          exact hwrite q x (fun e => absurd e hqp) hql)
      refine ⟨l ++ l1, s', ?_, ?_, fun q => ?_, ?_, fun x hx hxp => ?_⟩
      · rw [if_pos ⟨hv, hr⟩, ← hpc, hd1]
        exact hs'
      · refine hln.append hg1.nodup fun q hq hq1 => ?_
        obtain ⟨j, hj, c', hc', hq⟩ := (hlm q).mp hq
        exact hb.tree.sub_disjoint hc hc' (fun e => hi (e ▸ hj)) ((hmem1 q).mp hq1) hq
      · rw [mem_append, hlm, hmem1]
        constructor
        · rintro (⟨j, hj, hq⟩ | hq)
          · exact ⟨j, mem_cons_of_mem _ hj, hq⟩
          · exact ⟨i, mem_cons_self, c, hc, hq⟩
        · rintro ⟨j, hj, c', hc', hq⟩
          rcases mem_cons.mp hj with rfl | hj
          · obtain rfl := Option.some.inj (hc'.symm.trans hc)
            exact .inr hq
          · exact .inl ⟨j, hj, c', hc', hq⟩
      · rw [hfr, map_append, append_assoc, ← hg1.free]
        rfl
      · rw [mem_append, not_or] at hx
        rw [hframe x hx.1 hxp]
        funext j
        exact hwrite x j (fun e => absurd e hxp) hx.2
    · have hc : child (h p i) = none := child_eq_none hv
      rw [if_neg fun hh => hv hh.1, if_neg hv]
      obtain ⟨l, s', hs', hln, hlm, hfr, hframe⟩ := ih hnd s
        (fun j hj => hp j (mem_cons_of_mem _ hj))
        (fun q ⟨j, hj, hq⟩ => hsub q ⟨j, mem_cons_of_mem _ hj, hq⟩)
      refine ⟨l, s', hs', hln, fun q => (hlm q).trans ?_, hfr, hframe⟩
      constructor
      · rintro ⟨j, hj, hq⟩
        exact ⟨j, mem_cons_of_mem _ hj, hq⟩
      · rintro ⟨j, hj, c, hjc, hq⟩
        rcases mem_cons.mp hj with rfl | hj
        · rw [hc] at hjc
          cases hjc
        · exact ⟨j, hj, c, hjc, hq⟩

/-- The entries of a page at the lowest level are not valid. -/
theorem freewalkLoop_invalid {down : BitVec 64 → St → Except String St} (is : List (BitVec 9))
    (hp : ∀ i, heap s.mem p i &&& PTE_V = 0) : freewalkLoop down (page p) is s = .ok s := by
  induction is with
  | nil => rfl
  | cons i is ih =>
    have hi : s.mem (slot (page p) i) &&& PTE_V = 0 := hp i
    rw [freewalkLoop, if_neg fun hh => hh.1 hi, if_neg (not_not_intro hi), ih]

/-- `freewalk` gives back the pages that the page reaches. -/
theorem freewalk_gave (hb : Bare kend (heap s.mem) p d) :
    ∃ l s', freewalk kend (d + 1) (page p) s = .ok s' ∧ Gave l s s' ∧
      ∀ q, q ∈ l ↔ Reaches child (heap s.mem) p d q := by
  induction d generalizing p s with
  | zero =>
    have hinv : ∀ i, heap s.mem p i &&& PTE_V = 0 := fun i => by
      by_contra hv
      exact absurd (hb.dir [] p i le_rfl rfl hv).1 (lt_irrefl 0)
    obtain ⟨s', hk, hfr, hframe⟩ := kfree_page (s := s) (hb.ram p reaches_self)
    refine ⟨[p], s', ?_, ⟨nodup_singleton p, hfr, fun x hx => ?_⟩, fun q => ?_⟩
    · rw [freewalk, freewalkLoop_invalid indices hinv]
      exact hk
    · exact hframe x fun e => hx (e ▸ mem_singleton_self p)
    · rw [mem_singleton, reaches_zero, eq_comm]
  | succ d ih =>
    obtain ⟨l, s1, hs1, hln, hlm, hfr1, hframe1⟩ := freewalkLoop_gave (fun c s hc => ih hc) hb
      indices nodup_indices s (fun _ _ => rfl) fun _ _ => rfl
    have hpl : p ∉ l := fun hm => by
      obtain ⟨i, -, c, hc, hq⟩ := (hlm p).mp hm
      exact hb.tree.fresh_root hc hq
    obtain ⟨s', hk, hfr, hframe⟩ := kfree_page (s := s1) (hb.ram p reaches_self)
    refine ⟨p :: l, s', ?_, ⟨nodup_cons.mpr ⟨hpl, hln⟩, ?_, fun x hx => ?_⟩, fun q => ?_⟩
    · rw [freewalk, hs1]
      exact hk
    · rw [hfr, hfr1]
      rfl
    · rw [mem_cons, not_or] at hx
      rw [hframe x hx.1, hframe1 x hx.2 hx.1]
    · rw [mem_cons, hlm, reaches_succ, eq_comm]
      refine or_congr Iff.rfl ⟨?_, ?_⟩
      · rintro ⟨i, -, hq⟩
        exact ⟨i, hq⟩
      · rintro ⟨i, hq⟩
        exact ⟨i, mem_indices i, hq⟩

/-- Three indices are those of an address. -/
theorem exists_va {π : List (BitVec 9)} (hπ : π.length = 2) (i : BitVec 9) :
    ∃ va, dirs va 2 = π ∧ PX 0 va = i := by
  obtain ⟨i2, i1, rfl⟩ := length_eq_two.mp hπ
  refine ⟨BitVec.ofNat 64 (((i2.toNat * 512 + i1.toNat) * 512 + i.toNat) * 4096), ?_, ?_⟩
  · simp only [dirs, cons.injEq, and_true, ← BitVec.toNat_inj, PX_toNat, BitVec.toNat_ofNat]
    omega
  · simp only [← BitVec.toNat_inj, PX_toNat, BitVec.toNat_ofNat]
    omega

/-- `freewalk` of an address space with no page mapped. -/
theorem freewalk_space (h : Space s root T M) (hM : ∀ n, M n &&& PTE_V = 0)
    (hT : ∀ q ∈ T, InRam kend q) : ∃ s', freewalk kend 3 (page root) s = .ok s' ∧
      s'.free.Perm (T.map page ++ s.free) ∧ ∀ x ∉ T, heap s'.mem x = heap s.mem x := by
  have hb : Bare kend (heap s.mem) root 2 := by
    refine ⟨h.table.tree, fun π q i hπ hq hv => ?_, fun q hq => hT q ((h.reach q).mpr hq)⟩
    rcases lt_or_eq_of_le hπ with hlt | heq
    · exact ⟨hlt, h.dir π q i hlt hq hv⟩
    · -- a page at the lowest level holds leaves
      obtain ⟨va, rfl, rfl⟩ := exists_va heq i
      rw [← leaf_eq hq, h.leaf] at hv
      exact absurd (hM _) hv
  obtain ⟨l, s', hs', hg, hl⟩ := freewalk_gave hb
  have hlT : ∀ q, q ∈ l ↔ q ∈ T := fun q => (hl q).trans (h.reach q).symm
  refine ⟨s', hs', ?_, fun x hx => hg.frame x fun hm => hx ((hlT x).mp hm)⟩
  rw [hg.free]
  exact (((perm_ext_iff_of_nodup hg.nodup h.nodup).mpr hlT).map page).append_right s.free

end Xv6.Vm
