import Xv6Rcu.Mem.Owns

/-!
# Growing and shrinking user memory

- `Maps kend s root T M sz`: of the user memory, exactly the pages below `sz` are mapped, to pages
  that are neither free nor in the page table.
- `Grown`: pages were added. `Restored`: the translations and the contents are those of before, and
  only page-table pages are no longer free.
- **The theorem** (`uvmalloc_exact`): `uvmalloc` adds all pages, or none; `uvmdealloc` takes back
  exactly what was added.
-/

namespace Xv6.Vm

open Lib List

structure Maps (kend : Nat) (s : St) (root : BitVec 52) (T : List (BitVec 52))
    (M : Nat → BitVec 64) (sz : BitVec 64) : Prop where
  space : Space s root T M
  supply : Supply kend T s
  leaf : ∀ j < npages sz, IsLeaf (M j)
  apart : ∀ j < npages sz, ppn (M j) ∉ T ∧ page (ppn (M j)) ∉ s.free
  none : ∀ j, npages sz ≤ j → j < NPAGES - 2 → M j &&& PTE_V = 0

/-- The user memory up to `sz` is that of `s`, and of the free pages only `N` are missing, which are
page-table pages now. -/
structure Restored (kend : Nat) (s : St) (root : BitVec 52) (T : List (BitVec 52))
    (M : Nat → BitVec 64) (sz : BitVec 64) (N : List (BitVec 52)) (s' : St) : Prop where
  translate : ∀ v, translate s' root v = translate s root v
  data : ∀ j < npages sz, heap s'.mem (ppn (M j)) = heap s.mem (ppn (M j))
  free : s.free.Perm (s'.free ++ N.map page)
  maps : ∃ M', Maps kend s' root (N ++ T) M' sz

/-- The pages of the entries `es` were added to the user memory of `s`, which had the size `oldsz`
and has the size `newsz` now. -/
structure Grown (kend : Nat) (s : St) (root : BitVec 52) (T : List (BitVec 52))
    (M : Nat → BitVec 64) (oldsz newsz : BitVec 64) (N : List (BitVec 52))
    (es : List (BitVec 64)) (s' : St) : Prop where
  length : npages oldsz + es.length = npages newsz
  maps : Maps kend s' root (N ++ T) (extended M (npages oldsz) es) newsz
  old : ∀ j < npages oldsz, heap s'.mem (ppn (M j)) = heap s.mem (ppn (M j))
  zero : ∀ e ∈ es, PTE_FLAGS e = USER_FLAGS ∧ ∀ i, heap s'.mem (ppn e) i = 0
  free : s.free.Perm (s'.free ++ N.map page ++ es.map PTE2PA)

variable {kend : Nat} {s s' : St} {root : BitVec 52} {T N : List (BitVec 52)}
  {M M' : Nat → BitVec 64} {sz oldsz newsz : BitVec 64} {es : List (BitVec 64)} {k : Nat}

theorem Space.translate_eq (h : Space s root T M) {T' : List (BitVec 52)} (h' : Space s' root T' M')
    {v : BitVec 64}
    (hv : M' (vpn v) = M (vpn v) ∨ M' (vpn v) &&& PTE_V = 0 ∧ M (vpn v) &&& PTE_V = 0) :
    translate s' root v = translate s root v := by
  simp only [translate, h.leaf, h'.leaf]
  rcases hv with hv | ⟨h0, h0'⟩
  · rw [hv]
  · rw [if_neg fun hc => hc.1 h0, if_neg fun hc => hc.1 h0']

namespace Maps

/-- The pages that `uvmalloc` adds. -/
def batch (kend : Nat) (s : St) (root : BitVec 52) (T : List (BitVec 52)) (M : Nat → BitVec 64)
    (sz : BitVec 64) : Batch where
  kend := kend
  start := s
  root := root
  tables := T
  map := M
  first := npages sz
  data := fun _ _ => 0
  flags := fun _ => USER_FLAGS

theorem ready (h : Maps kend s root T M sz) : (batch kend s root T M sz).Ready :=
  ⟨h.space, h.supply⟩

theorem supply_of_perm {F : List (BitVec 64)} (h : Supply kend T s)
    (hp : s.free.Perm (s'.free ++ F)) (hN : ∀ q ∈ N, page q ∈ F) : Supply kend (N ++ T) s' := by
  have hn := hp.nodup h.nodup
  refine ⟨h.kend_pos, (nodup_append.mp hn).1, fun p hm => ?_⟩
  obtain ⟨q, rfl, hram, hq⟩ := h.page p (hp.mem_iff.mpr (mem_append_left _ hm))
  refine ⟨q, rfl, hram, fun hqm => ?_⟩
  rcases mem_append.mp hqm with hqm | hqm
  · exact (nodup_append.mp hn).2.2 _ hm _ (hN q hqm) rfl
  · exact hq hqm

/-- What was neither free nor in the page table is not in the larger page table. -/
theorem not_new {q : BitVec 52} (hq : q ∉ T ∧ page q ∉ s.free) {F : List (BitVec 64)}
    (hp : s.free.Perm (s'.free ++ F)) (hN : ∀ x ∈ N, page x ∈ F) :
    q ∉ N ++ T ∧ page q ∉ s'.free := by
  refine ⟨fun hm => ?_, fun hm => hq.2 (hp.mem_iff.mpr (mem_append_left _ hm))⟩
  rcases mem_append.mp hm with hm | hm
  · exact hq.2 (hp.mem_iff.mpr (mem_append_right _ (hN q hm)))
  · exact hq.1 hm

theorem restored (h : Maps kend s root T M sz) (hk : npages sz + k ≤ NPAGES - 2)
    (hu : Undone (batch kend s root T M sz) N k s') : Restored kend s root T M sz N s' := by
  have hsp : Space s' root (N ++ T) (cleared M (npages sz) k) := hu.space
  have hN : ∀ q ∈ N, page q ∈ N.map page := fun q => mem_map_of_mem
  have hlow : ∀ j < npages sz, cleared M (npages sz) k j = M j := fun j hj =>
    if_neg fun hc => absurd hc.1 (not_le.mpr hj)
  refine ⟨fun v => Space.translate_eq h.space hsp ?_, fun j hj => ?_, hu.pages, _, hsp,
    supply_of_perm h.supply hu.pages hN, fun j hj => ?_, fun j hj => ?_, fun j h1 h2 => ?_⟩
  · by_cases hv : npages sz ≤ vpn v ∧ vpn v < npages sz + k
    · refine .inr ⟨?_, h.none _ hv.1 (by omega)⟩
      rw [cleared, if_pos hv]
      rfl
    · exact .inl (if_neg hv)
  · exact hu.frame _ (h.apart j hj).1 (h.apart j hj).2
  · rw [hlow j hj]
    exact h.leaf j hj
  · rw [hlow j hj]
    exact not_new (h.apart j hj) hu.pages hN
  · simp only [cleared]
    split
    · rfl
    · exact h.none j h1 h2

theorem grown (h : Maps kend s root T M oldsz) (hlen : npages oldsz + es.length = npages newsz)
    (ha : Added (batch kend s root T M oldsz) [] N es s') :
    Grown kend s root T M oldsz newsz N es s' := by
  have hp : s.free.Perm (s'.free ++ (N.map page ++ es.map PTE2PA)) := by
    have := ha.pages
    rwa [append_nil, append_assoc] at this
  have hN : ∀ q ∈ N, page q ∈ N.map page ++ es.map PTE2PA := fun q hq =>
    mem_append_left _ (mem_map_of_mem hq)
  have hlow : ∀ j < npages oldsz, extended M (npages oldsz) es j = M j := fun j hj =>
    extended_other (.inl hj)
  have hnew : ∀ j, npages oldsz ≤ j → j < npages newsz →
      ∃ e ∈ es, extended M (npages oldsz) es j = e := fun j h1 h2 => by
    have hj : j - npages oldsz < es.length := by omega
    refine ⟨_, getElem_mem hj, ?_⟩
    rw [← extended_add hj, Nat.add_sub_cancel' h1]
  refine ⟨hlen, ⟨ha.space, supply_of_perm h.supply hp hN, fun j hj => ?_, fun j hj => ?_,
    fun j h1 h2 => ?_⟩, fun j hj => ha.frame _ (h.apart j hj).1 (h.apart j hj).2,
    fun e he => ?_, ?_⟩
  · rcases lt_or_ge j (npages oldsz) with hlt | hge
    · rw [hlow j hlt]
      exact h.leaf j hlt
    · obtain ⟨e, he, heq⟩ := hnew j hge hj
      exact heq ▸ ha.leaf e he
  · rcases lt_or_ge j (npages oldsz) with hlt | hge
    · rw [hlow j hlt]
      exact not_new (h.apart j hlt) hp hN
    · obtain ⟨e, he, heq⟩ := hnew j hge hj
      obtain ⟨ht, -, hf, -⟩ := ha.entry_page h.ready he
      exact heq ▸ ⟨ht, hf⟩
  · rw [extended_other (.inr (hlen ▸ h1))]
    exact h.none j (by omega) h2
  · obtain ⟨k, hk, rfl⟩ := getElem_of_mem he
    obtain ⟨hdata, hflags⟩ := ha.data k hk
    exact ⟨hflags, fun i => congrFun hdata i⟩
  · rw [append_assoc]
    exact hp

end Maps

/-- **`uvmalloc` is exact.** It adds zeroed pages up to the new size, and `uvmdealloc` takes back
exactly these. Or the free pages are too few for the new ones and their tables; then it leaves the
translations, the contents and the free pages (other than page-table pages) as they were. -/
theorem uvmalloc_exact (h : Maps kend s root T M oldsz) (hle : oldsz ≤ newsz)
    (hmax : newsz ≤ TRAPFRAME) :
    ∃ r s', uvmalloc kend (page root) oldsz newsz s = .ok (r, s') ∧
      ((r = 0 ∧ 0 < newsz ∧ s.free.length ≤ 3 * (npages newsz - npages oldsz) ∧
          ∃ N, Restored kend s root T M oldsz N s') ∨
        r = newsz ∧ ∃ N es, Grown kend s root T M oldsz newsz N es s' ∧
          ∃ s'', uvmdealloc kend (page root) newsz oldsz s' = .ok (oldsz, s'') ∧
            Restored kend s root T M oldsz N s'') := by
  have hcap : npages newsz ≤ NPAGES - 2 := by
    have := npages_mono hmax
    rwa [show npages TRAPFRAME = NPAGES - 2 by decide] at this
  have hN : NPAGES - 2 < NPAGES := by decide
  have hfirst := npages_mono hle
  obtain ⟨r, s', hr, hend⟩ := uvmalloc_added newsz h.ready (fun _ => rfl) (fun _ => rfl)
    (hcap.trans_lt hN) (.inl le_rfl) (fun j h₁ h₂ => h.none j h₁ (by omega)) rfl hle
    (show npages oldsz < NPAGES by omega)
  refine ⟨r, s', hr, ?_⟩
  rcases hend with ⟨h0, N, es, hlen, ha⟩ | ⟨h0, hpos, N, k, hk, hfew, hu⟩
  · obtain ⟨s'', hs'', hu⟩ := ha.dealloc newsz oldsz h.ready hlen.symm rfl hle (by omega)
    have hlen' : npages oldsz + es.length = npages newsz := hlen
    exact .inr ⟨h0, N, es, h.grown hlen ha, s'', hs'', h.restored (by omega) hu⟩
  · have hk' : npages oldsz + k < npages newsz := hk
    have hfew' : s.free.length ≤ 3 * (k + 1) := hfew
    exact .inl ⟨h0, hpos, by omega, N, h.restored (by omega) hu⟩

/-- A page table without user memory. -/
def bare : View := ⟨0x80100, [0x80100], 0, 0, []⟩

def sevenPages : St where
  mem := fun _ => 0
  free := [0x80101000, 0x80102000, 0x80103000, 0x80104000, 0x80105000, 0x80106000, 0x80107000]

theorem maps_bare : Maps 0x80100000 sevenPages bare.root bare.tables bare.entry 0 := by
  have hL : Pool 0x80100000 ([0x80101, 0x80102, 0x80103, 0x80104, 0x80105,
      0x80106, 0x80107, 0x80100].map page :) :=
    .of_pages (by decide) (by decide) (by decide) (by decide)
  have h : Owns _ [] bare sevenPages := .empty (by decide) (fun _ => rfl) rfl
  have hnone : ∀ j < npages 0, False := fun j hj => Nat.not_lt_zero j (npages_zero ▸ hj)
  refine ⟨h.space, (h.supply hL), fun j hj => (hnone j hj).elim,
    fun j hj => (hnone j hj).elim, fun j h1 h2 => ?_⟩
  rw [View.entry_beyond (Nat.zero_le _) h2]
  rfl

/-- Seven pages are enough for a size of two pages. -/
theorem uvmalloc_exact_bare :
    ∃ s' N es, uvmalloc 0x80100000 (page bare.root) 0 0x1800 sevenPages = .ok (0x1800, s') ∧
      Grown 0x80100000 sevenPages bare.root bare.tables bare.entry 0 0x1800 N es s' ∧
      ∃ s'', uvmdealloc 0x80100000 (page bare.root) 0x1800 0 s' = .ok (0, s'') ∧
        Restored 0x80100000 sevenPages bare.root bare.tables bare.entry 0 N s'' := by
  obtain ⟨r, s', hr, ⟨-, -, hfew, -⟩ | ⟨rfl, N, es, hg⟩⟩ :=
    uvmalloc_exact maps_bare (show 0 ≤ (0x1800 : BitVec 64) by decide) (by decide)
  · exact absurd hfew (by decide)
  · exact ⟨s', N, es, hr, hg⟩

end Xv6.Vm
