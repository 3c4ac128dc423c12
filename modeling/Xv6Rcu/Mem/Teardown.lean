import Xv6Rcu.Mem.Owns

/-!
# The life of an address space

Between `proc_pagetable` and `proc_freepagetable` the size of an address space grows and shrinks,
and the rest of the system takes pages, gives them back and writes to memory (`step`).

- `step_inv`, `run_inv`: no call panics, and the pages of `[0, PGROUNDUP(sz))` stay mapped.
- `teardown`: `proc_freepagetable` gives back the page-table pages and the user pages, each once.
-/

namespace Xv6.Vm

open List
open Multiset (coe_add coe_eq_coe)

/-- The memory, the pages that others have taken from `kalloc`, and the size `sz`. -/
structure System where
  st : St
  held : List (BitVec 64)
  sz : BitVec 64

/-- What happens to an address space. -/
inductive Act where
  | uvmalloc (newsz : BitVec 64)
  | uvmdealloc (newsz : BitVec 64)
  /-- `sz = PGROUNDUP(sz)` in `exec`. -/
  | roundup
  /-- Others take a page. -/
  | kalloc
  /-- Others give a page back. -/
  | kfree (p : BitVec 64)
  /-- A word of a page that others hold, or of the user memory, is written. -/
  | store (q : BitVec 52) (i : BitVec 9) (w : BitVec 64)

/-- The pages that the addresses below `sz` are mapped to. -/
def userPages (s : St) (root : BitVec 52) (sz : BitVec 64) : List (BitVec 64) :=
  (List.range (npages sz)).map fun k => PTE2PA (leaf s root (BitVec.ofNat 64 (k * PGSIZE)))

/-- One step; a failed `uvmalloc` leaves the size as it is. The trapframe is not given back. -/
def step (kend : Nat) (trapframe : BitVec 64) (root : BitVec 52) (x : System) :
    Act → Except String System
  | .uvmalloc newsz => do
    let (r, st) ← uvmalloc kend (page root) x.sz newsz x.st
    return { x with st, sz := if r = 0 then x.sz else r }
  | .uvmdealloc newsz => do
    let (sz, st) ← uvmdealloc kend (page root) x.sz newsz x.st
    return { x with st, sz }
  | .roundup => return { x with sz := PGROUNDUP x.sz }
  | .kalloc =>
    let (p, st) := kalloc x.st
    return if p = 0 then x else { x with st, held := p :: x.held }
  | .kfree p =>
    if p ∈ x.held ∧ p ≠ trapframe then do
      let st ← kfree kend p x.st
      return { x with st, held := x.held.erase p }
    else return x
  | .store q i w =>
    if page q ∈ x.held ∨ page q ∈ userPages x.st root x.sz then
      return { x with st := x.st.write (slot (page q) i) w }
    else return x

variable {kend : Nat} {trampoline trapframe : BitVec 64} {root : BitVec 52}
  {L : Multiset (BitVec 64)} {held held' : List (BitVec 64)} {A : View} {s : St} {x : System}

theorem Owns.userPages_eq (hL : Pool kend L) (h : Owns L held A s) {sz : BitVec 64}
    (hsz : npages sz = A.user.length) : userPages s A.root sz = A.user.map PTE2PA := by
  refine ext_getElem (by simp [userPages, hsz]) fun k hk hk' => ?_
  rw [length_map] at hk'
  have hlt := h.user_lt hL
  simp only [userPages, getElem_map, getElem_range]
  rw [h.space.leaf, vpn_uaddr (by omega), View.entry_user hlt.le hk']

theorem Owns.held_perm (h : Owns L held A s) (hp : held.Perm held') : Owns L held' A s :=
  ⟨h.space, h.leaf, by rw [← coe_eq_coe.mpr hp]; exact h.pool⟩

/-- The address space of the page table `root`, with the pages below `sz` mapped. -/
def Live (L : Multiset (BitVec 64)) (trampoline trapframe : BitVec 64) (root : BitVec 52)
    (x : System) : Prop :=
  ∃ A : View, A.root = root ∧ A.trampoline = Owns.trampolineEntry trampoline ∧
    A.trapframe = Owns.trapframeEntry trapframe ∧ npages x.sz = A.user.length ∧
    trapframe ∈ x.held ∧ Owns L x.held A x.st

theorem step_inv (hL : Pool kend L) (h : Live L trampoline trapframe root x) (a : Act) :
    ∃ x', step kend trapframe root x a = .ok x' ∧ Live L trampoline trapframe root x' := by
  obtain ⟨A, rfl, htr, htf, hsz, hheld, h⟩ := h
  have hlt : A.user.length < NPAGES := (h.user_lt hL).trans_le (Nat.sub_le _ _)
  cases a with
  | uvmalloc newsz =>
    obtain ⟨T, us, r, s', hs', h', hsz', -⟩ := h.uvmalloc hL hsz newsz
    exact ⟨_, Lib.except_bind_of_ok hs', { A with tables := T, user := us }, rfl, htr, htf, hsz',
      hheld, h'⟩
  | uvmdealloc newsz =>
    obtain ⟨s', hs', h', -⟩ := h.uvmdealloc hL hsz newsz
    refine ⟨_, Lib.except_bind_of_ok hs', { A with user := A.user.take (npages newsz) }, rfl, htr,
      htf, ?_, hheld, h'⟩
    rw [length_take, ← hsz]
    split
    · next hle => exact (min_eq_right (npages_mono hle)).symm
    · next hle =>
      exact (min_eq_left (npages_mono (BitVec.le_of_lt (BitVec.not_le.mp hle)))).symm
  | roundup =>
    refine ⟨_, rfl, A, rfl, htr, htf, ?_, hheld, h⟩
    rw [PGROUNDUP_eq (hsz ▸ hlt), npages_uaddr (hsz ▸ hlt), hsz]
  | kalloc =>
    rcases h.kalloc hL with ⟨-, hk⟩ | ⟨q, s', hk, hq0, -, h', -⟩
    · refine ⟨x, ?_, A, rfl, htr, htf, hsz, hheld, h⟩
      simp only [step, hk, if_true]
      rfl
    · refine ⟨{ x with st := s', held := page q :: x.held }, ?_, A, rfl, htr, htf, hsz,
        mem_cons_of_mem _ hheld, h'⟩
      simp only [step, hk, if_neg hq0]
      rfl
  | kfree p =>
    by_cases hp : p ∈ x.held ∧ p ≠ trapframe
    · obtain ⟨q, rfl, -⟩ := hL.ram p (h.mem_pool.mpr (.inl (.inl (.inr hp.1))))
      obtain ⟨s', hs', h', -⟩ := (h.held_perm (perm_cons_erase hp.1)).kfree hL
      refine ⟨{ x with st := s', held := x.held.erase (page q) }, ?_, A, rfl, htr, htf, hsz, ?_, h'⟩
      · rw [step, if_pos hp]
        exact Lib.except_bind_of_ok hs'
      · exact (mem_erase_of_ne hp.2.symm).mpr hheld
    · exact ⟨x, if_neg hp, A, rfl, htr, htf, hsz, hheld, h⟩
  | store q i w =>
    by_cases hp : page q ∈ x.held ∨ page q ∈ userPages x.st A.root x.sz
    · -- the page is no page-table page
      have hq : q ∉ A.tables := by
        rcases hp with hp | hp
        · exact h.held_not_table hL hp
        · rw [h.userPages_eq hL hsz, mem_map] at hp
          obtain ⟨e, he, hpe⟩ := hp
          rw [← page_inj ((page_ppn e).trans hpe)]
          exact (h.user_page hL he).1
      refine ⟨_, if_pos hp, A, rfl, htr, htf, hsz, hheld, h.congr rfl fun y hy => ?_⟩
      funext j
      rw [heap_write, Lib.Trie.set_of_ne fun (e : y = q) => absurd (e ▸ hy) hq]
    · exact ⟨x, if_neg hp, A, rfl, htr, htf, hsz, hheld, h⟩

theorem run_inv (hL : Pool kend L) (h : Live L trampoline trapframe root x) (acts : List Act) :
    ∃ x', acts.foldlM (step kend trapframe root) x = .ok x' ∧
      Live L trampoline trapframe root x' := by
  induction acts generalizing x with
  | nil => exact ⟨x, rfl, h⟩
  | cons a acts ih =>
    obtain ⟨x1, hx1, h1⟩ := step_inv hL h a
    obtain ⟨x', hx', h'⟩ := ih h1
    refine ⟨x', ?_, h'⟩
    exact (Lib.except_bind_of_ok hx1).trans hx'

/-- The pages `tables` of the page table and the user memory are given back, each once. -/
structure TornDown (kend : Nat) (root : BitVec 52) (pages : List (BitVec 64))
    (trampoline trapframe : BitVec 64) (x : System) (s' : St) : Prop where
  run : procFreepagetable kend (page root) x.sz x.st = .ok s'
  /-- What is given back is what the page table is made of and what it maps below `sz`. -/
  given : ∃ tables : List (BitVec 52), tables.Nodup ∧
    (∀ q, q ∈ tables ↔ Lib.Trie.Reaches child (heap x.st.mem) root 2 q) ∧
    s'.free.Perm (x.st.free ++ tables.map page ++ userPages x.st root x.sz)
  /-- Every page is free again, or with others. -/
  all : (s'.free ++ x.held).Perm pages
  nodup : s'.free.Nodup
  trapframe : trapframe ∉ s'.free
  trampoline : trampoline ∉ s'.free

theorem teardown (s : St) (held : List (BitVec 64))
    (hL : Pool kend (s.free ++ held : List (BitVec 64))) (htf : trapframe ∈ held)
    (htr : trampoline.toNat < kend) :
    ∃ r s₁, procPagetable kend trampoline trapframe s = .ok (r, s₁) ∧
      (r = 0 → s.free.length ≤ 5 ∧ s₁.free.Perm s.free) ∧
      (r ≠ 0 → ∃ root, r = page root ∧ ∀ acts : List Act, ∃ x s',
        acts.foldlM (step kend trapframe root) ⟨s₁, held, 0⟩ = .ok x ∧
        TornDown kend root (s.free ++ held) trampoline trapframe x s') := by
  have hpool : ((s.free ++ held : List (BitVec 64)) : Multiset (BitVec 64)) = s.free + held :=
    (coe_add _ _).symm
  obtain ⟨r, s₁, hr, -, hend⟩ := Owns.procPagetable hL hpool trampoline trapframe
  refine ⟨r, s₁, hr, fun h0 => ?_, fun hr0 => ?_⟩
  · rcases hend with ⟨-, hfew, hp⟩ | ⟨h1, -⟩
    · rw [hpool] at hp
      exact ⟨hfew, coe_eq_coe.mp (add_right_cancel hp).symm⟩
    · exact absurd h0 h1
  · obtain ⟨h0, -⟩ | ⟨-, A, hA, huser, hAtr, hAtf, -, -, -, hown⟩ := hend
    · exact absurd h0 hr0
    have hlive : Live _ trampoline trapframe A.root ⟨s₁, held, 0⟩ :=
      ⟨A, rfl, hAtr, hAtf, by rw [huser]; exact npages_zero, htf, hown⟩
    refine ⟨A.root, hA, fun acts => ?_⟩
    obtain ⟨x, hx, A', hroot, htr', htf', hsz, hheld, h⟩ := run_inv hL hlive acts
    rw [← hroot] at hx ⊢
    obtain ⟨s', hs', hall, -⟩ := h.procFreepagetable hL hsz
      (htr' ▸ Owns.isLeaf_trampolineEntry trampoline) (htf' ▸ Owns.isLeaf_trapframeEntry trapframe)
    have hnd : (s'.free ++ x.held).Nodup := by
      have := hL.nodup
      rwa [hall] at this
    refine ⟨x, s', hx, hs', ⟨A'.tables, h.space.nodup, h.space.reach, ?_⟩, ?_,
      (nodup_append.mp hnd).1, fun hm => ?_, fun hm => ?_⟩
    · have hsum := h.pool.symm.trans hall
      rw [h.userPages_eq hL hsz, ← coe_eq_coe, ← coe_add, ← coe_add]
      refine add_right_cancel (hsum.symm.trans ?_)
      abel
    · rw [← coe_eq_coe, ← coe_add, ← hall]
    · exact (nodup_append.mp hnd).2.2 _ hm _ hheld rfl
    · have hmem : trampoline ∈ ((s.free ++ held : List (BitVec 64)) : Multiset (BitVec 64)) := by
        rw [hall]
        exact Multiset.mem_add.mpr (.inl hm)
      obtain ⟨q, rfl, hram⟩ := hL.ram _ hmem
      exact absurd hram.1 (not_le.mpr htr)

/-- Six free pages, and the trapframe. -/
def bootPages : List (BitVec 52) :=
  [0x80101, 0x80102, 0x80103, 0x80104, 0x80105, 0x80106, 0x80100]

theorem pool_bootPages : Pool 0x80100000 (bootPages.map page : List (BitVec 64)) :=
  .of_pages (by decide) (by decide) (by decide) (by decide)

theorem teardown_bootPages :
    ∃ root s₁, procPagetable 0x80100000 0x80007000 (page 0x80100)
        ⟨fun _ => 0, (bootPages.take 6).map page⟩ = .ok (page root, s₁) ∧ page root ≠ 0 ∧
      ∀ acts : List Act, ∃ x s',
        acts.foldlM (step 0x80100000 (page 0x80100) root) ⟨s₁, [page 0x80100], 0⟩ = .ok x ∧
        TornDown 0x80100000 root (bootPages.map page) 0x80007000 (page 0x80100) x s' := by
  obtain ⟨r, s₁, hr, hnone, hsome⟩ := teardown ⟨fun _ => 0, (bootPages.take 6).map page⟩
    [page 0x80100] pool_bootPages (mem_singleton_self _)
    (show (0x80007000 : BitVec 64).toNat < _ by decide)
  have h0 : r ≠ 0 := fun h0 => absurd (hnone h0).1 (by decide)
  obtain ⟨root, rfl, hall⟩ := hsome h0
  exact ⟨root, s₁, hr, h0, hall⟩

end Xv6.Vm
