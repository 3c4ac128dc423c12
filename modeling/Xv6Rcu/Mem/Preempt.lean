import Xv6Rcu.Mem.Alloc

/-!
# The kernel heap under preemption

`knmalloc` and `knfree` take no lock, so that a thread may be preempted between any two accesses.

- `threads`: kernel threads that run `knmalloc` and `knfree`, with every interleaving of their
  accesses.
- `malloc_twice`: two threads get the same block.
- `serial_heap`: the live blocks are disjoint and the free list is well formed as long as no call
  begins while another one is in progress.
-/

namespace Xv6.Malloc

open Lib Mem Function List
open Prod (fst mk)

/-- What is left of a call, and what its return does to the list of live blocks. -/
abbrev Rest := M (List (Nat × Nat) → List (Nat × Nat))

def mallocCall (base fuel nbytes : Nat) : Rest := do
  let ap ← malloc base fuel nbytes
  return fun live => hand live ap nbytes

def freeCall (fuel ap : Nat) : Rest := do
  free fuel ap
  return id

/-- The heap, the blocks handed out and not yet freed, and the call of each thread, if any. -/
structure Threads (τ : Type) where
  arena : Arena
  live : List (Nat × Nat) := []
  rest : τ → Option Rest := fun _ => none

inductive Move where
  | malloc (nbytes fuel : Nat)
  | free (ap fuel : Nat)
  /-- The next access of the thread, or its return. -/
  | step (i : Answer)

section Threads
variable {τ : Type} [DecidableEq τ]

/-- A block that is freed is no longer live from the beginning of the call. -/
def threads (W : Window) : Machine (Threads τ) (τ × Move) where
  next s
    | (t, .malloc nbytes fuel) =>
      if (s.rest t).isNone then
        some { s with rest := update s.rest t (some (mallocCall W.base fuel nbytes)) }
      else none
    | (t, .free ap fuel) =>
      if (s.rest t).isNone ∧ ap ∈ s.live.map fst then
        some { s with
          live := s.live.eraseP (·.1 == ap)
          rest := update s.rest t (some (freeCall fuel ap)) }
      else none
    | (t, .step i) =>
      match s.rest t with
      | some (.act o k) => (access W o i s.arena).map fun r =>
        { s with arena := r.2, rest := update s.rest t (some (k r.1)) }
      | some (.ret f) => some { s with live := f s.live, rest := update s.rest t none }
      | _ => none

/-- A request that succeeds yields a fresh region. -/
def Supplied (W : Window) (s : Threads τ) : τ × Move → Prop
  | (t, .step i) => ∀ o k, s.rest t = some (.act o k) → Allowed W o i s.arena
  | _ => True

/-- A call begins only when none is in progress. -/
def Serial (s : Threads τ) : τ × Move → Prop
  | (_, .step _) => True
  | _ => ∀ t, s.rest t = none

/-! ## Runs without overlapping calls -/

/-- At most one thread is in a call, and the rest of its call makes the heap well formed again. -/
structure OneCall (W : Window) (s : Threads τ) : Prop where
  idle : (∀ t, s.rest t = none) → Inv W ⟨s.arena, s.live⟩
  busy : ∀ t m, s.rest t = some m → (∀ u, u ≠ t → s.rest u = none) ∧
    W.wp True (fun f a => Inv W ⟨a, f s.live⟩) m s.arena
  disjoint : (s.live.map block).Pairwise fun b c => ∀ x, InBlk HEADER b x → ¬ InBlk HEADER c x

variable {W : Window} {s s' : Threads τ} {t : τ} {m : Rest}

theorem Inv.disjoint {s : Sys} (h : Inv W s) :
    (s.live.map block).Pairwise fun b c => ∀ x, InBlk HEADER b x → ¬ InBlk HEADER c x := by
  obtain ⟨F, ⟨-, -, hnil⟩ | h⟩ := h
  · rw [hnil]
    exact .nil
  · exact h.tiled.live

/-- The thread `t` is in a call, and no other one is. -/
theorem OneCall.call (hothers : ∀ u, u ≠ t → s.rest u = none)
    (hwp : W.wp True (fun f a => Inv W ⟨a, f s'.live⟩) m s'.arena)
    (hrest : s'.rest = update s.rest t (some m))
    (hd : (s'.live.map block).Pairwise fun b c => ∀ x, InBlk HEADER b x → ¬ InBlk HEADER c x) :
    OneCall W s' := by
  have hself : s'.rest t = some m := by rw [hrest, update_self]
  have hnone : ∀ u, u ≠ t → s'.rest u = none := fun u hu => by
    rw [hrest, update_of_ne hu, hothers u hu]
  refine ⟨fun h => ?_, fun u m' hm' => ?_, hd⟩
  · rw [h t] at hself
    cases hself
  · by_cases hu : u = t
    · subst hu
      rw [hself] at hm'
      cases hm'
      exact ⟨hnone, hwp⟩
    · rw [hnone u hu] at hm'
      cases hm'

omit [DecidableEq τ] in
theorem OneCall.quiet (hnone : ∀ u, s.rest u = none) (hi : Inv W ⟨s.arena, s.live⟩) : OneCall W s :=
  ⟨fun _ => hi, fun u m h => (Option.some_ne_none m (h.symm.trans (hnone u))).elim, hi.disjoint⟩

theorem Inv.mallocCall {s : Sys} (hi : Inv W s) (fuel nbytes : Nat) :
    W.wp True (fun f a => Inv W ⟨a, f s.live⟩) (mallocCall W.base fuel nbytes) s.arena :=
  Prog.wp_bind.mpr (hi.malloc nbytes fuel)

theorem Inv.freeCall {s : Sys} (hi : Inv W s) {ap : Nat} (hap : ap ∈ s.live.map fst)
    (fuel : Nat) :
    W.wp True (fun f a => Inv W ⟨a, f (s.live.eraseP (·.1 == ap))⟩) (freeCall fuel ap) s.arena :=
  Prog.wp_bind.mpr (hi.free hap fuel)

theorem OneCall.next {l : τ × Move} (hi : OneCall W s) (hc : Serial s l ∧ Supplied W s l)
    (h : (threads W).next s l = some s') : OneCall W s' := by
  obtain ⟨t, mv⟩ := l
  cases mv with
  | malloc nbytes fuel =>
    obtain ⟨-, h⟩ := Option.ite_none_right_eq_some.mp h
    cases h
    have hnone : ∀ t, s.rest t = none := hc.1
    exact .call (fun u _ => hnone u) ((hi.idle hnone).mallocCall fuel nbytes) rfl hi.disjoint
  | free ap fuel =>
    obtain ⟨⟨-, hap⟩, h⟩ := Option.ite_none_right_eq_some.mp h
    cases h
    have hnone : ∀ t, s.rest t = none := hc.1
    have hsub : (s.live.eraseP (·.1 == ap)).Sublist s.live := eraseP_sublist
    exact .call (fun u _ => hnone u) ((hi.idle hnone).freeCall hap fuel) rfl
      (hi.disjoint.sublist (hsub.map block))
  | step i =>
    cases hm : s.rest t with
    | none =>
      simp only [threads, hm] at h
      cases h
    | some m =>
      obtain ⟨hothers, hwp⟩ := hi.busy t m hm
      cases m with
      | fail =>
        simp only [threads, hm] at h
        cases h
      | ret f =>
        simp only [threads, hm] at h
        cases h
        refine .quiet (fun u => ?_) hwp
        by_cases hu : u = t
        · exact hu ▸ update_self ..
        · exact (update_of_ne hu ..).trans (hothers u hu)
      | act o k =>
        simp only [threads, hm] at h
        obtain ⟨r, hr, rfl⟩ := Option.map_eq_some_iff.mp h
        obtain ⟨r', a', hr', hk⟩ := hwp i (hc.2 o k hm)
        rw [hr'] at hr
        cases hr
        exact .call hothers hk rfl hi.disjoint

/-- **The heap of threads that do not overlap.** If no call begins while another one is in progress
and each request that succeeds yields a fresh region, the live blocks are disjoint, and the free
list is well formed whenever no call is in progress. -/
theorem serial_heap (W : Window) (mem : Nat → Nat) (ls : List (τ × Move))
    (hc : (threads W).Meets (fun s l => Serial s l ∧ Supplied W s l) { arena := { mem } } ls)
    (hr : (threads W).run { arena := { mem } } ls = some s) :
    ((s.live.map block).Pairwise fun b c => ∀ x, InBlk HEADER b x → ¬ InBlk HEADER c x) ∧
    ((∀ t, s.rest t = none) →
      s.arena.freep = 0 ∧ s.arena.regions = [] ∧ s.live = [] ∨
        ∃ F, WellFormed W ⟨s.arena, s.live⟩ F) := by
  have hi : OneCall W s := Machine.run_inv OneCall.next
    (.quiet (fun _ => rfl) ⟨[], .inl ⟨⟨rfl, rfl⟩, rfl, rfl⟩⟩) hc hr
  exact ⟨hi.disjoint, fun h => (hi.idle h).wellFormed⟩

end Threads

/-! ## Two calls at a time -/

def boot : Threads Bool := { arena := { mem := fun _ => 0 } }

/-- The page that the one request of the run gets. -/
def page : Answer := some (0x80100000, fun _ => 0)

/-- The thread makes `n` moves, none of them a request that succeeds. -/
def go (t : Bool) (n : Nat) : List (Bool × Move) := List.replicate n (t, .step none)

/-- `true` calls `knmalloc(8)` up to its request. -/
def toRequest : List (Bool × Move) := (true, .malloc 8 5) :: go true 7

/-- It gets the page and returns. It calls `knmalloc(8)` again, up to the load of
`p->s.size -= nunits`; `false` calls it and returns, and `true` goes on with the store. -/
def afterRequest : List (Bool × Move) :=
  go true 21 ++ (true, .malloc 8 5) :: go true 5 ++ (false, .malloc 8 5) :: go false 10 ++ go true 5

def overlapped : List (Bool × Move) := toRequest ++ (true, .step page) :: afterRequest

section Overlapped
variable {W : Window} {s : Threads Bool} {l : Bool × Move}

/-- The request that a thread is about to make. -/
def atCore : Option Rest → Option Nat
  | some (.act (.core nu) _) => some nu
  | _ => none

theorem atCore_eq {r : Option Rest} {nu : Nat} {o : Op} {k : o.Res → Rest} (h : atCore r = some nu)
    (hr : r = some (.act o k)) : o = .core nu := by
  subst hr
  cases o <;> cases h
  rfl

theorem supplied_page {t : Bool} (hcore : atCore (s.rest t) = some 4096)
    (hreg : s.arena.regions = []) : Supplied (kernelWindow image) s (t, .step page) := by
  intro o k hm
  rw [atCore_eq hcore hm]
  refine ⟨by decide, by decide, fun r hr => ?_⟩
  rw [hreg] at hr
  cases hr

theorem supplied_go {t : Bool} {n : Nat} (h : l ∈ go t n) : Supplied W s l := by
  rw [eq_of_mem_replicate h]
  intro o k _
  cases o <;> trivial

theorem supplied_toRequest (h : l ∈ toRequest) : Supplied W s l := by
  rcases mem_cons.mp h with rfl | h
  · trivial
  · exact supplied_go h

theorem supplied_afterRequest (h : l ∈ afterRequest) : Supplied W s l := by
  simp only [afterRequest, mem_append, mem_cons] at h
  rcases h with ((h | rfl | h) | rfl | h) | h
  · exact supplied_go h
  · trivial
  · exact supplied_go h
  · trivial
  · exact supplied_go h
  · exact supplied_go h

/-- Neither thread is in a call. -/
theorem idle_of_isNone (ht : (s.rest true).isNone = true) (hf : (s.rest false).isNone = true) :
    ∀ t, s.rest t = none :=
  Bool.forall_bool.mpr ⟨Option.isNone_iff_eq_none.mp hf, Option.isNone_iff_eq_none.mp ht⟩

/-- Every request of the run is supplied. -/
theorem meets_overlapped : (threads (kernelWindow image)).Meets (Supplied (kernelWindow image)) boot
    overlapped := by
  have hr : ((threads (kernelWindow image)).run boot toRequest).map
      (fun s => (atCore (s.rest true), s.arena.regions)) = some (some 4096, []) := by decide +kernel
  obtain ⟨s, hr, hs⟩ := Option.map_eq_some_iff.mp hr
  obtain ⟨hcore, hreg⟩ := mk.inj hs
  exact (Machine.meets_append hr).mpr ⟨Machine.meets_of_mem fun _ hl _ => supplied_toRequest hl,
    supplied_page hcore hreg, fun _ _ =>
      Machine.meets_of_mem fun _ hl _ => supplied_afterRequest hl⟩

end Overlapped

/-- Two threads get the same block, though every request is supplied. -/
theorem malloc_twice : (threads (kernelWindow image)).Meets (Supplied (kernelWindow image)) boot
      overlapped ∧
    ∃ s, (threads (kernelWindow image)).run boot overlapped = some s ∧ (∀ t, s.rest t = none) ∧
      ¬ (s.live.map block).Pairwise fun b c => ∀ x, InBlk HEADER b x → ¬ InBlk HEADER c x := by
  refine ⟨meets_overlapped, ?_⟩
  have hr : ((threads (kernelWindow image)).run boot overlapped).map
      (fun s => (s.live.map block, (s.rest true).isNone, (s.rest false).isNone)) =
      some ([(0x8010ffc0, 2), (0x8010ffc0, 2), (0x8010ffe0, 2)], true, true) := by decide +kernel
  obtain ⟨s, hr, hs⟩ := Option.map_eq_some_iff.mp hr
  obtain ⟨hl, hrest⟩ := mk.inj hs
  obtain ⟨ht, hf⟩ := mk.inj hrest
  refine ⟨s, hr, idle_of_isNone ht hf, fun h => ?_⟩
  rw [hl] at h
  exact (pairwise_cons.mp h).1 _ (mem_cons_self ..) _ (inBlk_self header_pos (by decide))
    (inBlk_self header_pos (by decide))

/-- The same calls one after the other. -/
def inTurn : List (Bool × Move) :=
  toRequest ++ (true, .step page) :: (go true 21 ++ (false, .malloc 8 5) :: go false 10)

theorem serial_go {s : Threads Bool} {l : Bool × Move} {t : Bool} {n : Nat} (h : l ∈ go t n) :
    Serial s l := by
  rw [eq_of_mem_replicate h]
  trivial

theorem meets_go {t : Bool} {n : Nat} (s : Threads Bool) : (threads (kernelWindow image)).Meets
    (fun s l => Serial s l ∧ Supplied (kernelWindow image) s l) s (go t n) :=
  Machine.meets_of_mem fun _ hl _ => ⟨serial_go hl, supplied_go hl⟩

theorem meets_inTurn : (threads (kernelWindow image)).Meets
    (fun s l => Serial s l ∧ Supplied (kernelWindow image) s l) boot inTurn := by
  have hr : ((threads (kernelWindow image)).run boot toRequest).map
      (fun s => (atCore (s.rest true), s.arena.regions)) = some (some 4096, []) := by decide +kernel
  obtain ⟨s1, hr1, hs⟩ := Option.map_eq_some_iff.mp hr
  obtain ⟨hcore, hreg⟩ := mk.inj hs
  have hr : ((threads (kernelWindow image)).run boot
      (toRequest ++ (true, .step page) :: go true 21)).map
      (fun s => ((s.rest true).isNone, (s.rest false).isNone)) = some (true, true) := by
    decide +kernel
  obtain ⟨s3, hr3, hs⟩ := Option.map_eq_some_iff.mp hr
  obtain ⟨ht, hf⟩ := mk.inj hs
  obtain ⟨s1', hr1', hr3⟩ := Machine.run_append.mp hr3
  obtain rfl : s1 = s1' := Option.some.inj (hr1.symm.trans hr1')
  obtain ⟨s2, hn, hr3⟩ := Machine.run_cons.mp hr3
  refine (Machine.meets_append hr1).mpr ⟨⟨⟨fun _ => rfl, trivial⟩, fun s _ => meets_go s⟩, ?_⟩
  refine (Machine.meets_cons hn).mpr ⟨⟨trivial, supplied_page hcore hreg⟩, ?_⟩
  exact (Machine.meets_append hr3).mpr
    ⟨meets_go s2, ⟨idle_of_isNone ht hf, trivial⟩, fun s _ => meets_go s⟩

theorem serial_heap_inTurn : ∃ s, (threads (kernelWindow image)).run boot inTurn = some s ∧
    s.live.map block = [(0x8010ffc0, 2), (0x8010ffe0, 2)] ∧
    ∃ F, WellFormed (kernelWindow image) ⟨s.arena, s.live⟩ F := by
  have hr : ((threads (kernelWindow image)).run boot inTurn).map
      (fun s => (s.live.map block, (s.rest true).isNone, (s.rest false).isNone)) =
      some ([(0x8010ffc0, 2), (0x8010ffe0, 2)], true, true) := by decide +kernel
  obtain ⟨s, hr, hs⟩ := Option.map_eq_some_iff.mp hr
  obtain ⟨hl, hrest⟩ := mk.inj hs
  obtain ⟨ht, hf⟩ := mk.inj hrest
  refine ⟨s, hr, hl, ?_⟩
  rcases (serial_heap _ _ _ meets_inTurn hr).2 (idle_of_isNone ht hf) with ⟨-, -, hnil⟩ | hF
  · rw [hnil] at hl
    cases hl
  · exact hF

end Xv6.Malloc
