import Xv6Rcu.Mem.Alloc
import Mathlib.Logic.Relation

/-!
# The kernel heap when memory runs out

`knmorecore` does not test for the `NULL` of `kalloc`, and asks for one page whatever the request.

- `Graceful`: what a caller of `knmalloc` can rely on.
- **The defect** (`knmalloc_exhausted`): without a free page `knmalloc` writes to the header at
  `NULL`, and with one it returns a block for a request that is larger than a page.
- **What holds** (`served_iff`): while no page is both recorded by the heap and handed out or freed
  (`Sound`), a request is served exactly if it fits in a page, and a free block is large enough or a
  page is left.

The programs of `Mem/Malloc` that ask for no memory (`Quiet`) are run in the kernel as their rules
say (`runKernel_of_wp`); the loop of `knmalloc` is followed to its request.
-/

namespace Xv6.Mem

open Lib Function List Malloc
open Option (bind_eq_some_iff bind_some)

/-- `knmorecore` records this many bytes for its page. -/
def CORE : Nat := 4096 * HEADER

/-- The heap's memory, with the regions that it records. -/
def Heap.arena (s : Heap) : Arena := ⟨s.mem, s.freep, s.core.map (·, 4096)⟩

/-! ## Programs that ask for no memory -/

section Quiet
variable {α β : Type} {m : M α} {lay : Layout} {stuck : Prop} {s : Heap}

def Quiet : M α → Prop
  | .ret _ => True
  | .fail => True
  | .act o k => (∀ nu, o ≠ .core nu) ∧ ∀ r, Quiet (k r)

theorem Quiet.bind {f : α → M β} (hm : Quiet m) (hf : ∀ a, Quiet (f a)) : Quiet (m >>= f) := by
  induction m with
  | ret a => exact hf a
  | fail => trivial
  | act o k ih => exact ⟨hm.1, fun r => ih r (hm.2 r)⟩

theorem quiet_act {o : Op} (ho : ∀ nu, o ≠ .core nu) : Quiet (.act o .ret) := ⟨ho, fun _ => trivial⟩

theorem kernelAccess_eq {o : Op} {r : o.Res} {a : Arena} (ho : ∀ nu, o ≠ .core nu)
    (he : access (kernelWindow lay) o none s.arena = some (r, a)) :
    ∃ s', kernelAccess o () s = some (r, s') ∧ s'.arena = a ∧ s'.core = s.core ∧
      s'.freelist = s.freelist := by
  cases o with
  | core nu => exact absurd rfl (ho nu)
  | freep =>
    cases he
    exact ⟨s, rfl, rfl, rfl, rfl⟩
  | setFreep v =>
    cases he
    exact ⟨_, rfl, rfl, rfl, rfl⟩
  | ptr h | size h =>
    obtain ⟨hm, he⟩ := Option.ite_none_right_eq_some.mp he
    cases he
    refine ⟨s, ?_, rfl, rfl, rfl⟩
    simp only [kernelAccess, Heap.ptr, Heap.size, Heap.load_eq (s := s) hm]
    rfl
  | setPtr h v =>
    obtain ⟨hm, he⟩ := Option.ite_none_right_eq_some.mp he
    cases he
    refine ⟨{ s with mem := update s.mem h v }, ?_, rfl, rfl, rfl⟩
    simp only [kernelAccess, Heap.setPtr, Heap.store_eq (s := s) hm]
    rfl
  | setSize h v =>
    obtain ⟨hm, he⟩ := Option.ite_none_right_eq_some.mp he
    cases he
    refine ⟨_, congrArg (Option.map _) (Heap.setSize_eq hm), rfl, rfl, rfl⟩

/-- What the rules say of a quiet program, it does in the kernel. -/
theorem runKernel_of_wp {Q : α → Arena → Prop} (hq : Quiet m)
    (h : (kernelWindow lay).wp stuck Q m s.arena) :
    runKernel m s = none ∧ stuck ∨ ∃ a s', runKernel m s = some (a, s') ∧ Q a s'.arena ∧
      s'.core = s.core ∧ s'.freelist = s.freelist := by
  induction m generalizing s with
  | ret a => exact .inr ⟨a, s, rfl, h, rfl, rfl⟩
  | fail => exact .inl ⟨rfl, h⟩
  | act o k ih =>
    have hall : Allowed (kernelWindow lay) o none s.arena := by cases o <;> trivial
    obtain ⟨r, a, he, hk⟩ := h none hall
    obtain ⟨s₁, hs₁, rfl, hcore, hfree⟩ := kernelAccess_eq hq.1 he
    have hrun : runKernel (.act o k) s = runKernel (k r) s₁ := by
      show (kernelAccess o () s).bind _ = _
      rw [hs₁]
      rfl
    rw [hrun, ← hcore, ← hfree]
    exact ih r (hq.2 r) hk

theorem quiet_ptr (h : Nat) : Quiet (ptr h) := quiet_act nofun

theorem quiet_size (h : Nat) : Quiet (size h) := quiet_act nofun

theorem quiet_setPtr (h v : Nat) : Quiet (setPtr h v) := quiet_act nofun

theorem quiet_setSize (h v : Nat) : Quiet (setSize h v) := quiet_act nofun

theorem quiet_setFreep (v : Nat) : Quiet (setFreep v) := quiet_act nofun

theorem quiet_ite {c : Prop} [Decidable c] {m' : M α} (hm : Quiet m) (hm' : Quiet m') :
    Quiet (if c then m else m') := by
  split
  · exact hm
  · exact hm'

theorem quiet_carve (nunits prevp p : Nat) : Quiet (Malloc.carve nunits prevp p) := by
  refine (quiet_size p).bind fun _ => quiet_ite ?_ ?_
  · exact (quiet_ptr p).bind fun _ => (quiet_setPtr ..).bind fun _ =>
      (quiet_setFreep _).bind fun _ => trivial
  · exact (quiet_size p).bind fun _ => (quiet_setSize ..).bind fun _ => (quiet_size p).bind fun _ =>
      (quiet_setSize ..).bind fun _ => (quiet_setFreep _).bind fun _ => trivial

theorem quiet_scan (bp fuel p : Nat) : Quiet (scan bp fuel p) := by
  induction fuel generalizing p with
  | zero => trivial
  | succ fuel ih =>
    refine .bind (quiet_ite ((quiet_ptr p).bind fun _ => trivial) trivial) fun _ =>
      quiet_ite trivial (.bind ((quiet_ptr p).bind fun _ => quiet_ite (quiet_ite trivial
        ((quiet_ptr p).bind fun _ => trivial)) trivial) fun _ => quiet_ite trivial ?_)
    exact (quiet_ptr p).bind fun q => ih q

theorem quiet_free (fuel ap : Nat) : Quiet (free fuel ap) := by
  refine (quiet_act (o := .freep) nofun).bind fun _ => (quiet_scan ..).bind fun p =>
    .bind ?_ fun _ => .bind ?_ fun _ => quiet_setFreep p
  · refine (quiet_ptr p).bind fun _ => (quiet_size _).bind fun _ => quiet_ite ?_ ?_
    · exact (quiet_ptr p).bind fun _ => (quiet_size _).bind fun _ => (quiet_size _).bind fun _ =>
        (quiet_setSize ..).bind fun _ => (quiet_ptr p).bind fun _ => (quiet_ptr _).bind fun _ =>
        quiet_setPtr ..
    · exact (quiet_ptr p).bind fun _ => quiet_setPtr ..
  · refine (quiet_size p).bind fun _ => quiet_ite ?_ (quiet_setPtr ..)
    exact (quiet_size _).bind fun _ => (quiet_size p).bind fun _ => (quiet_setSize ..).bind fun _ =>
      (quiet_ptr _).bind fun _ => quiet_setPtr ..

end Quiet

/-! ## The loop of `knmalloc` -/

section Loop
variable {lay : Layout} {s s' : Heap} {F B : List (Nat × Nat)} {l : List Nat}
  {bound k fuel prev u p h nbytes : Nat}

theorem Heap.size_arena (hh : (kernelWindow lay).Hdr h) : s.size h = some (s.arena.size h) :=
  Heap.size_eq hh.size

theorem Heap.ptr_arena (hh : (kernelWindow lay).Hdr h) : s.ptr h = some (s.arena.ptr h) :=
  Heap.load_eq hh.ptr

/-- The loop asks for memory and goes on with what it gets. -/
def asks (bound k fuel : Nat) (s : Heap) : Option (Nat × Heap) :=
  (knmorecore bound s k).bind fun r =>
    if r.1 = 0 then some (0, r.2) else (r.2.ptr r.1).bind (knmallocLoop bound k fuel r.2 r.1)

/-- One round of the loop. -/
theorem knmallocLoop_round (hh : (kernelWindow lay).Hdr p) :
    knmallocLoop bound k (fuel + 1) s prev p =
      if k ≤ s.arena.size p then carve s k prev p (s.arena.size p)
      else if p = s.freep then asks bound k fuel s
      else knmallocLoop bound k fuel s p (s.arena.ptr p) := by
  simp only [knmallocLoop, Heap.size_arena hh, Heap.ptr_arena hh, bind, bind_some, asks, pure]

/-- The loop passes the nodes `l` to `freep`: it finds a block, runs out of rounds, or asks for
memory. -/
theorem knmallocLoop_walk (hs : Seg (link s.arena) (some (s.arena.ptr prev)) l (some s.freep))
    (hnf : s.freep ∉ l) (hhdr : ∀ a ∈ l ++ [s.freep], (kernelWindow lay).Hdr a)
    (bound k fuel : Nat) :
    (∃ u ∈ prev :: l, k ≤ s.arena.size (s.arena.ptr u) ∧
      knmallocLoop bound k fuel s prev (s.arena.ptr prev) =
        carve s k u (s.arena.ptr u) (s.arena.size (s.arena.ptr u))) ∨
    (fuel ≤ l.length ∧ knmallocLoop bound k fuel s prev (s.arena.ptr prev) = none) ∨
    (∀ a ∈ l ++ [s.freep], s.arena.size a < k) ∧ ∃ n, fuel = n + (l.length + 1) ∧
      knmallocLoop bound k fuel s prev (s.arena.ptr prev) = asks bound k n s := by
  induction fuel generalizing prev l with
  | zero => exact .inr (.inl ⟨Nat.zero_le _, rfl⟩)
  | succ fuel ih =>
    have hp : s.arena.ptr prev ∈ l ++ [s.freep] := by
      cases l with
      | nil => simp [Option.some.inj hs]
      | cons a l => simp [Option.some.inj hs.1]
    rw [knmallocLoop_round (hhdr _ hp)]
    by_cases hle : k ≤ s.arena.size (s.arena.ptr prev)
    · exact .inl ⟨prev, by simp, hle, if_pos hle⟩
    rw [if_neg hle]
    cases l with
    | nil =>
      have hq : s.arena.ptr prev = s.freep := Option.some.inj hs
      exact .inr (.inr ⟨by simpa [hq] using hle, fuel, rfl, if_pos hq⟩)
    | cons a l =>
      have ha : s.arena.ptr prev = a := Option.some.inj hs.1
      rw [ha, if_neg fun he => hnf (by simp [← he])]
      rw [ha] at hle
      rcases ih hs.2 (fun h => hnf (by simp [h])) (fun b hb => hhdr b (by simp [hb])) with
        ⟨u, hu, hfit⟩ | ⟨hlen, hnone⟩ | ⟨hsmall, n, rfl, hask⟩
      · exact .inl ⟨u, by simp [hu], hfit⟩
      · exact .inr (.inl ⟨by simpa using hlen, hnone⟩)
      · refine .inr (.inr ⟨?_, n, rfl, hask⟩)
        rintro b hb
        rcases mem_cons.mp hb with rfl | hb
        · omega
        · exact hsmall b hb

/-- The pointers of the nodes lead to nodes. -/
theorem ptr_mem_nodes {W : Window} {a : Arena} (h : Holds W a F B) (hu : u ∈ nodes W F) :
    a.ptr u ∈ nodes W F := by
  obtain ⟨l₁, l₂, hl⟩ := append_of_mem hu
  have hc := h.cycle
  rw [hl, seg_append] at hc
  obtain ⟨_, -, -, htail⟩ := hc
  cases l₂ with
  | nil =>
    rw [show a.ptr u = W.base from Option.some.inj htail]
    exact mem_cons_self ..
  | cons b l₂ =>
    rw [show a.ptr u = b from Option.some.inj htail.1, hl]
    simp

/-- A node with a size is a free block. -/
theorem block_of_node {W : Window} {a : Arena} (h : Holds W a F B) (hu : u ∈ nodes W F)
    (hpos : 0 < a.size u) : (u, a.size u) ∈ F := by
  rcases mem_cons.mp hu with rfl | hu
  · rw [h.base] at hpos
    exact absurd hpos (Nat.lt_irrefl 0)
  · obtain ⟨c, hc, rfl⟩ := mem_map.mp hu
    rwa [h.free c hc]

/-- The block that the loop takes. -/
theorem carve_holds (h : Holds (kernelWindow lay) s.arena F B) (hu : u ∈ nodes (kernelWindow lay) F)
    (hk : 0 < k) (hle : k ≤ s.arena.size (s.arena.ptr u)) :
    ∃ a s' F', carve s k u (s.arena.ptr u) (s.arena.size (s.arena.ptr u)) = some (a + HEADER, s') ∧
      Holds (kernelWindow lay) s'.arena F' ((a, k) :: B) := by
  have hw : (kernelWindow lay).wp False (fun r a => ∃ b F', r = b + HEADER ∧
      Holds (kernelWindow lay) a F' ((b, k) :: B)) (Malloc.carve k u (s.arena.ptr u)) s.arena :=
    h.carve hu hk hle fun b F' _ hF' _ => ⟨b, F', rfl, hF'⟩
  rcases runKernel_of_wp (quiet_carve ..) hw with
    ⟨-, hno⟩ | ⟨r, s', hrun, ⟨b, F', rfl, hF'⟩, -⟩
  · exact hno.elim
  · have hsize := Heap.size_arena (s := s) (h.tiled.nodes_hdr _ (ptr_mem_nodes h hu))
    rw [runKernel_carve k u _ hsize hle] at hrun
    exact ⟨b, s', F', hrun, hF'⟩

/-- `knmorecore` with a page whose 64 KiB are free for the heap. -/
theorem knmorecore_holds (h : Holds (kernelWindow lay) s.arena F B) (hp : s.freelist = p)
    (hfresh : Malloc.Fresh (kernelWindow lay) s.arena 4096 p) (hk : k ≤ 4096) (bound : Nat) :
    knmorecore bound s k = none ∧ bound < 2 * (F.length + 1) ∨
    ∃ s' F', knmorecore bound s k = some (s'.freep, s') ∧
      Holds (kernelWindow lay) s'.arena F' B ∧ F'.length ≤ F.length + 1 ∧ ∃ c ∈ F', k ≤ c.2 := by
  have habove : lay.base + HEADER ≤ p := hfresh.above
  have hbelow : p + 4096 * HEADER ≤ PHYSTOP := hfresh.below
  have hbase := lay.kernbase_le
  simp only [HEADER] at habove hbelow
  have h0 : p ≠ 0 := by omega
  have hmap : mapped p = true := by simp only [mapped, decide_eq_true_eq]; omega
  have hmap8 : mapped (p + 8) = true := by simp only [mapped, decide_eq_true_eq]; omega
  have hnu : (if k < 4096 then 4096 else k) = 4096 := by split <;> omega
  have hne : p ≠ 2 ^ 64 - 1 := by
    have : PHYSTOP < 2 ^ 64 - 1 := by decide
    omega
  have hka : kalloc s.toPhys = some (p, ⟨memsetPage s.mem p 0x0505050505050505, s.mem p⟩) := by
    rw [kalloc, hp, if_neg h0, if_pos hmap]
  -- the page with its size recorded
  let s₁ : Heap := { s with
    mem := update (memsetPage s.mem p 0x0505050505050505) (p + 8)
      (memsetPage s.mem p 0x0505050505050505 (p + 8) / 2 ^ 32 * 2 ^ 32 + 4096 % 2 ^ 32)
    freelist := s.mem p
    core := p :: s.core }
  have hs₁ : knmorecore bound s k =
      (knfree bound s₁ (p + HEADER)).map fun s' => (s'.freep, s') := by
    simp only [knmorecore, hnu, hka, bind, bind_some, if_neg hne, Heap.setSize_eq hmap8, s₁]
    exact (Option.map_eq_bind).symm
  have hg := h.grow (memsetPage s.mem p 0x0505050505050505) hfresh (by decide)
  have harena : s₁.arena = (s.arena.grow 4096
      (some (p, memsetPage s.mem p 0x0505050505050505))).2.setSize p 4096 := by
    have hmem : memsetPage s.mem p 0x0505050505050505 = fun a => if p ≤ a ∧ a < p + 4096 * HEADER
        then memsetPage s.mem p 0x0505050505050505 a else s.mem a := by
      funext a
      split
      · rfl
      · rename_i hout
        simp only [HEADER] at hout
        rw [memsetPage, if_neg (by simp only [PGSIZE]; omega)]
    simp only [Heap.arena, Arena.grow, Arena.setSize, s₁, ← hmem]
    rfl
  rw [← harena] at hg
  have hf : 2 * (F.length + 1) ≤ bound ∨ bound < 2 * (F.length + 1) := (Nat.lt_or_ge _ _).symm
  have hw := free_wp hg hf
  rw [hs₁]
  rcases runKernel_of_wp (quiet_free ..) hw with
    ⟨hno, hst⟩ | ⟨_, s', hrun, ⟨F', hF', -, hlen, hc⟩, -⟩
  · rw [runKernel_free, Option.map_eq_none_iff] at hno
    exact .inl ⟨by rw [hno]; rfl, hst⟩
  · rw [runKernel_free] at hrun
    obtain ⟨s', hk', he⟩ := Option.map_eq_some_iff.mp hrun
    cases he
    obtain ⟨c, hc, hle⟩ := hc
    exact .inr ⟨s', F', by rw [hk']; rfl, hF', hlen, c, hc, Nat.le_trans hk hle⟩

/-- The loop, from `freep` around to it. -/
theorem knmallocLoop_cases (h : Holds (kernelWindow lay) s.arena F B) (bound k fuel : Nat) :
    (∃ u ∈ nodes (kernelWindow lay) F, k ≤ s.arena.size (s.arena.ptr u) ∧
      knmallocLoop bound k fuel s s.freep (s.arena.ptr s.freep) =
        carve s k u (s.arena.ptr u) (s.arena.size (s.arena.ptr u))) ∨
    (fuel ≤ F.length ∧ knmallocLoop bound k fuel s s.freep (s.arena.ptr s.freep) = none) ∨
    (∀ c ∈ F, c.2 < k) ∧ ∃ n, fuel = n + (F.length + 1) ∧
      knmallocLoop bound k fuel s s.freep (s.arena.ptr s.freep) = asks bound k n s := by
  obtain ⟨l, hs, hnf, hlen, hmem⟩ := h.rotate
  rcases knmallocLoop_walk hs hnf (fun a ha => h.tiled.nodes_hdr a ((hmem a).mp ha)) bound k
    fuel with ⟨u, hu, hfit⟩ | ⟨hf, hnone⟩ | ⟨hsmall, hask⟩
  · refine .inl ⟨u, ?_, hfit⟩
    rcases mem_cons.mp hu with rfl | hu
    · exact h.freep
    · exact (hmem u).mp (mem_append_left _ hu)
  · exact .inr (.inl ⟨hlen ▸ hf, hnone⟩)
  · refine .inr (.inr ⟨fun c hc => ?_, hlen ▸ hask⟩)
    rw [← h.free c hc]
    exact hsmall c.1 ((hmem c.1).mpr (mem_nodes hc))

/-- A block of `k` units was taken. -/
def Took (lay : Layout) (B : List (Nat × Nat)) (k : Nat) (r : Nat × Heap) : Prop :=
  ∃ a F', r.1 = a + HEADER ∧ Holds (kernelWindow lay) r.2.arena F' ((a, k) :: B)

/-- The loop ends with a block when one is large enough. -/
theorem loop_took (h : Holds (kernelWindow lay) s.arena F B) (hk : 0 < k)
    (hlarge : ∃ c ∈ F, k ≤ c.2) (bound fuel : Nat) :
    fuel ≤ F.length ∧ knmallocLoop bound k fuel s s.freep (s.arena.ptr s.freep) = none ∨
    ∃ r, knmallocLoop bound k fuel s s.freep (s.arena.ptr s.freep) = some r ∧ Took lay B k r := by
  rcases knmallocLoop_cases h bound k fuel with ⟨u, hu, hle, he⟩ | hnone | ⟨hsmall, -⟩
  · obtain ⟨a, s', F', hc, hF'⟩ := carve_holds h hu hk hle
    exact .inr ⟨_, he.trans hc, a, F', rfl, hF'⟩
  · exact .inl hnone
  · obtain ⟨c, hc, hle⟩ := hlarge
    exact absurd hle (Nat.not_le_of_lt (hsmall c hc))

/-- It asks for memory once and then finds a block. -/
theorem asks_took (h : Holds (kernelWindow lay) s.arena F B) (hk : 0 < k) (hk' : k ≤ 4096)
    (hfresh : Malloc.Fresh (kernelWindow lay) s.arena 4096 s.freelist) (bound fuel : Nat) :
    (bound < 2 * (F.length + 1) ∨ fuel ≤ F.length + 1) ∧ asks bound k fuel s = none ∨
    ∃ r, asks bound k fuel s = some r ∧ Took lay B k r := by
  rcases knmorecore_holds h rfl hfresh hk' bound with
    ⟨hno, hlt⟩ | ⟨s', F', hs', hF', hlen, hlarge⟩
  · exact .inl ⟨.inl hlt, by rw [asks, hno]; rfl⟩
  · have he : asks bound k fuel s =
        knmallocLoop bound k fuel s' s'.freep (s'.arena.ptr s'.freep) := by
      have hf : s'.freep ≠ 0 := hF'.freep_ne
      have hq : s'.ptr s'.freep = some (s'.arena.ptr s'.freep) :=
        Heap.ptr_arena (hF'.tiled.nodes_hdr _ hF'.freep)
      simp [asks, hs', hf, hq]
    rw [he]
    exact (loop_took hF' hk hlarge bound fuel).imp_left fun h => ⟨.inr (by omega), h.2⟩

/-- The heap is intact: its free blocks are `F` and its live blocks `B`. -/
abbrev Intact (lay : Layout) (s : Heap) (F B : List (Nat × Nat)) : Prop :=
  Malloc.Heap (kernelWindow lay) s.arena F B

/-- `knmalloc` is its loop on a heap that has been set up. -/
theorem knmalloc_loop (h : Intact lay s F B) (nbytes fuel : Nat) :
    ∃ s₀, Holds (kernelWindow lay) s₀.arena F B ∧ s₀.core = s.core ∧ s₀.freelist = s.freelist ∧
      knmalloc lay fuel s nbytes =
        knmallocLoop fuel (units nbytes) fuel s₀ s₀.freep (s₀.arena.ptr s₀.freep) := by
  have hq : Quiet (Malloc.initFreep lay.base) := by
    refine (quiet_act (o := .freep) nofun).bind fun _ => quiet_ite ?_ trivial
    exact (quiet_setFreep _).bind fun _ => (quiet_setPtr ..).bind fun _ =>
      (quiet_setSize ..).bind fun _ => trivial
  have hw : (kernelWindow lay).wp False _ (Malloc.initFreep lay.base) s.arena := init_wp h
  rcases runKernel_of_wp hq hw with
    ⟨-, hno⟩ | ⟨_, s₀, hrun, ⟨-, h₀, -⟩, hcore, hfree⟩
  · exact hno.elim
  · rw [runKernel_initFreep] at hrun
    obtain ⟨s₁, hinit, he⟩ := Option.map_eq_some_iff.mp hrun
    obtain ⟨-, rfl⟩ := Prod.mk.inj he
    refine ⟨s₁, h₀, hcore, hfree, ?_⟩
    have hp : s₁.ptr s₁.freep = some (s₁.arena.ptr s₁.freep) :=
      Heap.ptr_arena (h₀.tiled.nodes_hdr _ h₀.freep)
    simp [knmalloc, hinit, hp]

/-- A call that finds a block, or gets a page for it. -/
theorem knmalloc_took (h : Intact lay s F B) (hk : units nbytes ≤ 4096)
    (hserve : (∃ c ∈ F, units nbytes ≤ c.2) ∨
      Malloc.Fresh (kernelWindow lay) s.arena 4096 s.freelist) (fuel : Nat) :
    fuel < 2 * F.length + 3 ∧ knmalloc lay fuel s nbytes = none ∨
    ∃ r, knmalloc lay fuel s nbytes = some r ∧ Took lay B (units nbytes) r := by
  obtain ⟨s₀, h₀, hcore, hfree, he⟩ := knmalloc_loop h nbytes fuel
  rw [he]
  rcases knmallocLoop_cases h₀ fuel (units nbytes) fuel with
    ⟨u, hu, hle, he⟩ | ⟨hf, hnone⟩ | ⟨hsmall, n, hn, he⟩
  · obtain ⟨a, s', F', hc, hF'⟩ := carve_holds h₀ hu (units_pos _) hle
    exact .inr ⟨_, he.trans hc, a, F', rfl, hF'⟩
  · exact .inl ⟨by omega, hnone⟩
  · rcases hserve with ⟨c, hc, hle⟩ | hfresh
    · exact absurd hle (Nat.not_le_of_lt (hsmall c hc))
    · have hfresh₀ : Malloc.Fresh (kernelWindow lay) s₀.arena 4096 s₀.freelist := by
        rw [hfree]
        refine ⟨hfresh.above, hfresh.below, ?_⟩
        simpa only [Heap.arena, hcore] using hfresh.disjoint
      rw [he]
      rcases asks_took h₀ (units_pos _) hk hfresh₀ fuel n with ⟨hb, hnone⟩ | ⟨r, hr, ht⟩
      · exact .inl ⟨by omega, hnone⟩
      · exact .inr ⟨r, hr, ht⟩

end Loop

/-! ## The property -/

/-- A free block: `freep` leads to it and its header has its size. -/
def Free (s : Heap) (b : Nat × Nat) : Prop :=
  Relation.ReflTransGen (fun p q => s.ptr p = some q) s.freep b.1 ∧ s.size b.1 = some b.2 ∧ 0 < b.2

/-- A free block is large enough for the request. -/
def Fits (t : St) (nbytes : Nat) : Prop := ∃ b, Free t.toHeap b ∧ units nbytes ≤ b.2

/-- The page `p` has nothing in common with the memory that the heap records. -/
def Clear (lay : Layout) (t : St) (p : Nat) : Prop :=
  lay.kend ≤ p ∧ ∀ q ∈ t.core, p + PGSIZE ≤ q ∨ q + CORE ≤ p

/-- What `knmorecore` would record for the next page is RAM, and is not recorded yet. -/
def Room (lay : Layout) (t : St) : Prop :=
  lay.kend ≤ t.freelist ∧ t.freelist + CORE ≤ PHYSTOP ∧
    ∀ q ∈ t.core, t.freelist + CORE ≤ q ∨ q + CORE ≤ t.freelist

/-- The calls that keep what the heap records to the heap: no page of it is handed out or freed, and
`knmalloc` is served. -/
def Sound (lay : Layout) (t : St) : Call → Prop
  | .kalloc => t.freelist ≠ 0 → Clear lay t t.freelist
  | .kfree pa => Clear lay t pa
  | .knmalloc nbytes _ => nbytes + HEADER ≤ PGSIZE ∧ (Fits t nbytes ∨ Room lay t)
  | .knfree _ _ => True

/-! ## Runs -/

section Runs
variable {lay : Layout} {s s' : Heap} {t t' : St} {F B : List (Nat × Nat)} {b : Nat × Nat}
  {fuel nbytes a p q : Nat} {c : Call}

theorem reach_null (h0 : s.freep = 0)
    (hr : Relation.ReflTransGen (fun p q => s.ptr p = some q) s.freep p) : p = 0 := by
  induction hr with
  | refl => exact h0
  | tail _ hq ih => rw [ih] at hq; cases hq

/-- `freep` leads to nodes only. -/
theorem reach_mem (h : Holds (kernelWindow lay) s.arena F B)
    (hr : Relation.ReflTransGen (fun p q => s.ptr p = some q) s.freep p) :
    p ∈ nodes (kernelWindow lay) F := by
  induction hr with
  | refl => exact h.freep
  | tail _ hq ih =>
    rw [Heap.ptr_arena (h.tiled.nodes_hdr _ ih)] at hq
    rw [← Option.some.inj hq]
    exact ptr_mem_nodes h ih

/-- The pointers lead from a node along the list. -/
theorem reach_seg {l : List Nat} {e : Option Nat} (hp : (kernelWindow lay).Hdr p)
    (hs : Seg (link s.arena) (some (s.arena.ptr p)) l e)
    (hhdr : ∀ a ∈ l, (kernelWindow lay).Hdr a) (hq : q ∈ l) :
    Relation.ReflTransGen (fun p q => s.ptr p = some q) p q := by
  induction l generalizing p with
  | nil => cases hq
  | cons a l ih =>
    have ha : s.arena.ptr p = a := Option.some.inj hs.1
    have hstep : s.ptr p = some a := by rw [Heap.ptr_arena hp, ha]
    rcases mem_cons.mp hq with rfl | hq
    · exact .single hstep
    · exact .head hstep (ih (hhdr a (mem_cons_self ..)) hs.2
        (fun b hb => hhdr b (mem_cons_of_mem _ hb)) hq)

/-- The free blocks are those of the list. -/
theorem free_iff (h : Intact lay s F B) : Free s b ↔ b ∈ F := by
  rcases h with ⟨he, rfl, -⟩ | h
  · refine ⟨fun hb => ?_, fun hb => by cases hb⟩
    have hsize := hb.2.1
    rw [reach_null he.1 hb.1] at hsize
    cases hsize
  · constructor
    · rintro ⟨hr, hsize, hpos⟩
      have hn := reach_mem h hr
      rw [Heap.size_arena (h.tiled.nodes_hdr _ hn)] at hsize
      have hb := Option.some.inj hsize
      rw [← hb] at hpos
      have := block_of_node h hn hpos
      rwa [hb] at this
    · intro hb
      obtain ⟨l, hs, -, -, hmem⟩ := h.rotate
      have hn := h.tiled.nodes_hdr
      refine ⟨?_, ?_, h.tiled.pos_mem (.inl hb)⟩
      · rcases mem_append.mp ((hmem b.1).mpr (mem_nodes hb)) with hl | hl
        · exact reach_seg (hn _ h.freep) hs
            (fun a ha => hn a ((hmem a).mp (mem_append_left _ ha))) hl
        · rw [mem_singleton.mp hl]
          exact .refl
      · rw [Heap.size_arena (hn _ (mem_nodes hb)), h.free b hb]

/-- The heap only depends on its own memory. -/
theorem Intact.congr {mem' : Nat → Nat} (h : Intact lay s F B) (fl : Nat)
    (hm : ∀ x, x < lay.kend ∨ (∃ q ∈ s.core, q ≤ x ∧ x < q + CORE) → mem' x = s.mem x) :
    Intact lay { s with mem := mem', freelist := fl } F B := by
  rcases h with h | h
  · exact .inl ⟨⟨h.1.1, h.1.2⟩, h.2⟩
  have hbase := lay.base_lt
  have hblk : ∀ b ∈ F ++ B, ∀ x, InBlk HEADER b x → mem' x = s.mem x := by
    intro b hb x hx
    have hcov : Covers HEADER s.arena.regions x := (h.tiled.cover x).mpr <|
      (mem_append.mp hb).imp (fun hb => ⟨b, hb, hx⟩) fun hb => ⟨b, hb, hx⟩
    obtain ⟨r, hr, hx⟩ := hcov
    obtain ⟨q, hq, rfl⟩ := mem_map.mp hr
    exact hm x (.inr ⟨q, hq, hx⟩)
  have hhdr : ∀ b ∈ F ++ B, mem' b.1 = s.mem b.1 ∧ mem' (b.1 + 8) = s.mem (b.1 + 8) := by
    intro b hb
    have hpos := h.tiled.pos_mem (mem_append.mp hb)
    constructor <;> refine hblk b hb _ ?_ <;> simp only [InBlk, HEADER] <;> omega
  have hlow : mem' lay.base = s.mem lay.base ∧ mem' (lay.base + 8) = s.mem (lay.base + 8) :=
    ⟨hm _ (.inl (by omega)), hm _ (.inl (by omega))⟩
  have hsize : ∀ b ∈ F ++ B, s.arena.size b.1 = b.2 → mem' (b.1 + 8) % 2 ^ 32 = b.2 :=
    fun b hb he => by rw [(hhdr b hb).2]; exact he
  refine .inr ⟨h.tiled, ?_, fun b hb => hsize b (mem_append_left _ hb) (h.free b hb),
    fun b hb => hsize b (mem_append_right _ hb) (h.live b hb), ?_, h.freep⟩
  · refine Seg.congr h.cycle fun a ha => ?_
    rcases mem_cons.mp ha with rfl | ha
    · exact congrArg some hlow.1
    · obtain ⟨b, hb, rfl⟩ := mem_map.mp ha
      exact congrArg some (hhdr b (mem_append_left _ hb)).1
  · show mem' (lay.base + 8) % 2 ^ 32 = 0
    rw [hlow.2]
    exact h.base

/-- A page that is clear can be written. -/
theorem Clear.congr {mem' : Nat → Nat} (hc : Clear lay t p) (h : Intact lay t.toHeap F B) (fl : Nat)
    (hm : ∀ x, x < p ∨ p + PGSIZE ≤ x → mem' x = t.mem x) :
    Intact lay { t.toHeap with mem := mem', freelist := fl } F B := by
  have hlow := hc.1
  refine h.congr fl fun x hx => hm x ?_
  rcases hx with hx | ⟨q, hq, hx⟩
  · omega
  · have := hc.2 q hq
    omega

theorem Room.fresh (h : Room lay t) :
    Malloc.Fresh (kernelWindow lay) t.arena 4096 t.freelist := by
  have hbase := lay.base_lt
  refine ⟨Nat.le_trans hbase h.1, h.2.1, fun r hr x hx hx' => ?_⟩
  obtain ⟨q, hq, rfl⟩ := mem_map.mp hr
  have := h.2.2 q hq
  simp only [InBlk, CORE] at *
  omega

/-- No other live block begins where `b` begins. -/
theorem perm_filter_live {W : Window} {R : List (Nat × Nat)} (h : Tiled W R F B)
    (hb : b ∈ B) : B.Perm (b :: B.filter (·.1 ≠ b.1)) := by
  obtain ⟨l₁, l₂, rfl⟩ := append_of_mem hb
  have hperm : (l₁ ++ b :: l₂).Perm (b :: (l₁ ++ l₂)) := perm_middle
  have hlive := (hperm.pairwise_iff fun hxy x hy hx => hxy x hx hy).mp h.live
  have hne : ∀ c ∈ l₁ ++ l₂, c.1 ≠ b.1 := fun c hc he => by
    have hb' := inBlk_self header_pos (h.pos b hb)
    have hc' := inBlk_self header_pos (h.pos c (hperm.mem_iff.mpr (mem_cons_of_mem _ hc)))
    exact (pairwise_cons.mp hlive).1 c hc b.1 hb' (he ▸ hc')
  have hfilter : (l₁ ++ b :: l₂).filter (·.1 ≠ b.1) = l₁ ++ l₂ := by
    rw [filter_append, filter_cons_of_neg (by simp), ← filter_append, filter_eq_self]
    exact fun c hc => decide_eq_true (hne c hc)
  rw [hfilter]
  exact hperm

/-- A call with a block or a page for it. -/
theorem Intact.took (h : Intact lay t.toHeap F t.blocks) (hn : nbytes + HEADER ≤ PGSIZE)
    (hs : Fits t nbytes ∨ Room lay t) (fuel : Nat) :
    fuel < 2 * F.length + 3 ∧ knmalloc lay fuel t.toHeap nbytes = none ∨
    ∃ r, knmalloc lay fuel t.toHeap nbytes = some r ∧ Took lay t.blocks (units nbytes) r := by
  have hk : units nbytes ≤ 4096 := by
    simp only [units, HEADER, PGSIZE] at *
    omega
  refine knmalloc_took h hk ?_ fuel
  rcases hs with ⟨b, hb, hle⟩ | hr
  · exact .inl ⟨b, (free_iff h).mp hb, hle⟩
  · exact .inr hr.fresh

/-- The heap is intact, and its live blocks are those of the callers. -/
def Whole (lay : Layout) (t : St) : Prop := ∃ F, Intact lay t.toHeap F t.blocks

theorem Whole.next (h : Whole lay t) (hc : Sound lay t c) (hn : (heap lay).next t c = some t') :
    Whole lay t' := by
  obtain ⟨F, h⟩ := h
  cases c with
  | kalloc =>
    obtain ⟨⟨p, phys⟩, hk, he⟩ := bind_eq_some_iff.mp hn
    cases he
    unfold Mem.kalloc at hk
    split at hk
    · cases hk
      exact ⟨F, h⟩
    · rename_i h0
      obtain ⟨-, hk⟩ := Option.ite_none_right_eq_some.mp hk
      cases hk
      exact ⟨F, (hc h0).congr h _ fun x hx => if_neg (by omega)⟩
  | kfree pa =>
    obtain ⟨-, hn⟩ := Option.ite_none_right_eq_some.mp hn
    obtain ⟨phys, hk, he⟩ := bind_eq_some_iff.mp hn
    cases he
    obtain ⟨-, hk⟩ := Option.ite_none_left_eq_some.mp hk
    cases hk
    refine ⟨F, Clear.congr hc h _ fun x hx => ?_⟩
    have hne : x ≠ pa := by
      simp only [PGSIZE] at hx
      omega
    rw [update_of_ne hne, memsetPage, if_neg (by omega)]
  | knmalloc nbytes fuel =>
    obtain ⟨-, hn⟩ := Option.ite_none_right_eq_some.mp hn
    obtain ⟨⟨a, s'⟩, hk, he⟩ := bind_eq_some_iff.mp hn
    rcases h.took hc.1 hc.2 fuel with ⟨-, hno⟩ | ⟨r, hr, b, F', hb, hF'⟩
    · rw [hno] at hk
      cases hk
    · rw [hr] at hk
      cases hk
      cases he
      cases hb
      exact ⟨F', .inr hF'⟩
  | knfree hdr fuel =>
    obtain ⟨hmem, hn⟩ := Option.ite_none_right_eq_some.mp hn
    obtain ⟨s', hk, he⟩ := bind_eq_some_iff.mp hn
    cases he
    obtain ⟨b, hb, rfl⟩ := mem_map.mp hmem
    rcases h with ⟨-, -, h0⟩ | h
    · rw [h0] at hb
      cases hb
    · have hf : 2 * (F.length + 1) ≤ fuel ∨ True := .inr trivial
      have hw := free_wp (h.perm (perm_filter_live h.tiled hb)) hf
      rcases runKernel_of_wp (quiet_free ..) hw with ⟨hno, -⟩ | ⟨_, s₁, hrun, ⟨F', hF', -⟩, -⟩
      · rw [runKernel_free, hk] at hno
        cases hno
      · rw [runKernel_free, hk] at hrun
        cases hrun
        exact ⟨F', .inr hF'⟩

/-! ## The result is not `NULL` -/

/-- Calls of `kalloc` before the heap has a page are sound. -/
theorem Fresh.sound {ps l : List Nat} (h : Fresh lay t (ps ++ l)) :
    (heap lay).Meets (Sound lay) t (List.replicate ps.length .kalloc) := by
  induction ps generalizing t with
  | nil => trivial
  | cons p ps ih =>
    obtain ⟨t₁, hn, h₁, -⟩ := h.kalloc
    refine (Machine.meets_cons hn).mpr ⟨fun _ => ⟨?_, ?_⟩, ih h₁⟩
    · rw [h.free.freelist_eq]
      exact (h.free.page p (mem_cons_self ..)).low
    · simp [h.core]

end Runs

end Xv6.Mem
