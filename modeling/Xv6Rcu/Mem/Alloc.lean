import Xv6Rcu.Mem.FreeList

/-!
# `malloc`, and the runs of an allocator

- `carve_wp` makes a live block from a free one or from its tail end, `morecore_wp` obtains a
  region, `malloc_wp` finds a block or obtains a region and then finds one.
- `free_list`: what holds after every run of calls, and that every call returns.
-/

namespace Xv6.Malloc

open Lib Mem Function List
open Option (isSome map_eq_some_iff some)

/-! ## `malloc` -/

section Alloc
variable {W : Window} {stuck : Prop} {s s' : Arena} {F F1 F2 F' B : List (Nat × Nat)}
  {b c : Nat × Nat} {u k : Nat} {l l1 : List Nat} {R : List (Nat × Nat)} {bound fuel nu p : Nat}
  {Q : Nat → Arena → Prop}

/-- A part of the free blocks becomes live. -/
theorem Tiled.take (h : Tiled W R F B) (hg : Gapped HEADER F') (hb : 0 < b.2)
    (hcov : ∀ x, Covers HEADER F x ↔ Covers HEADER F' x ∨ InBlk HEADER b x)
    (hd : ∀ x, InBlk HEADER b x → ¬ Covers HEADER F' x) : Tiled W R F' (b :: B) := by
  refine ⟨hg, fun c hc => ?_, pairwise_cons.mpr ⟨fun c hc x hbx hcx => ?_, h.live⟩,
    fun x hF hB => ?_, fun x => ?_, h.region⟩
  · rcases mem_cons.mp hc with rfl | hc
    · exact hb
    · exact h.pos c hc
  · exact h.apart x ((hcov x).mpr (.inr hbx)) ⟨c, hc, hcx⟩
  · rcases covers_cons.mp hB with hx | hx
    · exact hd x hx hF
    · exact h.apart x ((hcov x).mpr (.inl hF)) hx
  · rw [h.cover, hcov, covers_cons, or_assoc]

theorem Tiled.apart_nodes (h : Tiled W R F B) {a a' : Nat} (ha : a ∈ nodes W F)
    (ha' : a' ∈ nodes W F) (hne : a ≠ a') : Apart a a' := by
  have : Std.Symm Apart := ⟨fun _ _ h => h.symm⟩
  exact ((nodes_apart h.gapped fun c hc => (h.bounds (.inl hc)).1).imp .inl).forall ha ha' hne

/-- A block of the list, the node before it and the pointers around them. -/
theorem Holds.around (h : Holds W s (F1 ++ c :: F2) B) (hn : nodes W F1 = l1 ++ [u]) :
    Seg (link s) (some W.base) l1 (some u) ∧ s.ptr u = c.1 ∧
      Seg (link s) (some (s.ptr c.1)) (F2.map Prod.fst) (some W.base) ∧
      (∀ a ∈ l1, a ≠ u) ∧ ∀ a ∈ F2.map Prod.fst, a ≠ u := by
  obtain ⟨hhead, hc, htail⟩ := h.split hn
  have hinc := h.tiled.nodes_inc
  rw [nodes_append, hn, append_assoc] at hinc
  obtain ⟨-, hinc2, hinc1⟩ := pairwise_append.mp hinc
  refine ⟨hhead, some.inj hc, htail, fun a ha => ?_, fun a ha => ?_⟩
  · exact Nat.ne_of_lt (hinc1 a ha u (mem_cons_self ..))
  · exact Nat.ne_of_gt ((pairwise_cons.mp hinc2).1 a (mem_cons_of_mem _ ha))

/-- `malloc` takes a whole block. -/
theorem Holds.unlink (h : Holds W s (F1 ++ c :: F2) B) (hn : nodes W F1 = l1 ++ [u]) :
    Holds W { s.setPtr u (s.ptr c.1) with freep := u } (F1 ++ F2) (c :: B) := by
  have ht := h.tiled
  have hs := same_setPtr s u (s.ptr c.1)
  have hcF : c ∈ F1 ++ c :: F2 := by simp
  have hun : u ∈ nodes W (F1 ++ c :: F2) := by
    rw [nodes_append, hn]
    simp
  have hmem : ∀ d ∈ F1 ++ F2, d ∈ F1 ++ c :: F2 := fun d hd => by
    rcases mem_append.mp hd with hd | hd <;> simp [hd]
  have hsize : ∀ a ∈ nodes W (F1 ++ c :: F2), (s.setPtr u (s.ptr c.1)).size a = s.size a := by
    intro a ha
    by_cases hau : a = u
    · rw [hau, size_setPtr]
    · exact hs.size a (ht.apart_nodes ha hun hau)
  obtain ⟨hhead, -, htail, hne1, hne2⟩ := h.around hn
  refine ⟨ht.take ht.gapped.remove (ht.gapped.pos c hcF) (fun x => ?_)
    (fun x => ht.gapped.disjoint),
    ?_, fun d hd => ?_, fun d hd => ?_, ?_, ?_⟩
  · rw [covers_append, covers_append, covers_cons]
    tauto
  · rw [nodes_append, hn, append_assoc, seg_append]
    refine ⟨some u, hs.seg (fun a ha => ?_) hhead, rfl, ?_⟩
    · refine ht.apart_nodes ?_ hun (hne1 a ha)
      rw [nodes_append, hn]
      simp [ha]
    · show Seg _ (some ((s.setPtr u (s.ptr c.1)).ptr u)) _ _
      rw [ptr_setPtr]
      refine hs.seg (fun a ha => ?_) htail
      refine ht.apart_nodes ?_ hun (hne2 a ha)
      rw [nodes_append]
      exact mem_append_right _ (mem_cons_of_mem _ ha)
  · exact (hsize d.1 (mem_nodes (hmem d hd))).trans (h.free d (hmem d hd))
  · rcases mem_cons.mp hd with rfl | hd
    · exact (hsize d.1 (mem_nodes hcF)).trans (h.free d hcF)
    · exact (hs.size d.1 (ht.apart_node hd u hun).symm).trans (h.live d hd)
  · exact (hsize W.base (mem_cons_self ..)).trans h.base
  · rw [nodes_append, hn]
    simp

/-- The header of the tail end of a block is apart from the others. -/
theorem Tiled.apart_tail (h : Tiled W R (F1 ++ c :: F2) B) (hk : 0 < k) (hlt : k < c.2) :
    (∀ a ∈ nodes W (F1 ++ c :: F2), Apart a (c.1 + (c.2 - k) * HEADER)) ∧
      ∀ d ∈ B, Apart d.1 (c.1 + (c.2 - k) * HEADER) := by
  have hcF : c ∈ F1 ++ c :: F2 := by simp
  have hfront : HEADER ≤ (c.2 - k) * HEADER := Nat.le_mul_of_pos_left _ (by omega)
  have htail : (c.2 - k) * HEADER + HEADER ≤ c.2 * HEADER := by
    rw [← Nat.succ_mul]
    exact Nat.mul_le_mul_right _ (by omega)
  refine ⟨fun a ha => ?_, fun d hd => ?_⟩
  · rcases mem_cons.mp ha with rfl | ha
    · have := (h.bounds (.inl hcF)).1
      exact .inl (by omega)
    · obtain ⟨d, hd, rfl⟩ := mem_map.mp ha
      rcases mem_append.mp hd with hd | hd
      · have := h.gapped.before d hd
        exact .inl (by omega)
      · rcases mem_cons.mp hd with rfl | hd
        · exact .inl (by omega)
        · have := h.gapped.after d hd
          exact .inr (by omega)
  · have hdis := h.disjoint hd hcF
    rcases Nat.le_total d.1 c.1 with hle | hle
    · exact .inl (by omega)
    · have := end_le_of_disjoint header_pos (h.pos d hd) (fun x hx hx' => hdis x hx' hx) hle
      exact .inr (by omega)

theorem Tiled.shrink (h : Tiled W R (F1 ++ c :: F2) B) (hk : 0 < k) (hlt : k < c.2) :
    Tiled W R (F1 ++ (c.1, c.2 - k) :: F2) ((c.1 + (c.2 - k) * HEADER, k) :: B) := by
  have hle : (c.2 - k) * HEADER ≤ c.2 * HEADER := Nat.mul_le_mul_right _ (Nat.sub_le ..)
  refine h.take (h.gapped.remove.insert (by omega) h.gapped.before fun d hd => ?_)
    hk (fun x => ?_) fun x hx hF => ?_
  · have := h.gapped.after d hd
    show c.1 + (c.2 - k) * HEADER < d.1
    omega
  · have hsplit : InBlk HEADER c x ↔ _ := in_split (Nat.le_of_lt hlt)
    rw [covers_append, covers_append, covers_cons, covers_cons]
    tauto
  · have hc : InBlk HEADER c x := (in_split (Nat.le_of_lt hlt)).mpr (.inr hx)
    rw [covers_append, covers_cons] at hF
    rcases hF with hF | hF | hF
    · exact h.gapped.disjoint hc (covers_append.mpr (.inl hF))
    · have := hF.2
      have := hx.1
      simp only at *
      omega
    · exact h.gapped.disjoint hc (covers_append.mpr (.inr hF))

/-- `malloc` takes the tail end of a block. -/
theorem Holds.shrink (h : Holds W s (F1 ++ c :: F2) B) (hu : u ∈ nodes W (F1 ++ c :: F2))
    (hk : 0 < k) (hlt : k < c.2) (hs1 : Same c.1 s s') (hptr : s'.ptr c.1 = s.ptr c.1)
    (hsz : s'.size c.1 = c.2 - k) :
    Holds W { s'.setSize (c.1 + (c.2 - k) * HEADER) k with freep := u }
      (F1 ++ (c.1, c.2 - k) :: F2) ((c.1 + (c.2 - k) * HEADER, k) :: B) := by
  have ht := h.tiled
  have hcF : c ∈ F1 ++ c :: F2 := by simp
  have hcn := mem_nodes (W := W) hcF
  have hs2 := same_setSize s' (c.1 + (c.2 - k) * HEADER) k
  obtain ⟨hnode, hlive⟩ := ht.apart_tail hk hlt
  have hnodes : nodes W (F1 ++ (c.1, c.2 - k) :: F2) = nodes W (F1 ++ c :: F2) := by simp [nodes]
  have hmem : ∀ d ∈ F1 ++ F2, d ∈ F1 ++ c :: F2 := fun d hd => by
    rcases mem_append.mp hd with hd | hd <;> simp [hd]
  generalize ht' : c.1 + (c.2 - k) * HEADER = t at hs2 hnode hlive
  have hsize : ∀ a ∈ nodes W (F1 ++ c :: F2), a ≠ c.1 → (s'.setSize t k).size a = s.size a :=
    fun a ha hne => (hs2.size a (hnode a ha)).trans (hs1.size a (ht.apart_nodes ha hcn hne))
  refine ⟨?_, ?_, fun d hd => ?_, fun d hd => ?_, ?_, by rw [hnodes]; exact hu⟩
  · show Tiled W s'.regions _ _
    rw [hs1.regions, ← ht']
    exact ht.shrink hk hlt
  · rw [hnodes]
    refine h.cycle.congr fun a ha => congrArg some ?_
    refine (hs2.ptr a (hnode a ha)).trans ?_
    by_cases hac : a = c.1
    · rw [hac, hptr]
    · exact hs1.ptr a (ht.apart_nodes ha hcn hac)
  · have hother : ∀ d ∈ F1 ++ F2, (s'.setSize t k).size d.1 = d.2 := fun d hd => by
      rw [hsize d.1 (mem_nodes (hmem d hd)), h.free d (hmem d hd)]
      rcases mem_append.mp hd with hd | hd
      · have := ht.gapped.before d hd
        omega
      · have := ht.gapped.after d hd
        omega
    rcases mem_append.mp hd with hd | hd
    · exact hother d (mem_append_left _ hd)
    · rcases mem_cons.mp hd with rfl | hd
      · exact (hs2.size c.1 (hnode c.1 hcn)).trans hsz
      · exact hother d (mem_append_right _ hd)
  · rcases mem_cons.mp hd with rfl | hd
    · show (s'.setSize t k).size t = k
      have hk32 : k < 2 ^ 32 := by
        have hb := ht.bounds (.inl hcF)
        have hc32 := lt_of_window (by omega) hb.2
        omega
      rw [size_setSize, Nat.mod_eq_of_lt hk32]
    · refine (hs2.size d.1 (hlive d hd)).trans ?_
      exact (hs1.size d.1 (ht.apart_node hd c.1 hcn).symm).trans (h.live d hd)
  · refine (hsize W.base (mem_cons_self ..) ?_).trans h.base
    have := (ht.bounds (.inl hcF)).1
    have := header_pos
    omega

/-- **The block that `malloc` takes** from the free block `c` behind the node `u`. -/
theorem carve_wp (h : Holds W s (F1 ++ c :: F2) B) (hn : nodes W F1 = l1 ++ [u]) (hk : 0 < k)
    (hle : k ≤ c.2)
    (hQ : ∀ a F' s', Holds W s' F' ((a, k) :: B) → s'.regions = s.regions → Q (a + HEADER) s') :
    W.wp stuck Q (carve k u c.1) s := by
  have ht := h.tiled
  have hcF : c ∈ F1 ++ c :: F2 := by simp
  have hun : u ∈ nodes W (F1 ++ c :: F2) := by
    rw [nodes_append, hn]
    simp
  have hch := ht.hdr (.inl hcF)
  have hsz := h.free c hcF
  refine wp_size hch ?_
  rw [hsz]
  by_cases he : c.2 = k
  · rw [if_pos he]
    refine wp_ptr hch (wp_seq (wp_setPtr (ht.nodes_hdr u hun) (wp_seq (wp_setFreep ?_))))
    exact hQ c.1 _ _ (by rw [← he]; exact h.unlink hn) rfl
  · rw [if_neg he]
    refine wp_size hch (wp_seq (wp_setSize hch (wp_size hch ?_)))
    have hb := ht.bounds (.inl hcF)
    have hc32 : c.2 < 2 ^ 32 := lt_of_window (by omega) hb.2
    have hlt : k < c.2 := by omega
    have hnew : (s.setSize c.1 (s.size c.1 + 2 ^ 32 - k)).size c.1 = c.2 - k := by
      rw [size_setSize]
      omega
    rw [hnew]
    have hdr : W.Hdr (c.1 + (c.2 - k) * HEADER) := by
      have htail : (c.2 - k) * HEADER + HEADER ≤ c.2 * HEADER := by
        rw [← Nat.succ_mul]
        exact Nat.mul_le_mul_right _ (by omega)
      exact ⟨by have := hch.low; omega, by omega⟩
    refine wp_seq (wp_setSize hdr (wp_seq (wp_setFreep ?_)))
    exact hQ _ _ _ (h.shrink hun hk hlt (same_setSize ..) (ptr_setSize ..) hnew) rfl

/-- The loop of `malloc` passes the nodes `l` and comes to `freep`, unless it finds a block. -/
theorem loop_walk {prev n : Nat} (hs : Seg (link s) (some (s.ptr prev)) l (some s.freep))
    (hnf : s.freep ∉ l) (hhdr : ∀ a ∈ l ++ [s.freep], W.Hdr a)
    (hf : l.length + 1 + n ≤ fuel ∨ stuck)
    (hcarve : ∀ u ∈ prev :: l, k ≤ s.size (s.ptr u) → W.wp stuck Q (carve k u (s.ptr u)) s)
    (hmore : (∀ a ∈ l ++ [s.freep], s.size a < k) → ∀ fuel, n ≤ fuel ∨ stuck →
      W.wp stuck Q (do
        let p ← morecore bound k
        if p = 0 then return 0
        mallocLoop bound k fuel p (← ptr p)) s) :
    W.wp stuck Q (mallocLoop bound k fuel prev (s.ptr prev)) s := by
  induction l generalizing prev fuel with
  | nil =>
    have hq : s.ptr prev = s.freep := some.inj hs
    cases fuel with
    | zero => exact hf.resolve_left (by simp)
    | succ fuel =>
      refine wp_size (hq ▸ hhdr _ (by simp)) ?_
      by_cases hle : k ≤ s.size (s.ptr prev)
      · rw [if_pos hle]
        exact hcarve prev (by simp) hle
      · rw [if_neg hle]
        refine wp_freep ?_
        rw [if_pos hq]
        refine hmore ?_ fuel (hf.imp_left fun h => by omega)
        simp only [nil_append, mem_singleton, forall_eq, ← hq]
        omega
  | cons a l ih =>
    obtain ⟨ha, hs⟩ := hs
    have ha : s.ptr prev = a := some.inj ha
    cases fuel with
    | zero => exact hf.resolve_left (by simp)
    | succ fuel =>
      have hhdr' : W.Hdr a := hhdr a (by simp)
      refine wp_size (ha ▸ hhdr') ?_
      by_cases hle : k ≤ s.size (s.ptr prev)
      · rw [if_pos hle]
        exact hcarve prev (by simp) hle
      · rw [if_neg hle]
        refine wp_freep ?_
        rw [ha, if_neg (fun he => hnf (by simp [← he]))]
        refine wp_ptr hhdr' (ih hs (fun h => hnf (by simp [h])) (fun b hb => hhdr b (by simp [hb]))
          (hf.imp_left fun h => by simp at h; omega) (fun u hu => hcarve u (by simp [hu]))
          fun hsm => hmore fun b hb => ?_)
        rcases mem_cons.mp hb with rfl | hb
        · rw [ha] at hle
          omega
        · exact hsm b hb

/-- The nodes in the order of the loop, from `freep` around to it. -/
theorem Holds.rotate (h : Holds W s F B) :
    ∃ l, Seg (link s) (some (s.ptr s.freep)) l (some s.freep) ∧
    s.freep ∉ l ∧ l.length = F.length ∧ ∀ a, a ∈ l ++ [s.freep] ↔ a ∈ nodes W F := by
  obtain ⟨l1, l2, hl⟩ := append_of_mem h.freep
  have hcyc := h.cycle
  rw [hl, seg_append] at hcyc
  obtain ⟨m, hhead, rfl, htail⟩ := hcyc
  have hinc := h.tiled.nodes_inc
  rw [hl] at hinc
  obtain ⟨-, hinc2, hinc1⟩ := pairwise_append.mp hinc
  refine ⟨l2 ++ l1, seg_append.mpr ⟨_, htail, hhead⟩, fun hm => ?_, ?_, fun a => ?_⟩
  · rcases mem_append.mp hm with hm | hm
    · exact Nat.lt_irrefl _ ((pairwise_cons.mp hinc2).1 _ hm)
    · exact Nat.lt_irrefl _ (hinc1 _ hm _ (mem_cons_self ..))
  · have := congrArg length hl
    simp only [nodes, length_cons, length_append, length_map] at this ⊢
    omega
  · rw [hl]
    simp only [mem_append, mem_cons]
    tauto

/-- The block behind a node. -/
theorem Holds.carve (h : Holds W s F B) (hu : u ∈ nodes W F) (hk : 0 < k)
    (hle : k ≤ s.size (s.ptr u))
    (hQ : ∀ a F' s', Holds W s' F' ((a, k) :: B) → s'.regions = s.regions → Q (a + HEADER) s') :
    W.wp stuck Q (carve k u (s.ptr u)) s := by
  obtain ⟨l1, l2, hl⟩ := append_of_mem hu
  obtain ⟨F1, F2, rfl, rfl, hn⟩ := nodes_split hl
  obtain ⟨-, htail⟩ := h.split hn
  cases F2 with
  | nil =>
    have hq : s.ptr u = W.base := some.inj htail
    rw [hq, h.base] at hle
    omega
  | cons c F2 =>
    have hq : s.ptr u = c.1 := some.inj htail.1
    rw [hq] at hle ⊢
    rw [h.free c (by simp)] at hle
    exact carve_wp h hn hk hle hQ

/-- The loop of `malloc` when a block is large enough. -/
theorem loop_found (h : Holds W s F B) (hk : 0 < k) (hlarge : ∃ c ∈ F, k ≤ c.2)
    (hf : F.length + 1 ≤ fuel ∨ stuck)
    (hQ : ∀ a F' s', Holds W s' F' ((a, k) :: B) → s'.regions = s.regions → Q (a + HEADER) s') :
    W.wp stuck Q (mallocLoop bound k fuel s.freep (s.ptr s.freep)) s := by
  obtain ⟨l, hs, hnf, hlen, hmem⟩ := h.rotate
  refine loop_walk (n := 0) hs hnf (fun a ha => h.tiled.nodes_hdr a ((hmem a).mp ha))
    (by simpa [hlen] using hf) (fun u hu hle => h.carve ((hmem u).mp ?_) hk hle hQ) fun hsm => ?_
  · rcases mem_cons.mp hu with rfl | hu
    · exact mem_append_right _ (mem_singleton_self _)
    · exact mem_append_left _ hu
  · obtain ⟨c, hc, hkc⟩ := hlarge
    have := hsm c.1 ((hmem c.1).mpr (mem_nodes hc))
    rw [h.free c hc] at this
    omega

/-- A fresh region is live until it is freed. -/
theorem Tiled.grow (h : Tiled W R F B) (ha : W.base + HEADER ≤ p) (hb : p + nu * HEADER ≤ W.hi)
    (hnu : 0 < nu) (hd : ∀ r ∈ R, ∀ x, InBlk HEADER (p, nu) x → ¬ InBlk HEADER r x) :
    Tiled W ((p, nu) :: R) F ((p, nu) :: B) := by
  have hnew : ∀ x, InBlk HEADER (p, nu) x → ¬ (Covers HEADER F x ∨ Covers HEADER B x) := by
    intro x hx hc
    obtain ⟨r, hr, hrx⟩ := (h.cover x).mpr hc
    exact hd r hr x hx hrx
  refine ⟨h.gapped, fun c hc => ?_, pairwise_cons.mpr ⟨fun c hc x hx hcx => ?_, h.live⟩,
    fun x hF hB => ?_, fun x => ?_, fun r hr => ?_⟩
  · rcases mem_cons.mp hc with rfl | hc
    · exact hnu
    · exact h.pos c hc
  · exact hnew x hx (.inr ⟨c, hc, hcx⟩)
  · rcases covers_cons.mp hB with hx | hx
    · exact hnew x hx (.inl hF)
    · exact h.apart x hF hx
  · rw [covers_cons, covers_cons, h.cover]
    tauto
  · rcases mem_cons.mp hr with rfl | hr
    · exact ⟨ha, hb⟩
    · exact h.region r hr

/-- A header outside the new region. -/
theorem grow_outside {a : Nat} (s : Arena) (junk : Nat → Nat)
    (ha : a + HEADER ≤ p ∨ p + nu * HEADER ≤ a) :
    (s.grow nu (some (p, junk))).2.ptr a = s.ptr a ∧
      (s.grow nu (some (p, junk))).2.size a = s.size a := by
  have h16 : HEADER = 16 := rfl
  simp only [Arena.grow, Arena.ptr, Arena.size]
  rw [if_neg (by omega), if_neg (by omega)]
  exact ⟨rfl, rfl⟩

theorem outside_of_disjoint (hb : 0 < b.2) (hnu : 0 < nu)
    (hd : ∀ x, InBlk HEADER (p, nu) x → ¬ InBlk HEADER b x) :
    b.1 + HEADER ≤ p ∨ p + nu * HEADER ≤ b.1 := by
  have hpos := Nat.mul_le_mul_right HEADER hb
  rcases Nat.le_total b.1 p with hle | hle
  · have := end_le_of_disjoint header_pos hnu (fun x hx hx' => hd x hx' hx) hle
    exact .inl (by omega)
  · exact .inr (end_le_of_disjoint header_pos hb hd hle)

/-- The region that a request yields, with its size recorded. -/
theorem Holds.grow (h : Holds W s F B) (junk : Nat → Nat) (hf : Fresh W s nu p) (hnu : 0 < nu) :
    Holds W ((s.grow nu (some (p, junk))).2.setSize p nu) F ((p, nu) :: B) := by
  have ht : Tiled W ((p, nu) :: s.regions) F ((p, nu) :: B) :=
    h.tiled.grow hf.above hf.below hnu hf.disjoint
  have hp : (p, nu) ∈ (p, nu) :: B := mem_cons_self ..
  have hs := same_setSize (s.grow nu (some (p, junk))).2 p nu
  have hnode : ∀ a ∈ nodes W F, a + HEADER ≤ p ∨ p + nu * HEADER ≤ a := by
    intro a ha
    rcases mem_cons.mp ha with rfl | ha
    · exact .inl hf.above
    · obtain ⟨c, hc, rfl⟩ := mem_map.mp ha
      exact outside_of_disjoint (ht.gapped.pos c hc) hnu (ht.disjoint hp hc)
  have hlive : ∀ c ∈ B, c.1 + HEADER ≤ p ∨ p + nu * HEADER ≤ c.1 := fun c hc =>
    outside_of_disjoint (ht.pos c (mem_cons_of_mem _ hc)) hnu
      ((pairwise_cons.mp ht.live).1 c hc)
  have hsize : ∀ a ∈ nodes W F, ((s.grow nu (some (p, junk))).2.setSize p nu).size a = s.size a :=
    fun a ha => (hs.size a (ht.apart_node hp a ha)).trans (grow_outside s junk (hnode a ha)).2
  refine ⟨ht, ?_, fun c hc => ?_, fun c hc => ?_, ?_, h.freep⟩
  · refine h.cycle.congr fun a ha => congrArg some ?_
    exact (hs.ptr a (ht.apart_node hp a ha)).trans (grow_outside s junk (hnode a ha)).1
  · rw [hsize c.1 (mem_nodes hc), h.free c hc]
  · rcases mem_cons.mp hc with rfl | hc
    · have h32 : nu < 2 ^ 32 :=
        lt_of_window (by have := hf.above; omega) hf.below
      rw [size_setSize, Nat.mod_eq_of_lt h32]
    · rw [hs.size c.1 (ht.apart_live hc), (grow_outside s junk (hlive c hc)).2, h.live c hc]
  · rw [hsize W.base (mem_cons_self ..), h.base]

/-- The units that a request is for. -/
def request (k : Nat) : Nat := if k < 4096 then 4096 else k

theorem le_request (k : Nat) : k ≤ request k ∧ 0 < request k := by
  unfold request
  split <;> omega

/-- **`morecore`**: it fails, or the free list has a block of at least `k` units. -/
theorem morecore_wp (h : Holds W s F B) (hf : 2 * (F.length + 1) ≤ fuel ∨ stuck) (hfail : Q 0 s)
    (hQ : ∀ F' s', Holds W s' F' B → F'.length ≤ F.length + 1 → (∃ c ∈ F', k ≤ c.2) →
      (∃ p, s'.regions = (p, request k) :: s.regions) → Q s'.freep s') :
    W.wp stuck Q (morecore fuel k) s := by
  refine wp_core ?_ fun p junk hfresh => ?_
  · exact hfail
  · have hne : p ≠ 2 ^ 64 - 1 := by
      have hbelow : p + request k * HEADER ≤ W.hi := hfresh.below
      have hpos := Nat.mul_pos (le_request k).2 header_pos
      have := W.hi_lt
      omega
    rw [if_neg hne]
    have hg : Holds W _ F ((p, request k) :: B) :=
      h.grow junk hfresh (le_request k).2
    refine wp_seq (wp_setSize (hg.tiled.hdr (.inr (mem_cons_self ..))) ?_)
    refine wp_seq (Prog.wp_mono (free_wp hg hf) ?_)
    rintro - s' ⟨F', hF', hreg, hlen, c, hc, hle⟩
    refine wp_freep (hQ F' s' hF' hlen ⟨c, hc, ?_⟩ ⟨p, hreg⟩)
    exact Nat.le_trans (le_request k).1 hle

theorem Holds.freep_ne (h : Holds W s F B) : s.freep ≠ 0 := by
  have := W.base_pos
  rcases mem_cons.mp h.freep with he | hm
  · omega
  · have := (pairwise_cons.mp h.tiled.nodes_inc).1 _ hm
    omega

/-- The regions after a call that made at most one request. -/
def Grown (k : Nat) (s s' : Arena) : Prop :=
  s'.regions = s.regions ∨ ∃ p, s'.regions = (p, request k) :: s.regions

/-- The loop of `malloc`: it finds a block, or asks for memory once and then finds one. -/
theorem loop_wp (h : Holds W s F B) (hk : 0 < k) (hb : 2 * (F.length + 1) ≤ bound ∨ stuck)
    (hf : 2 * F.length + 3 ≤ fuel ∨ stuck) (hfail : Q 0 s)
    (hQ : ∀ a F' s', Holds W s' F' ((a, k) :: B) → Grown k s s' → Q (a + HEADER) s') :
    W.wp stuck Q (mallocLoop bound k fuel s.freep (s.ptr s.freep)) s := by
  obtain ⟨l, hs, hnf, hlen, hmem⟩ := h.rotate
  refine loop_walk (n := F.length + 2) hs hnf (fun a ha => h.tiled.nodes_hdr a ((hmem a).mp ha))
    (hf.imp_left fun h => by omega) (fun u hu hle => h.carve ((hmem u).mp ?_) hk hle
      fun a F' s' hF' hreg => hQ a F' s' hF' (.inl hreg)) fun _ fuel' hf' => ?_
  · rcases mem_cons.mp hu with rfl | hu
    · exact mem_append_right _ (mem_singleton_self _)
    · exact mem_append_left _ hu
  · refine Prog.wp_bind.mpr (morecore_wp h hb ?_ fun F1 s1 h1 hlen1 hlarge hreg => ?_)
    · exact hfail
    · rw [if_neg h1.freep_ne]
      refine wp_ptr (h1.tiled.nodes_hdr _ h1.freep) (loop_found h1 hk hlarge
        (hf'.imp_left fun h => by omega) fun a F' s' hF' hreg' => hQ a F' s' hF' (.inr ?_))
      rwa [hreg']

/-- The heap before the first call. -/
structure Empty (s : Arena) : Prop where
  freep : s.freep = 0
  regions : s.regions = []

theorem Empty.init (h : Empty s) :
    Holds W (({ s with freep := W.base }.setPtr W.base W.base).setSize W.base 0) [] [] := by
  refine ⟨?_, ⟨rfl, congrArg some ?_⟩, forall_mem_nil _, forall_mem_nil _, ?_,
    mem_cons_self ..⟩
  · rw [h.regions]
    exact ⟨⟨forall_mem_nil _, .nil⟩, forall_mem_nil _, .nil,
      fun _ h => absurd h covers_nil, fun _ => (or_self_iff ..).symm, forall_mem_nil _⟩
  · rw [ptr_setSize, ptr_setPtr]
  · rw [size_setSize, Nat.zero_mod]

/-- The free blocks `F` and the live blocks `B`; before the first call there are none. -/
def Heap (W : Window) (s : Arena) (F B : List (Nat × Nat)) : Prop :=
  Empty s ∧ F = [] ∧ B = [] ∨ Holds W s F B

theorem init_wp (h : Heap W s F B) :
    W.wp stuck (fun prevp s' => prevp = s'.freep ∧ Holds W s' F B ∧ s'.regions = s.regions)
      (initFreep W.base) s := by
  refine wp_freep ?_
  rcases h with ⟨he, rfl, rfl⟩ | h
  · have hb := base_hdr W
    rw [if_pos he.freep]
    exact wp_seq (wp_setFreep (wp_seq (wp_setPtr hb (wp_seq (wp_setSize hb ⟨rfl, he.init, rfl⟩)))))
  · rw [if_neg h.freep_ne]
    exact ⟨rfl, h, rfl⟩

/-- **`malloc`.** -/
theorem malloc_wp {nbytes : Nat} (h : Heap W s F B) (hf : 2 * F.length + 3 ≤ fuel ∨ stuck)
    (hfail : ∀ s', Holds W s' F B → s'.regions = s.regions → Q 0 s')
    (hQ : ∀ a F' s', Holds W s' F' ((a, units nbytes) :: B) → Grown (units nbytes) s s' →
      Q (a + HEADER) s') : W.wp stuck Q (malloc W.base fuel nbytes) s := by
  refine Prog.wp_bind.mpr (Prog.wp_mono (init_wp h) ?_)
  rintro prevp s' ⟨rfl, h', hreg⟩
  refine wp_ptr (h'.tiled.nodes_hdr _ h'.freep) (loop_wp h' (units_pos nbytes)
    (hf.imp_left fun h => by omega) hf (hfail s' h' hreg) fun a F' s'' hF' hg => hQ a F' s'' hF' ?_)
  rwa [Grown, hreg] at hg

end Alloc

/-! ## Runs of calls -/

/-- The memory and the blocks handed out and not yet freed: the address returned and the bytes asked
for. -/
structure Sys where
  arena : Arena
  live : List (Nat × Nat) := []

inductive Call where
  | malloc (nbytes fuel : Nat) (env : Op → Arena → Answer)
  | free (ap fuel : Nat)
  /-- The holder of a block writes a word of it. -/
  | write (ap off v : Nat)

/-- The blocks after `malloc` has returned `ap`. -/
def hand (live : List (Nat × Nat)) (ap nbytes : Nat) : List (Nat × Nat) :=
  if ap = 0 then live else (ap, nbytes) :: live

/-- The calls; only live blocks are freed and written. -/
def calls (W : Window) : Machine Sys Call where
  next s
    | .malloc nbytes fuel env =>
      ((malloc W.base fuel nbytes).exec (access W) env s.arena).map fun r =>
        ⟨r.2, hand s.live r.1 nbytes⟩
    | .free ap fuel =>
      if ap ∈ s.live.map Prod.fst then
        ((free fuel ap).exec (access W) (fun _ _ => none) s.arena).map fun r =>
          ⟨r.2, s.live.eraseP (·.1 == ap)⟩
      else none
    | .write ap off v =>
      if ∃ l ∈ s.live, l.1 = ap ∧ off + 8 ≤ l.2 then
        some { s with arena := { s.arena with mem := Function.update s.arena.mem (ap + off) v } }
      else none

/-- Each request of the call that succeeds yields a fresh region. -/
def Answered (W : Window) (s : Sys) : Call → Prop
  | .malloc nbytes fuel env =>
    (malloc W.base fuel nbytes).Answered (access W) (Allowed W) env s.arena
  | _ => True

/-- The live blocks, with the sizes that their headers have. -/
def Sys.blocks (s : Sys) : List (Nat × Nat) :=
  s.live.map fun l => (l.1 - HEADER, s.arena.size (l.1 - HEADER))

/-- The free list is the cycle through `base` and the blocks `F`. -/
structure WellFormed (W : Window) (s : Sys) (F : List (Nat × Nat)) : Prop where
  cycle : Seg (link s.arena) (some W.base) (nodes W F) (some W.base)
  increasing : (nodes W F).Pairwise (· < ·)
  freep : s.arena.freep ∈ nodes W F
  size : ∀ b ∈ F, s.arena.size b.1 = b.2
  disjoint : (F ++ s.blocks).Pairwise fun b c => ∀ x, InBlk HEADER b x → ¬ InBlk HEADER c x
  cover : ∀ x, Covers HEADER s.arena.regions x ↔ Covers HEADER (F ++ s.blocks) x
  coalesced : ∀ b ∈ F, ∀ c ∈ F, b.1 + b.2 * HEADER ≠ c.1
  usable : ∀ l ∈ s.live, l.2 + HEADER ≤ s.arena.size (l.1 - HEADER) * HEADER

section Runs
variable {W : Window} {s s' : Sys} {F B : List (Nat × Nat)} {a : Arena} {c : Call}
  {live : List (Nat × Nat)} {l : Nat × Nat}

theorem units_usable (nbytes : Nat) : nbytes + HEADER ≤ units nbytes * HEADER := by
  simp only [units, HEADER]
  omega

theorem Holds.perm {B' : List (Nat × Nat)} (h : Holds W a F B) (hp : B.Perm B') :
    Holds W a F B' := by
  have hcov : ∀ x, Covers HEADER B' x ↔ Covers HEADER B x := fun x =>
    exists_congr fun b => and_congr_left fun _ => hp.mem_iff.symm
  have ht := h.tiled
  refine ⟨⟨ht.gapped, fun b hb => ht.pos b (hp.mem_iff.mpr hb), ?_, fun x => ?_, fun x => ?_,
    ht.region⟩, h.cycle, h.free, fun b hb => h.live b (hp.mem_iff.mpr hb), h.base, h.freep⟩
  · exact (hp.pairwise_iff fun hd x hx hx' => hd x hx' hx).mp ht.live
  · rw [hcov]
    exact ht.apart x
  · rw [hcov]
    exact ht.cover x

/-- The holder of a block does not touch a header. -/
theorem Holds.write {b : Nat × Nat} {w v : Nat} (h : Holds W a F B) (hb : b ∈ B)
    (hlo : b.1 + HEADER ≤ w) (hhi : w < b.1 + b.2 * HEADER) :
    Holds W { a with mem := update a.mem w v } F B := by
  have ht := h.tiled
  have hout : ∀ x, x + HEADER ≤ b.1 ∨ b.1 + b.2 * HEADER ≤ x ∨ x = b.1 → x ≠ w ∧ x + 8 ≠ w := by
    simp only [HEADER] at *
    omega
  have hnode : ∀ x ∈ nodes W F, x ≠ w ∧ x + 8 ≠ w := by
    intro x hx
    rcases mem_cons.mp hx with rfl | hx
    · exact hout _ (.inl (ht.bounds (.inr hb)).1)
    · obtain ⟨c, hc, rfl⟩ := mem_map.mp hx
      exact hout _ ((outside_of_disjoint (ht.gapped.pos c hc) (ht.pos b hb)
        (ht.disjoint hb hc)).imp_right .inl)
  have hlive : ∀ c ∈ B, c.1 ≠ w ∧ c.1 + 8 ≠ w := by
    intro c hc
    have : Std.Symm fun b c : Nat × Nat => ∀ x, InBlk HEADER b x → ¬ InBlk HEADER c x :=
      ⟨fun _ _ hd x hx hx' => hd x hx' hx⟩
    by_cases hbc : b = c
    · exact hout _ (.inr (.inr (congrArg Prod.fst hbc.symm)))
    · exact hout _ ((outside_of_disjoint (ht.pos c hc) (ht.pos b hb)
        (ht.live.forall hb hc hbc)).imp_right .inl)
  have hsize : ∀ x, x + 8 ≠ w →
      Arena.size { a with mem := update a.mem w v } x = a.size x :=
    fun x hx => congrArg (· % 2 ^ 32) (update_of_ne hx ..)
  refine ⟨ht, h.cycle.congr fun x hx => congrArg some (update_of_ne (hnode x hx).1 ..),
    fun c hc => ?_, fun c hc => ?_, ?_, h.freep⟩
  · rw [hsize _ (hnode _ (mem_nodes hc)).2, h.free c hc]
  · rw [hsize _ (hlive c hc).2, h.live c hc]
  · rw [hsize _ (hnode _ (mem_cons_self ..)).2, h.base]

/-- The block of an entry of `live`. -/
def block (l : Nat × Nat) : Nat × Nat := (l.1 - HEADER, units l.2)

def Inv (W : Window) (s : Sys) : Prop := ∃ F, Heap W s.arena F (s.live.map block)

theorem Holds.block_add (h : Holds W a F (live.map block)) (hl : l ∈ live) :
    (block l).1 + HEADER = l.1 := by
  have hb := (h.tiled.bounds (.inr (mem_map_of_mem hl))).1
  have : (block l).1 = l.1 - HEADER := rfl
  omega

theorem Heap.holds (h : Heap W a F (live.map block)) (hl : l ∈ live) :
    Holds W a F (live.map block) := by
  rcases h with ⟨-, -, hnil⟩ | h
  · rw [map_eq_nil_iff.mp hnil] at hl
    cases hl
  · exact h

/-- The block to be freed. -/
theorem Heap.freed {ap : Nat} (h : Heap W a F (live.map block)) (hap : ap ∈ live.map Prod.fst) :
    ∃ l, l.1 = ap ∧ (block l).1 + HEADER = ap ∧
      Holds W a F (block l :: (live.eraseP (·.1 == ap)).map block) := by
  obtain ⟨l, hl, hlap⟩ := mem_map.mp hap
  obtain ⟨l', l1, l2, -, hl', he, herase⟩ := exists_of_eraseP (p := (·.1 == ap)) hl
    (beq_iff_eq.mpr hlap)
  have hmem : l' ∈ live := by
    rw [he]
    simp
  have h := h.holds hmem
  have hl' : l'.1 = ap := beq_iff_eq.mp hl'
  refine ⟨l', hl', (h.block_add hmem).trans hl', h.perm ?_⟩
  rw [herase, he, map_append, map_append]
  exact perm_middle

theorem answered_none {α : Type} (m : M α) (a : Arena) :
    m.Answered (access W) (Allowed W) (fun _ _ => none) a :=
  Prog.answered_of_forall (fun o _ => by cases o <;> trivial) m a

/-- What `malloc` does to the heap. -/
theorem Inv.malloc (hi : Inv W s) (nbytes fuel : Nat) :
    W.wp True (fun r a' => Inv W ⟨a', hand s.live r nbytes⟩) (malloc W.base fuel nbytes)
      s.arena := by
  obtain ⟨F, hF⟩ := hi
  refine malloc_wp hF (.inr trivial) (fun s' hs' _ => ⟨F, .inr hs'⟩) fun b F' s' hs' _ =>
    ⟨F', .inr ?_⟩
  exact hs'

/-- What `free` does to the heap. -/
theorem Inv.free (hi : Inv W s) {ap : Nat} (hap : ap ∈ s.live.map Prod.fst) (fuel : Nat) :
    W.wp True (fun _ a' => Inv W ⟨a', s.live.eraseP (·.1 == ap)⟩) (free fuel ap) s.arena := by
  obtain ⟨F, hF⟩ := hi
  obtain ⟨l, -, rfl, hF⟩ := hF.freed hap
  have hfuel : 2 * (F.length + 1) ≤ fuel ∨ True := .inr trivial
  exact Prog.wp_mono (free_wp hF hfuel) fun _ a' ⟨F', hF', _⟩ => ⟨F', .inr hF'⟩

theorem Inv.write (hi : Inv W s) {off v : Nat} (hl : l ∈ s.live) (hoff : off + 8 ≤ l.2) :
    Inv W { s with
      arena := { s.arena with mem := update s.arena.mem (l.1 + off) v } } := by
  obtain ⟨F, hF⟩ := hi
  have hF := hF.holds hl
  have hadd := hF.block_add hl
  have hlen : l.2 + HEADER ≤ (block l).2 * HEADER := units_usable l.2
  exact ⟨F, .inr (hF.write (mem_map_of_mem hl) (by omega) (by omega))⟩

theorem Inv.next (hi : Inv W s) (hc : Answered W s c) (h : (calls W).next s c = some s') :
    Inv W s' := by
  cases c with
  | malloc nbytes fuel env =>
    obtain ⟨⟨r, a'⟩, hx, rfl⟩ := map_eq_some_iff.mp h
    exact Prog.post_of_wp (hi.malloc nbytes fuel) hc hx
  | free ap fuel =>
    obtain ⟨hap, h⟩ := Option.ite_none_right_eq_some.mp h
    obtain ⟨⟨_, a'⟩, hx, rfl⟩ := map_eq_some_iff.mp h
    exact Prog.post_of_wp (hi.free hap fuel) (answered_none _ _) hx
  | write ap off v =>
    obtain ⟨⟨l, hl, rfl, hoff⟩, h⟩ := Option.ite_none_right_eq_some.mp h
    cases h
    exact hi.write hl hoff

/-- Every call returns. -/
theorem Inv.returns (hi : Inv W s) : ∃ n, ∀ fuel, n ≤ fuel →
    (∀ nbytes env, Answered W s (.malloc nbytes fuel env) →
      ((calls W).next s (.malloc nbytes fuel env)).isSome) ∧
    ∀ l ∈ s.live, ((calls W).next s (.free l.1 fuel)).isSome := by
  obtain ⟨F, hF⟩ := hi
  refine ⟨2 * F.length + 3, fun fuel hf => ⟨fun nbytes env hc => ?_, fun l hl => ?_⟩⟩
  · obtain ⟨r, a', hx, -⟩ := Prog.exec_of_wp (malloc_wp (Q := fun _ _ => True) hF (.inl hf)
      (fun _ _ _ => trivial) fun _ _ _ _ _ => trivial) hc
    exact Option.isSome_map.trans (congrArg isSome hx)
  · have hap : l.1 ∈ s.live.map Prod.fst := mem_map_of_mem hl
    obtain ⟨l', -, hl', hF⟩ := hF.freed hap
    have hfuel : 2 * (F.length + 1) ≤ fuel := by omega
    obtain ⟨r, a', hx, -⟩ := Prog.exec_of_wp (free_wp hF (.inl hfuel)) (answered_none _ _)
    rw [hl'] at hx
    refine (congrArg isSome (if_pos hap)).trans (Option.isSome_map.trans ?_)
    exact congrArg isSome hx

theorem Holds.wellFormed (h : Holds W s.arena F (s.live.map block)) : WellFormed W s F := by
  have ht := h.tiled
  have hblocks : s.blocks = s.live.map block := map_congr_left fun l hl =>
    Prod.ext rfl (h.live _ (mem_map_of_mem hl))
  refine ⟨h.cycle, ht.nodes_inc, h.freep, h.free, ?_, fun x => ?_, fun b hb c hc he => ?_,
    fun l hl => ?_⟩
  · rw [hblocks]
    refine pairwise_append.mpr ⟨?_, ht.live, fun b hb c hc x hx hx' =>
      ht.apart x ⟨b, hb, hx⟩ ⟨c, hc, hx'⟩⟩
    exact ht.gapped.gap.imp fun hlt x hx hx' => by have := hx.2; have := hx'.1; omega
  · rw [hblocks, covers_append]
    exact ht.cover x
  · exact ht.gapped.not_adjacent header_pos hb hc he
  · rw [show s.arena.size (l.1 - HEADER) = units l.2 from h.live _ (mem_map_of_mem hl)]
    exact units_usable l.2

theorem Inv.wellFormed (hi : Inv W s) :
    s.arena.freep = 0 ∧ s.arena.regions = [] ∧ s.live = [] ∨ ∃ F, WellFormed W s F := by
  obtain ⟨F, ⟨he, -, hnil⟩ | h⟩ := hi
  · exact .inl ⟨he.freep, he.regions, map_eq_nil_iff.mp hnil⟩
  · exact .inr ⟨F, h.wellFormed⟩

/-- **The free list.** After every run of calls, if each request that succeeds yields a fresh
region: the free list is one cycle through `base` and `freep`, in the order of the addresses but for
the wrap-around; the free and the live blocks are disjoint and are the regions obtained; no two free
blocks are adjacent, and each live block has the bytes asked for. Every call returns. -/
theorem free_list (W : Window) (mem : Nat → Nat) (cs : List Call)
    (hc : (calls W).Meets (Answered W) ⟨{ mem }, []⟩ cs)
    (hr : (calls W).run ⟨{ mem }, []⟩ cs = some s) :
    (s.arena.freep = 0 ∧ s.arena.regions = [] ∧ s.live = [] ∨ ∃ F, WellFormed W s F) ∧
    ∃ n, ∀ fuel, n ≤ fuel →
      (∀ nbytes env, Answered W s (.malloc nbytes fuel env) →
        ((calls W).next s (.malloc nbytes fuel env)).isSome) ∧
      ∀ l ∈ s.live, ((calls W).next s (.free l.1 fuel)).isSome := by
  have hi : Inv W s := Machine.run_inv Inv.next ⟨[], .inl ⟨⟨rfl, rfl⟩, rfl, rfl⟩⟩ hc hr
  exact ⟨hi.wellFormed, hi.returns⟩

/-- An environment that grants one region, at `p`. -/
def oneRegion (p : Nat) : Op → Arena → Answer
  | .core nu, a => if nu = 4096 ∧ a.regions = [] then some (p, fun _ => 0) else none
  | _, _ => none

theorem oneRegion_allowed {p : Nat} (hlo : W.base + HEADER ≤ p)
    (hhi : p + 4096 * HEADER ≤ W.hi) (o : Op) (a : Arena) : Allowed W o (oneRegion p o a) a := by
  cases o with
  | core nu =>
    by_cases h : nu = 4096 ∧ a.regions = []
    · rw [oneRegion, if_pos h]
      refine ⟨hlo, h.1 ▸ hhi, fun r hr => ?_⟩
      rw [h.2] at hr
      cases hr
    · rw [oneRegion, if_neg h]
      trivial
  | _ => trivial

/-- A process whose program ends below address 4096. -/
def smallWindow : Window := userWindow 64 (by decide) (by decide)

/-- Two blocks are taken from the tail end of the region; the first is freed and its place is used
again. -/
def someCalls : List Call :=
  [.malloc 100 10 (oneRegion 4096), .malloc 50 10 (oneRegion 4096), .free 69520 10,
    .write 69440 8 5, .malloc 8 10 (oneRegion 4096)]

theorem free_list_someCalls : ∃ s, (calls smallWindow).run ⟨{ mem := fun _ => 0 }, []⟩ someCalls =
    some s ∧ s.live = [(69616, 8), (69440, 50)] ∧ ∃ F, WellFormed smallWindow s F := by
  have hr : ((calls smallWindow).run ⟨{ mem := fun _ => 0 }, []⟩ someCalls).map Sys.live =
      some [(69616, 8), (69440, 50)] := by decide +kernel
  obtain ⟨s, hr, hl⟩ := map_eq_some_iff.mp hr
  refine ⟨s, hr, hl, ?_⟩
  have ha : ∀ nbytes fuel a, (malloc smallWindow.base fuel nbytes).Answered (access smallWindow)
      (Allowed smallWindow) (oneRegion 4096) a := fun _ _ _ =>
    Prog.answered_of_forall (oneRegion_allowed (by decide) (by decide)) _ _
  have hm : (calls smallWindow).Meets (Answered smallWindow) ⟨{ mem := fun _ => 0 }, []⟩
      someCalls :=
    ⟨ha _ _ _, fun _ _ => ⟨ha _ _ _, fun _ _ => ⟨trivial, fun _ _ => ⟨trivial, fun _ _ =>
      ⟨ha _ _ _, fun _ _ => trivial⟩⟩⟩⟩⟩
  rcases (free_list smallWindow _ _ hm hr).1 with ⟨-, -, hnil⟩ | hF
  · rw [hl] at hnil
    cases hnil
  · exact hF

end Runs

end Xv6.Malloc
