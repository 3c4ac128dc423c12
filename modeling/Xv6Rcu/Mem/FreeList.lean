import Xv6Rcu.Mem.Malloc

/-!
# The free list of the allocator

- `Holds`: the free list is the cycle through `base` and the free blocks `F`, in the order of their
  addresses and with gaps between them; together with the live blocks `B` they are the regions
  obtained.
- One lemma for each program: `scan_wp` finds the place of a block, `joinNext_wp` and `joinPrev_wp`
  link it and join it with its neighbours, and `free_wp` puts them together.
-/

namespace Xv6.Malloc

open Lib Mem Function List
open Option (some)

/-! ## Rules for the accesses -/

section Rules

/-- The program meets `Q`, whatever fresh regions its requests get. -/
abbrev Window.wp {α : Type} (W : Window) (stuck : Prop) (Q : α → Arena → Prop) (m : M α)
    (s : Arena) : Prop :=
  Prog.wp (access W) (Allowed W) stuck Q m s

/-- A header at `h` is inside the memory. -/
structure Window.Hdr (W : Window) (h : Nat) : Prop where
  low : W.lo ≤ h
  high : h + HEADER ≤ W.hi

variable {W : Window} {stuck : Prop} {α : Type} {Q : α → Arena → Prop} {R : Unit → Arena → Prop}
  {s : Arena} {h v nu : Nat} {f : Nat → M α} {m : M α}

theorem Window.Hdr.ptr (hh : W.Hdr h) : W.mapped h = true := by
  have := hh.low
  have := hh.high
  simp only [HEADER] at this
  simp only [mapped, decide_eq_true_eq]
  omega

theorem Window.Hdr.size (hh : W.Hdr h) : W.mapped (h + 8) = true := by
  have := hh.low
  have := hh.high
  simp only [HEADER] at this
  simp only [mapped, decide_eq_true_eq]
  omega

theorem wp_freep (hk : W.wp stuck Q (f s.freep) s) : W.wp stuck Q (freep >>= f) s :=
  fun _ _ => ⟨_, _, rfl, hk⟩

theorem wp_ptr (hh : W.Hdr h) (hk : W.wp stuck Q (f (s.ptr h)) s) :
    W.wp stuck Q (ptr h >>= f) s :=
  fun _ _ => ⟨_, _, if_pos hh.ptr, hk⟩

theorem wp_size (hh : W.Hdr h) (hk : W.wp stuck Q (f (s.size h)) s) :
    W.wp stuck Q (size h >>= f) s :=
  fun _ _ => ⟨_, _, if_pos hh.size, hk⟩

theorem wp_setPtr (hh : W.Hdr h) (hk : R () (s.setPtr h v)) : W.wp stuck R (setPtr h v) s :=
  fun _ _ => ⟨_, _, if_pos hh.ptr, hk⟩

theorem wp_setSize (hh : W.Hdr h) (hk : R () (s.setSize h v)) : W.wp stuck R (setSize h v) s :=
  fun _ _ => ⟨_, _, if_pos hh.size, hk⟩

theorem wp_setFreep (hk : R () { s with freep := v }) : W.wp stuck R (setFreep v) s :=
  fun _ _ => ⟨_, _, rfl, hk⟩

theorem wp_core (hfail : W.wp stuck Q (f (2 ^ 64 - 1)) s)
    (hk : ∀ p junk, Fresh W s nu p → W.wp stuck Q (f p) (s.grow nu (some (p, junk))).2) :
    W.wp stuck Q (core nu >>= f) s := by
  intro i hi
  cases i with
  | none => exact ⟨_, _, rfl, hfail⟩
  | some x => exact ⟨_, _, rfl, hk x.1 x.2 hi⟩

/-- One step of a program after the other. -/
theorem wp_seq {m1 : M Unit} (h1 : W.wp stuck (fun _ s => W.wp stuck Q m s) m1 s) :
    W.wp stuck Q (do m1; m) s :=
  Prog.wp_bind.mpr h1

end Rules

/-! ## Headers -/

section Headers

/-- Two headers do not overlap. -/
def Apart (a b : Nat) : Prop := a + HEADER ≤ b ∨ b + HEADER ≤ a

theorem Apart.symm {a b : Nat} (h : Apart a b) : Apart b a := Or.symm h

theorem Apart.words {a b : Nat} (h : Apart a b) :
    a ≠ b ∧ a + 8 ≠ b ∧ a ≠ b + 8 ∧ a + 8 ≠ b + 8 := by
  simp only [Apart, HEADER] at h
  omega

/-- Only the header at `h` has changed. -/
structure Same (h : Nat) (s s' : Arena) : Prop where
  ptr : ∀ a, Apart a h → s'.ptr a = s.ptr a
  size : ∀ a, Apart a h → s'.size a = s.size a
  freep : s'.freep = s.freep
  regions : s'.regions = s.regions

variable {s s1 s2 : Arena} {h a v : Nat}

theorem Same.trans (h1 : Same h s s1) (h2 : Same h s1 s2) : Same h s s2 where
  ptr a ha := (h2.ptr a ha).trans (h1.ptr a ha)
  size a ha := (h2.size a ha).trans (h1.size a ha)
  freep := h2.freep.trans h1.freep
  regions := h2.regions.trans h1.regions

theorem ptr_setPtr (s : Arena) (h v : Nat) : (s.setPtr h v).ptr h = v := update_self ..

theorem size_setPtr (s : Arena) (h v : Nat) : (s.setPtr h v).size h = s.size h := by
  simp only [Arena.size, Arena.setPtr]
  rw [update_of_ne (by omega)]

theorem size_setSize (s : Arena) (h v : Nat) : (s.setSize h v).size h = v % 2 ^ 32 := by
  simp only [Arena.size, Arena.setSize, update_self]
  omega

theorem ptr_setSize (s : Arena) (h v : Nat) : (s.setSize h v).ptr h = s.ptr h :=
  update_of_ne (by omega) ..

theorem same_setPtr (s : Arena) (h v : Nat) : Same h s (s.setPtr h v) := by
  refine ⟨fun a ha => ?_, fun a ha => ?_, rfl, rfl⟩
  · exact update_of_ne ha.words.1 ..
  · simp only [Arena.size, Arena.setPtr]
    rw [update_of_ne ha.words.2.1]

theorem same_setSize (s : Arena) (h v : Nat) : Same h s (s.setSize h v) := by
  refine ⟨fun a ha => ?_, fun a ha => ?_, rfl, rfl⟩
  · exact update_of_ne ha.words.2.2.1 ..
  · simp only [Arena.size, Arena.setSize]
    rw [update_of_ne ha.words.2.2.2]

def link (s : Arena) (a : Nat) : Option Nat := some (s.ptr a)

theorem Same.seg (hs : Same h s s1) {x e : Option Nat} {l : List Nat} (hl : ∀ a ∈ l, Apart a h)
    (h : Seg (link s) x l e) : Seg (link s1) x l e :=
  h.congr fun a ha => congrArg some (hs.ptr a (hl a ha))

end Headers

/-! ## The search loop of `free` -/

section Scan
variable {W : Window} {stuck : Prop} {s : Arena} {bp p fuel : Nat} {l : List Nat}
  {Q : Nat → Arena → Prop}

theorem between_wp {Q : Bool → Arena → Prop} (hp : W.Hdr p)
    (hQ : Q (decide (p < bp ∧ bp < s.ptr p)) s) : W.wp stuck Q (between bp p) s := by
  unfold between
  by_cases hlt : p < bp
  · rw [if_pos hlt]
    refine wp_ptr hp ?_
    rwa [decide_eq_decide.mpr (and_iff_right hlt)] at hQ
  · rw [if_neg hlt]
    rwa [decide_eq_false fun h => hlt h.1] at hQ

theorem atEnd_wp {Q : Bool → Arena → Prop} (hp : W.Hdr p)
    (hQ : Q (decide (s.ptr p ≤ p ∧ (p < bp ∨ bp < s.ptr p))) s) :
    W.wp stuck Q (atEnd bp p) s := by
  refine wp_ptr hp ?_
  by_cases hle : s.ptr p ≤ p
  · rw [if_pos hle]
    rw [decide_eq_decide.mpr (and_iff_right hle)] at hQ
    by_cases hlt : p < bp
    · rw [if_pos hlt]
      rwa [decide_eq_true (.inl hlt)] at hQ
    · rw [if_neg hlt]
      refine wp_ptr hp ?_
      rwa [decide_eq_decide.mpr (or_iff_right hlt)] at hQ
  · rw [if_neg hle]
    rwa [decide_eq_false fun h => hle h.1] at hQ

/-- One round of the loop. -/
theorem scan_round (hp : W.Hdr p)
    (hstop : p < bp ∧ bp < s.ptr p ∨ s.ptr p ≤ p ∧ (p < bp ∨ bp < s.ptr p) → Q p s)
    (hgo : ¬ (p < bp ∧ bp < s.ptr p) → ¬ (s.ptr p ≤ p ∧ (p < bp ∨ bp < s.ptr p)) →
      W.wp stuck Q (scan bp fuel (s.ptr p)) s) :
    W.wp stuck Q (scan bp (fuel + 1) p) s := by
  refine Prog.wp_bind.mpr (between_wp hp ?_)
  by_cases hb : p < bp ∧ bp < s.ptr p
  · rw [if_pos (decide_eq_true hb)]
    exact hstop (.inl hb)
  · rw [if_neg (by rwa [decide_eq_true_eq])]
    refine Prog.wp_bind.mpr (atEnd_wp hp ?_)
    by_cases he : s.ptr p ≤ p ∧ (p < bp ∨ bp < s.ptr p)
    · rw [if_pos (decide_eq_true he)]
      exact hstop (.inr he)
    · rw [if_neg (by rwa [decide_eq_true_eq])]
      exact wp_ptr hp (hgo hb he)

/-- From a node below `bp` the loop goes up to the place of `bp`. -/
theorem scan_up (hle : W.base ≤ p)
    (hs : Seg (link s) (some (s.ptr p)) l (some W.base)) (hinc : (p :: l).Pairwise (· < ·))
    (hhdr : ∀ a ∈ p :: l, W.Hdr a) (hp : p < bp) (hne : ∀ a ∈ l, a ≠ bp)
    (hf : l.length + 1 ≤ fuel ∨ stuck) :
    W.wp stuck (fun q s' => s' = s ∧ ∃ l₁ l2, p :: l = l₁ ++ q :: l2 ∧ q < bp ∧ ∀ a ∈ l2, bp < a)
      (scan bp fuel p) s := by
  induction l generalizing p fuel with
  | nil =>
    have hq : s.ptr p = W.base := some.inj hs
    cases fuel with
    | zero => exact hf.resolve_left (by simp)
    | succ fuel =>
      refine scan_round (hhdr p (by simp)) (fun _ => ⟨rfl, [], [], rfl, hp, by simp⟩) ?_
      exact fun _ hno => absurd ⟨by omega, .inl hp⟩ hno
  | cons q l ih =>
    obtain ⟨hq, hs⟩ := hs
    have hq : s.ptr p = q := some.inj hq
    obtain ⟨hpl, hinc'⟩ := pairwise_cons.mp hinc
    have hpq := hpl q (by simp)
    cases fuel with
    | zero => exact hf.resolve_left (by simp)
    | succ fuel =>
      refine scan_round (hhdr p (by simp)) (fun hstop => ?_) fun hno _ => ?_
      · refine ⟨rfl, [], q :: l, rfl, hp, fun a ha => ?_⟩
        have hbq : bp < q := by omega
        rcases mem_cons.mp ha with rfl | ha
        · exact hbq
        · have := (pairwise_cons.mp hinc').1 a ha
          omega
      · have hqbp : q < bp := by
          have := hne q (by simp)
          omega
        rw [hq]
        refine Prog.wp_mono (ih (by omega) hs hinc' (fun a ha => hhdr a (mem_cons_of_mem _ ha))
          hqbp (fun a ha => hne a (mem_cons_of_mem _ ha)) ?_) ?_
        · exact hf.imp_left fun h => by simpa using h
        · rintro r s' ⟨hs', l₁, l2, he, hr⟩
          exact ⟨hs', p :: l₁, l2, by rw [he, cons_append], hr⟩

/-- From a node above `bp` the loop goes up to the last node and on from `base`. -/
theorem scan_wrap (hbase : W.base < bp) (hs : Seg (link s) (some (s.ptr p)) l (some W.base))
    (hinc : (p :: l).Pairwise (· < ·)) (hhdr : ∀ a ∈ p :: l, W.Hdr a) (hp : bp < p) {n : Nat}
    (hf : l.length + 1 + n ≤ fuel ∨ stuck)
    (hwrap : ∀ fuel, n ≤ fuel ∨ stuck → W.wp stuck Q (scan bp fuel W.base) s) :
    W.wp stuck Q (scan bp fuel p) s := by
  induction l generalizing p fuel with
  | nil =>
    have hq : s.ptr p = W.base := some.inj hs
    cases fuel with
    | zero => exact hf.resolve_left (by simp)
    | succ fuel =>
      refine scan_round (hhdr p (by simp)) (fun hstop => absurd hstop (by omega)) fun _ _ => ?_
      rw [hq]
      exact hwrap fuel (hf.imp_left fun h => by omega)
  | cons q l ih =>
    obtain ⟨hq, hs⟩ := hs
    have hq : s.ptr p = q := some.inj hq
    obtain ⟨hpl, hinc'⟩ := pairwise_cons.mp hinc
    have hpq := hpl q (by simp)
    cases fuel with
    | zero => exact hf.resolve_left (by simp)
    | succ fuel =>
      refine scan_round (hhdr p (by simp)) (fun hstop => absurd hstop (by omega)) fun _ _ => ?_
      rw [hq]
      exact ih hs hinc' (fun a ha => hhdr a (mem_cons_of_mem _ ha)) (by omega)
        (hf.imp_left fun h => by simp at h; omega)

/-- The loop finds the place of `bp` in the list. -/
theorem scan_wp (hcyc : Seg (link s) (some W.base) (W.base :: l) (some W.base))
    (hinc : (W.base :: l).Pairwise (· < ·)) (hhdr : ∀ a ∈ W.base :: l, W.Hdr a)
    (hbase : W.base < bp) (hne : ∀ a ∈ l, a ≠ bp) (hp : p ∈ W.base :: l)
    (hf : 2 * (l.length + 1) ≤ fuel ∨ stuck) :
    W.wp stuck (fun q s' => s' = s ∧
        ∃ l₁ l2, W.base :: l = l₁ ++ q :: l2 ∧ q < bp ∧ ∀ a ∈ l2, bp < a)
      (scan bp fuel p) s := by
  obtain ⟨l₁, l2, hl⟩ := append_of_mem hp
  have hfrom := hcyc
  rw [hl, seg_append] at hfrom
  obtain ⟨m, -, rfl, hs⟩ := hfrom
  have hinc' : (p :: l2).Pairwise (· < ·) := by
    rw [hl] at hinc
    exact (pairwise_append.mp hinc).2.1
  have hmem : ∀ a ∈ p :: l2, a ∈ W.base :: l := fun a ha => by
    rw [hl]
    exact mem_append_right _ ha
  have hlen : l2.length + 1 ≤ l.length + 1 := by
    have := congrArg length hl
    simp only [length_cons, length_append] at this
    omega
  have hle : W.base ≤ p := by
    rcases mem_cons.mp hp with rfl | hp
    · exact Nat.le_refl _
    · exact Nat.le_of_lt ((pairwise_cons.mp hinc).1 p hp)
  have hpbp : p ≠ bp := by
    rcases mem_cons.mp hp with rfl | hp
    · exact Nat.ne_of_lt hbase
    · exact hne p hp
  rcases Nat.lt_or_gt_of_ne hpbp with hlt | hgt
  · refine Prog.wp_mono (scan_up hle hs hinc' (fun a ha => hhdr a (hmem a ha)) hlt
      (fun a ha => ?_) (hf.imp_left fun h => by omega)) ?_
    · rcases mem_cons.mp (hmem a (mem_cons_of_mem _ ha)) with rfl | ha'
      · exact Nat.ne_of_lt hbase
      · exact hne a ha'
    · rintro q s' ⟨hs', k1, k2, he, hq⟩
      exact ⟨hs', l₁ ++ k1, k2, by rw [hl, he, append_assoc], hq⟩
  · refine scan_wrap (n := l.length + 1) hbase hs hinc' (fun a ha => hhdr a (hmem a ha)) hgt
      (hf.imp_left fun h => by omega) fun fuel' hf' => ?_
    exact scan_up (Nat.le_refl _) hcyc.2 hinc hhdr hbase hne hf'

end Scan

/-! ## Joining blocks -/

section Join
variable {W : Window} {stuck : Prop} {s : Arena} {bp p : Nat}

theorem joinNext_wp (hp : W.Hdr p) (hb : W.Hdr bp) (ha : Apart p bp)
    (hq : bp + s.size bp * HEADER = s.ptr p → W.Hdr (s.ptr p) ∧ Apart (s.ptr p) bp ∧
      s.size bp + s.size (s.ptr p) < 2 ^ 32) :
    W.wp stuck (fun _ s' => Same bp s s' ∧
      (bp + s.size bp * HEADER ≠ s.ptr p ∧ s'.ptr bp = s.ptr p ∧ s'.size bp = s.size bp ∨
        bp + s.size bp * HEADER = s.ptr p ∧ s'.ptr bp = s.ptr (s.ptr p) ∧
          s'.size bp = s.size bp + s.size (s.ptr p))) (joinNext bp p) s := by
  refine wp_ptr hp (wp_size hb ?_)
  by_cases he : bp + s.size bp * HEADER = s.ptr p
  · obtain ⟨hqh, hqa, hsm⟩ := hq he
    rw [if_pos he]
    refine wp_ptr hp (wp_size hqh (wp_size hb (wp_seq (wp_setSize hb ?_))))
    have hs := same_setSize s bp (s.size bp + s.size (s.ptr p))
    refine wp_ptr hp ?_
    rw [hs.ptr p ha]
    refine wp_ptr hqh (wp_setPtr hb ?_)
    rw [hs.ptr _ hqa]
    refine ⟨hs.trans (same_setPtr ..), .inr ⟨he, ptr_setPtr .., ?_⟩⟩
    rw [size_setPtr, size_setSize, Nat.mod_eq_of_lt hsm]
  · rw [if_neg he]
    refine wp_ptr hp (wp_setPtr hb ⟨same_setPtr .., .inl ⟨he, ptr_setPtr .., size_setPtr ..⟩⟩)

theorem joinPrev_wp (hp : W.Hdr p) (hb : W.Hdr bp) (ha : Apart bp p)
    (hsm : s.size p + s.size bp < 2 ^ 32) :
    W.wp stuck (fun _ s' => Same p s s' ∧
      (p + s.size p * HEADER ≠ bp ∧ s'.ptr p = bp ∧ s'.size p = s.size p ∨
        p + s.size p * HEADER = bp ∧ s'.ptr p = s.ptr bp ∧
          s'.size p = s.size p + s.size bp)) (joinPrev bp p) s := by
  refine wp_size hp ?_
  by_cases he : p + s.size p * HEADER = bp
  · rw [if_pos he]
    refine wp_size hb (wp_size hp (wp_seq (wp_setSize hp ?_)))
    have hs := same_setSize s p (s.size p + s.size bp)
    refine wp_ptr hb ?_
    rw [hs.ptr bp ha]
    refine wp_setPtr hp ⟨hs.trans (same_setPtr ..), .inr ⟨he, ptr_setPtr .., ?_⟩⟩
    rw [size_setPtr, size_setSize, Nat.mod_eq_of_lt hsm]
  · rw [if_neg he]
    exact wp_setPtr hp ⟨same_setPtr .., .inl ⟨he, ptr_setPtr .., size_setPtr ..⟩⟩

end Join

/-! ## The invariant -/

/-- The free blocks `F` and the live blocks `B` are the regions `R`. -/
structure Tiled (W : Window) (R F B : List (Nat × Nat)) : Prop where
  gapped : Gapped HEADER F
  pos : ∀ b ∈ B, 0 < b.2
  live : B.Pairwise fun b c => ∀ x, InBlk HEADER b x → ¬ InBlk HEADER c x
  apart : ∀ x, Covers HEADER F x → ¬ Covers HEADER B x
  cover : ∀ x, Covers HEADER R x ↔ Covers HEADER F x ∨ Covers HEADER B x
  region : ∀ r ∈ R, W.base + HEADER ≤ r.1 ∧ r.1 + r.2 * HEADER ≤ W.hi

/-- The nodes of the free list. -/
def nodes (W : Window) (F : List (Nat × Nat)) : List Nat := W.base :: F.map Prod.fst

structure Holds (W : Window) (s : Arena) (F B : List (Nat × Nat)) : Prop where
  tiled : Tiled W s.regions F B
  cycle : Seg (link s) (some W.base) (nodes W F) (some W.base)
  free : ∀ b ∈ F, s.size b.1 = b.2
  live : ∀ b ∈ B, s.size b.1 = b.2
  base : s.size W.base = 0
  freep : s.freep ∈ nodes W F

section Tiled
variable {W : Window} {R F F₁ F₂ B : List (Nat × Nat)} {b c : Nat × Nat}

theorem header_pos : 0 < HEADER := by decide

section
variable (h : Tiled W R F B) (hb : b ∈ F ∨ b ∈ B)
include h hb

theorem Tiled.pos_mem : 0 < b.2 :=
  hb.elim (h.gapped.pos b) (h.pos b)

theorem Tiled.bounds : W.base + HEADER ≤ b.1 ∧ b.1 + b.2 * HEADER ≤ W.hi := by
  refine block_bounds header_pos (h.pos_mem hb) fun x hx => ?_
  obtain ⟨r, hr, hrx⟩ := (h.cover x).mpr (hb.imp (⟨b, ·, hx⟩) (⟨b, ·, hx⟩))
  obtain ⟨hlo, hhi⟩ := h.region r hr
  have := hrx.1
  have := hrx.2
  omega

theorem Tiled.hdr : W.Hdr b.1 := by
  obtain ⟨hlo, hhi⟩ := h.bounds hb
  have hpos := Nat.mul_le_mul_right HEADER (h.pos_mem hb)
  have := W.lo_le
  exact ⟨by omega, by omega⟩

end

theorem base_hdr (W : Window) : W.Hdr W.base := ⟨W.lo_le, W.base_le⟩

theorem Tiled.nodes_hdr (h : Tiled W R F B) : ∀ a ∈ nodes W F, W.Hdr a := by
  intro a ha
  rcases mem_cons.mp ha with rfl | ha
  · exact base_hdr W
  · obtain ⟨b, hb, rfl⟩ := mem_map.mp ha
    exact h.hdr (.inl hb)

theorem Tiled.nodes_inc (h : Tiled W R F B) : (nodes W F).Pairwise (· < ·) := by
  refine pairwise_cons.mpr ⟨fun a ha => ?_, h.gapped.increasing⟩
  obtain ⟨b, hb, rfl⟩ := mem_map.mp ha
  have := (h.bounds (.inl hb)).1
  have := header_pos
  omega

/-- Disjoint blocks have headers apart. -/
theorem apart_of_disjoint (hb : 0 < b.2) (hc : 0 < c.2)
    (hd : ∀ x, InBlk HEADER b x → ¬ InBlk HEADER c x) : Apart b.1 c.1 := by
  have hb' := Nat.mul_le_mul_right HEADER hb
  have hc' := Nat.mul_le_mul_right HEADER hc
  rcases Nat.le_total b.1 c.1 with hle | hle
  · have := end_le_of_disjoint header_pos hc hd hle
    exact .inl (by omega)
  · have := end_le_of_disjoint header_pos hb (fun x hx hx' => hd x hx' hx) hle
    exact .inr (by omega)

/-- A live block and the free ones. -/
theorem Tiled.disjoint (h : Tiled W R F B) (hb : b ∈ B) (hc : c ∈ F) :
    ∀ x, InBlk HEADER b x → ¬ InBlk HEADER c x :=
  fun x hbx hcx => h.apart x ⟨c, hc, hcx⟩ ⟨b, hb, hbx⟩

theorem Tiled.apart_node (h : Tiled W R F B) (hb : b ∈ B) : ∀ a ∈ nodes W F, Apart a b.1 := by
  intro a ha
  rcases mem_cons.mp ha with rfl | ha
  · exact .inl (h.bounds (.inr hb)).1
  · obtain ⟨c, hc, rfl⟩ := mem_map.mp ha
    exact (apart_of_disjoint (h.pos b hb) (h.gapped.pos c hc) (h.disjoint hb hc)).symm

/-- The list with the live block `b` is that of the blocks which cover `b` too. -/
theorem Tiled.give {F' : List (Nat × Nat)} (h : Tiled W R F (b :: B)) (hg : Gapped HEADER F')
    (hcov : ∀ x, Covers HEADER F' x ↔ Covers HEADER F x ∨ InBlk HEADER b x) : Tiled W R F' B := by
  obtain ⟨hbB, hlive⟩ := pairwise_cons.mp h.live
  refine ⟨hg, fun c hc => h.pos c (mem_cons_of_mem _ hc), hlive, fun x hF hB => ?_,
    fun x => ?_, h.region⟩
  · rcases (hcov x).mp hF with hx | hx
    · exact h.apart x hx (covers_cons.mpr (.inr hB))
    · obtain ⟨c, hc, hcx⟩ := hB
      exact hbB c hc x hx hcx
  · rw [h.cover, hcov, covers_cons, or_assoc]

end Tiled

/-! ## `free` -/

section Free
variable {W : Window} {stuck : Prop} {s s' : Arena} {F F₁ F₂ B : List (Nat × Nat)} {b : Nat × Nat}
  {p : Nat} {l₁ l2 : List Nat}

/-- A node of the list, the blocks up to it and those after it. -/
theorem nodes_split (h : nodes W F = l₁ ++ p :: l2) :
    ∃ F₁ F₂, F = F₁ ++ F₂ ∧ l2 = F₂.map Prod.fst ∧ nodes W F₁ = l₁ ++ [p] := by
  cases l₁ with
  | nil =>
    obtain ⟨rfl, rfl⟩ := cons.inj h
    exact ⟨[], F, rfl, rfl, rfl⟩
  | cons a l₁ =>
    obtain ⟨rfl, htail⟩ := cons.inj h
    have hmap : F.map Prod.fst = l₁ ++ p :: l2 := htail
    obtain ⟨G1, G2, hF, rfl, hmap2⟩ := map_eq_append_iff.mp hmap
    obtain ⟨c, F₂, rfl, rfl, rfl⟩ := map_eq_cons_iff.mp hmap2
    subst hF
    refine ⟨G1 ++ [c], F₂, by simp, rfl, ?_⟩
    simp [nodes]

theorem nodes_append (W : Window) (F₁ F₂ : List (Nat × Nat)) :
    nodes W (F₁ ++ F₂) = nodes W F₁ ++ F₂.map Prod.fst := by
  simp [nodes]

/-- The free list in the middle of `free`: the block `b` is linked to the blocks `F₂` after it and
not yet to the blocks `F₁` before it, the last of which is `p`. -/
structure Mid (W : Window) (s : Arena) (F₁ F₂ : List (Nat × Nat)) (b : Nat × Nat) (l₁ : List Nat)
    (p : Nat) : Prop where
  gapped : Gapped HEADER (F₁ ++ F₂)
  pos : 0 < b.2
  before : ∀ c ∈ F₁, c.1 + c.2 * HEADER ≤ b.1
  after : ∀ c ∈ F₂, b.1 + b.2 * HEADER < c.1
  bounds : W.base + HEADER ≤ b.1 ∧ b.1 + b.2 * HEADER ≤ W.hi
  above : ∀ c ∈ F₁ ++ F₂, W.base + HEADER ≤ c.1
  last : nodes W F₁ = l₁ ++ [p]
  head : Seg (link s) (some W.base) l₁ (some p)
  tail : Seg (link s) (some (s.ptr b.1)) (F₂.map Prod.fst) (some W.base)
  size : s.size b.1 = b.2
  free : ∀ c ∈ F₁ ++ F₂, s.size c.1 = c.2
  base : s.size W.base = 0

theorem lt_of_window {a n : Nat} (hlo : W.base ≤ a) (hhi : a + n * HEADER ≤ W.hi) : n < 2 ^ 32 := by
  have := W.small
  have := W.lo_le
  simp only [HEADER] at *
  omega

/-- The place of a live block among the free ones. -/
theorem Tiled.place {R : List (Nat × Nat)} (h : Tiled W R (F₁ ++ F₂) (b :: B))
    (h1 : ∀ c ∈ F₁, c.1 < b.1) (h2 : ∀ c ∈ F₂, b.1 < c.1) :
    (∀ c ∈ F₁, c.1 + c.2 * HEADER ≤ b.1) ∧ ∀ c ∈ F₂, b.1 + b.2 * HEADER ≤ c.1 := by
  have hb : b ∈ b :: B := mem_cons_self ..
  refine ⟨fun c hc => ?_, fun c hc => ?_⟩
  · have hd := h.disjoint hb (mem_append_left F₂ hc)
    exact end_le_of_disjoint header_pos (h.pos b hb) (fun x hx hx' => hd x hx' hx)
      (Nat.le_of_lt (h1 c hc))
  · have hc' := mem_append_right F₁ hc
    exact end_le_of_disjoint header_pos (h.gapped.pos c hc') (h.disjoint hb hc')
      (Nat.le_of_lt (h2 c hc))

theorem Holds.split (h : Holds W s (F₁ ++ F₂) B) (hn : nodes W F₁ = l₁ ++ [p]) :
    Seg (link s) (some W.base) l₁ (some p) ∧
      Seg (link s) (some (s.ptr p)) (F₂.map Prod.fst) (some W.base) := by
  have hcyc := h.cycle
  rw [nodes_append, hn, append_assoc, seg_append] at hcyc
  obtain ⟨m, hhead, rfl, htail⟩ := hcyc
  exact ⟨hhead, htail⟩

/-- What `joinNext` does to the list. -/
theorem Holds.joinNext (h : Holds W s (F₁ ++ F₂) (b :: B)) (hn : nodes W F₁ = l₁ ++ [p])
    (h1 : ∀ c ∈ F₁, c.1 < b.1) (h2 : ∀ c ∈ F₂, b.1 < c.1) (hs : Same b.1 s s')
    (he : b.1 + s.size b.1 * HEADER ≠ s.ptr p ∧ s'.ptr b.1 = s.ptr p ∧ s'.size b.1 = s.size b.1 ∨
      b.1 + s.size b.1 * HEADER = s.ptr p ∧ s'.ptr b.1 = s.ptr (s.ptr p) ∧
        s'.size b.1 = s.size b.1 + s.size (s.ptr p)) :
    ∃ b' F2', b'.1 = b.1 ∧ b.2 ≤ b'.2 ∧ F2'.length ≤ F₂.length ∧ Mid W s' F₁ F2' b' l₁ p ∧
      ∀ x, Covers HEADER (F₁ ++ F2') x ∨ InBlk HEADER b' x ↔
        Covers HEADER (F₁ ++ F₂) x ∨ InBlk HEADER b x := by
  have hb : b ∈ b :: B := mem_cons_self ..
  obtain ⟨hbefore, hafter⟩ := h.tiled.place h1 h2
  have hbounds := h.tiled.bounds (.inr hb)
  have hpos := h.tiled.pos b hb
  obtain ⟨hhead, htail⟩ := h.split hn
  have hapart : ∀ a ∈ nodes W (F₁ ++ F₂), Apart a b.1 := h.tiled.apart_node hb
  have hapart1 : ∀ a ∈ l₁, Apart a b.1 := fun a ha => hapart a (by
    rw [nodes_append, hn]
    simp [ha])
  have hapart2 : ∀ c ∈ F₁ ++ F₂, Apart c.1 b.1 := fun c hc =>
    hapart c.1 (mem_cons_of_mem _ (mem_map_of_mem hc))
  have hfree : ∀ c ∈ F₁ ++ F₂, s'.size c.1 = c.2 := fun c hc => by
    rw [hs.size _ (hapart2 c hc), h.free c hc]
  have hbase : s'.size W.base = 0 := by rw [hs.size _ (hapart _ (mem_cons_self ..)), h.base]
  have hsize := h.live b hb
  rw [hsize] at he
  rcases he with ⟨hne, hptr, hsz⟩ | ⟨heq, hptr, hsz⟩
  · refine ⟨b, F₂, rfl, Nat.le_refl _, Nat.le_refl _, ⟨h.tiled.gapped, hpos, hbefore,
      fun c hc => ?_, hbounds, fun c hc => (h.tiled.bounds (.inl hc)).1, hn, hs.seg hapart1 hhead,
      ?_, hsz, hfree, hbase⟩, fun _ => Iff.rfl⟩
    · cases F₂ with
      | nil => cases hc
      | cons d F3 =>
        have hd : s.ptr p = d.1 := some.inj htail.1
        have hlt : b.1 + b.2 * HEADER < d.1 := by
          have := hafter d (mem_cons_self ..)
          omega
        rcases mem_cons.mp hc with rfl | hc
        · exact hlt
        · have := h.tiled.gapped.after c hc
          omega
    · rw [hptr]
      refine hs.seg (fun a ha => ?_) htail
      obtain ⟨c, hc, rfl⟩ := mem_map.mp ha
      exact hapart2 c (mem_append_right _ hc)
  · cases F₂ with
    | nil =>
      have hbp : s.ptr p = W.base := some.inj htail
      have := header_pos
      omega
    | cons d F3 =>
      obtain ⟨hd, htail⟩ := htail
      have hd : s.ptr p = d.1 := some.inj hd
      have hdF : d ∈ F₁ ++ d :: F3 := by simp
      rw [hd] at heq hptr hsz
      rw [h.free d hdF] at hsz
      have hmul : (b.2 + d.2) * HEADER = b.2 * HEADER + d.2 * HEADER := Nat.add_mul ..
      have hdb := h.tiled.bounds (.inl hdF)
      have hmem : ∀ c ∈ F₁ ++ F3, c ∈ F₁ ++ d :: F3 := fun c hc => by
        rcases mem_append.mp hc with hc | hc <;> simp [hc]
      refine ⟨(b.1, b.2 + d.2), F3, rfl, Nat.le_add_right .., Nat.le_succ _,
        ⟨h.tiled.gapped.remove, Nat.add_pos_left hpos _, hbefore, fun c hc => ?_, ?_,
          fun c hc => (h.tiled.bounds (.inl (hmem c hc))).1, hn, hs.seg hapart1 hhead, ?_, hsz,
          fun c hc => hfree c (hmem c hc), hbase⟩, fun x => ?_⟩
      · have := h.tiled.gapped.after c hc
        show b.1 + (b.2 + d.2) * HEADER < c.1
        omega
      · show W.base + HEADER ≤ b.1 ∧ b.1 + (b.2 + d.2) * HEADER ≤ W.hi
        omega
      · rw [hptr]
        refine hs.seg (fun a ha => ?_) htail
        obtain ⟨c, hc, rfl⟩ := mem_map.mp ha
        exact hapart2 c (by simp [hc])
      · rw [in_join heq, covers_append, covers_append, covers_cons]
        tauto

/-- The headers of the nodes are apart, in the order of the list. -/
theorem nodes_apart (hg : Gapped HEADER F) (ha : ∀ c ∈ F, W.base + HEADER ≤ c.1) :
    (nodes W F).Pairwise fun a b => a + HEADER ≤ b := by
  refine pairwise_cons.mpr ⟨fun a h => ?_, pairwise_map.mpr ?_⟩
  · obtain ⟨c, hc, rfl⟩ := mem_map.mp h
    exact ha c hc
  · refine hg.gap.imp_of_mem fun {c d} hc _ hlt => ?_
    have := Nat.mul_le_mul_right HEADER (hg.pos c hc)
    omega

theorem last_node (h : nodes W F₁ = l₁ ++ [p]) :
    F₁ = [] ∧ l₁ = [] ∧ p = W.base ∨ ∃ F0 d, F₁ = F0 ++ [d] ∧ l₁ = nodes W F0 ∧ p = d.1 := by
  rcases eq_nil_or_concat F₁ with rfl | ⟨F0, d, rfl⟩
  · obtain ⟨hl, hp⟩ := append_inj' (show [] ++ [W.base] = l₁ ++ [p] from h) rfl
    exact .inl ⟨rfl, hl.symm, (singleton_inj.mp hp).symm⟩
  · rw [concat_eq_append, nodes_append] at h
    obtain ⟨hl, hp⟩ := append_inj' h rfl
    exact .inr ⟨F0, d, concat_eq_append .., hl.symm, (singleton_inj.mp hp).symm⟩

section
variable (h : Mid W s F₁ F₂ b l₁ p)
include h

/-- The block before `b`: `base`, which has no units, or a free block. -/
theorem Mid.prev : p + HEADER ≤ b.1 ∧ p + s.size p * HEADER ≤ b.1 ∧ W.base ≤ p := by
  rcases last_node h.last with ⟨-, -, rfl⟩ | ⟨F0, d, rfl, -, rfl⟩
  · have := h.bounds.1
    rw [h.base]
    omega
  · have hd : d ∈ (F0 ++ [d]) ++ F₂ := by simp
    have hle := h.before d (by simp)
    have := Nat.mul_le_mul_right HEADER (h.gapped.pos d hd)
    have := h.above d hd
    rw [h.free d hd]
    omega

/-- `F` is the free list with `b` put among the blocks `G`. -/
structure Put (W : Window) (s : Arena) (G : List (Nat × Nat)) (b : Nat × Nat) (p : Nat)
    (F : List (Nat × Nat)) : Prop where
  gapped : Gapped HEADER F
  cover : ∀ x, Covers HEADER F x ↔ Covers HEADER G x ∨ InBlk HEADER b x
  cycle : Seg (link s) (some W.base) (nodes W F) (some W.base)
  free : ∀ c ∈ F, s.size c.1 = c.2
  base : s.size W.base = 0
  node : p ∈ nodes W F
  large : ∃ c ∈ F, b.2 ≤ c.2
  length : F.length ≤ G.length + 1

theorem Mid.apart : (∀ a ∈ l₁, Apart a p) ∧ ∀ a ∈ F₂.map Prod.fst, Apart a p := by
  have hap := nodes_apart h.gapped h.above
  rw [nodes_append, h.last, append_assoc] at hap
  obtain ⟨-, hap2, hap1⟩ := pairwise_append.mp hap
  exact ⟨fun a ha => .inl (hap1 a ha p (mem_cons_self ..)),
    fun a ha => .inr ((pairwise_cons.mp hap2).1 a ha)⟩

theorem Mid.same_size (hs : Same p s s') {a : Nat} (ha : a ∈ nodes W (F₁ ++ F₂)) (hne : a ≠ p) :
    s'.size a = s.size a := by
  rw [nodes_append, h.last, append_assoc] at ha
  rcases mem_append.mp ha with ha | ha
  · exact hs.size a (h.apart.1 a ha)
  · exact hs.size a (h.apart.2 a ((mem_cons.mp ha).resolve_left hne))

omit h in
theorem mem_nodes {c : Nat × Nat} (hc : c ∈ F) : c.1 ∈ nodes W F :=
  mem_cons_of_mem _ (mem_map_of_mem hc)

/-- `joinPrev` links the block `b` behind `p`. -/
theorem Mid.link (hs : Same p s s') (hne : p + s.size p * HEADER ≠ b.1) (hptr : s'.ptr p = b.1)
    (hsz : s'.size p = s.size p) : Put W s' (F₁ ++ F₂) b p (F₁ ++ b :: F₂) := by
  have hbp : Apart b.1 p := .inr h.prev.1
  have hsame : ∀ a ∈ nodes W (F₁ ++ F₂), s'.size a = s.size a := fun a ha => by
    by_cases hap : a = p
    · rw [hap, hsz]
    · exact h.same_size hs ha hap
  have hlt : ∀ c ∈ F₁, c.1 + c.2 * HEADER < b.1 := by
    rcases last_node h.last with ⟨rfl, -, -⟩ | ⟨F0, d, rfl, -, rfl⟩
    · exact nofun
    · intro c hc
      have hd : d ∈ (F0 ++ [d]) ++ F₂ := by simp
      rw [h.free d hd] at hne
      have hdb := h.before d (by simp)
      rcases mem_append.mp hc with hc | hc
      · have hg : Gapped HEADER (F0 ++ d :: F₂) := by simpa using h.gapped
        have := hg.before c hc
        omega
      · rw [mem_singleton.mp hc]
        omega
  refine ⟨h.gapped.insert h.pos hlt h.after, fun x => ?_, ?_, fun c hc => ?_, ?_, ?_,
    ⟨b, by simp, Nat.le_refl _⟩, by simp; omega⟩
  · rw [covers_append, covers_append, covers_cons]
    tauto
  · rw [nodes_append, h.last, append_assoc, seg_append]
    refine ⟨some p, hs.seg h.apart.1 h.head, rfl, congrArg some hptr, ?_⟩
    show Seg (Malloc.link s') (some (s'.ptr b.1)) _ _
    rw [hs.ptr b.1 hbp]
    exact hs.seg h.apart.2 h.tail
  · by_cases hcb : c = b
    · rw [hcb, hs.size b.1 hbp, h.size]
    · have hc' : c ∈ F₁ ++ F₂ := by
        rcases mem_append.mp hc with hc | hc
        · exact mem_append_left _ hc
        · exact mem_append_right _ ((mem_cons.mp hc).resolve_left hcb)
      rw [hsame c.1 (mem_nodes hc'), h.free c hc']
  · rw [hsame W.base (mem_cons_self ..), h.base]
  · rw [nodes_append, h.last]
    simp

end

/-- `joinPrev` joins the block `b` with the free block `d` before it. -/
theorem Mid.join {F0 : List (Nat × Nat)} {d : Nat × Nat}
    (h : Mid W s (F0 ++ [d]) F₂ b (nodes W F0) d.1) (hs : Same d.1 s s')
    (heq : d.1 + d.2 * HEADER = b.1) (hptr : s'.ptr d.1 = s.ptr b.1)
    (hsz : s'.size d.1 = d.2 + b.2) :
    Put W s' ((F0 ++ [d]) ++ F₂) b d.1 (F0 ++ (d.1, d.2 + b.2) :: F₂) := by
  have hd : d ∈ (F0 ++ [d]) ++ F₂ := by simp
  have hg : Gapped HEADER (F0 ++ d :: F₂) := by simpa using h.gapped
  have hmul : (d.2 + b.2) * HEADER = d.2 * HEADER + b.2 * HEADER := Nat.add_mul ..
  have hother : ∀ c ∈ F0 ++ F₂, s'.size c.1 = c.2 := by
    intro c hc
    have hc' : c ∈ (F0 ++ [d]) ++ F₂ := by
      rcases mem_append.mp hc with hc | hc <;> simp [hc]
    rw [h.same_size hs (mem_nodes hc'), h.free c hc']
    rcases mem_append.mp hc with hc | hc
    · have := hg.before c hc
      omega
    · have := hg.after c hc
      omega
  refine ⟨hg.remove.insert (Nat.add_pos_right _ h.pos) hg.before fun c hc => ?_, fun x => ?_, ?_,
    fun c hc => ?_, ?_, by simp [nodes], ⟨(d.1, d.2 + b.2), by simp, Nat.le_add_left ..⟩, by simp⟩
  · have := h.after c hc
    show d.1 + (d.2 + b.2) * HEADER < c.1
    omega
  · rw [covers_append, covers_cons, in_join heq, covers_append, covers_append, covers_cons]
    have := covers_nil (w := HEADER) (x := x)
    tauto
  · rw [nodes_append, seg_append]
    refine ⟨some d.1, hs.seg h.apart.1 h.head, rfl, ?_⟩
    show Seg (Malloc.link s') (some (s'.ptr d.1)) _ _
    rw [hptr]
    exact hs.seg h.apart.2 h.tail
  · rcases mem_append.mp hc with hc | hc
    · exact hother c (mem_append_left _ hc)
    · rcases mem_cons.mp hc with rfl | hc
      · exact hsz
      · exact hother c (mem_append_right _ hc)
  · rw [h.same_size hs (mem_cons_self ..), h.base]
    have := h.above d hd
    have := header_pos
    omega

/-- What `joinPrev` does to the list. -/
theorem Mid.joinPrev (h : Mid W s F₁ F₂ b l₁ p) (hs : Same p s s')
    (he : p + s.size p * HEADER ≠ b.1 ∧ s'.ptr p = b.1 ∧ s'.size p = s.size p ∨
      p + s.size p * HEADER = b.1 ∧ s'.ptr p = s.ptr b.1 ∧ s'.size p = s.size p + s.size b.1) :
    ∃ F, Put W s' (F₁ ++ F₂) b p F := by
  rcases he with ⟨hne, hptr, hsz⟩ | ⟨heq, hptr, hsz⟩
  · exact ⟨_, h.link hs hne hptr hsz⟩
  · rcases last_node h.last with ⟨-, -, rfl⟩ | ⟨F0, d, rfl, rfl, rfl⟩
    · -- `base` has no units, so it joins no block.
      have := h.bounds.1
      have := header_pos
      rw [h.base] at heq
      omega
    · rw [h.free d (by simp)] at heq hsz
      rw [h.size] at hsz
      exact ⟨_, h.join hs heq hptr hsz⟩

/-- The block that `joinNext` joins with `b`. -/
theorem Holds.adjacent (h : Holds W s (F₁ ++ F₂) (b :: B)) (hn : nodes W F₁ = l₁ ++ [p])
    (he : b.1 + s.size b.1 * HEADER = s.ptr p) :
    W.Hdr (s.ptr p) ∧ Apart (s.ptr p) b.1 ∧ s.size b.1 + s.size (s.ptr p) < 2 ^ 32 := by
  have hb : b ∈ b :: B := mem_cons_self ..
  have hbounds := h.tiled.bounds (.inr hb)
  obtain ⟨-, htail⟩ := h.split hn
  cases F₂ with
  | nil =>
    have hbp : s.ptr p = W.base := some.inj htail
    have := header_pos
    omega
  | cons d F3 =>
    have hd : s.ptr p = d.1 := some.inj htail.1
    have hdF : d ∈ F₁ ++ d :: F3 := by simp
    rw [hd]
    refine ⟨h.tiled.hdr (.inl hdF), h.tiled.apart_node hb _ (mem_nodes hdF), ?_⟩
    have hdb := h.tiled.bounds (.inl hdF)
    rw [h.live b hb] at he
    rw [h.live b hb, h.free d hdF]
    refine lt_of_window (W := W) (a := b.1) (by omega) ?_
    rw [Nat.add_mul]
    omega

theorem Tiled.apart_live {R : List (Nat × Nat)} (h : Tiled W R F (b :: B)) {c : Nat × Nat}
    (hc : c ∈ B) : Apart c.1 b.1 := by
  have hd := (pairwise_cons.mp h.live).1 c hc
  exact (apart_of_disjoint (h.pos b (mem_cons_self ..))
    (h.pos c (mem_cons_of_mem _ hc)) hd).symm

/-- **`free`.** The live block `b` becomes free and is joined with its neighbours. -/
theorem free_wp {fuel : Nat} (h : Holds W s F (b :: B)) (hf : 2 * (F.length + 1) ≤ fuel ∨ stuck) :
    W.wp stuck (fun _ s' => ∃ F', Holds W s' F' B ∧ s'.regions = s.regions ∧
      F'.length ≤ F.length + 1 ∧ ∃ c ∈ F', b.2 ≤ c.2) (free fuel (b.1 + HEADER)) s := by
  have hb : b ∈ b :: B := mem_cons_self ..
  have ht := h.tiled
  refine wp_freep (Prog.wp_bind.mpr (Prog.wp_mono (scan_wp h.cycle ht.nodes_inc ht.nodes_hdr ?_ ?_
    h.freep (by simpa using hf)) ?_))
  · have := (ht.bounds (.inr hb)).1
    have := header_pos
    omega
  · intro a ha he
    have := ht.apart_node hb a (mem_cons_of_mem _ ha)
    have := header_pos
    unfold Apart at *
    omega
  · rintro p s0 ⟨rfl, l₁, l2, hl, hp, hgt⟩
    have hpn : p ∈ nodes W F := by
      rw [show nodes W F = l₁ ++ p :: l2 from hl]
      simp
    have hinc := ht.nodes_inc
    obtain ⟨F₁, F₂, rfl, rfl, hn⟩ := nodes_split hl
    have h1 : ∀ c ∈ F₁, c.1 < b.1 := by
      intro c hc
      rw [nodes_append, hn] at hinc
      have hle : ∀ a ∈ l₁, a < p := fun a ha =>
        (pairwise_append.mp (pairwise_append.mp hinc).1).2.2 a ha p (by simp)
      have hcn : c.1 ∈ l₁ ++ [p] := hn ▸ mem_nodes hc
      rcases mem_append.mp hcn with hm | hm
      · have := hle c.1 hm
        omega
      · rwa [mem_singleton.mp hm]
    have h2 : ∀ c ∈ F₂, b.1 < c.1 := fun c hc => hgt c.1 (mem_map_of_mem hc)
    have hph := ht.nodes_hdr p hpn
    have hbh := ht.hdr (.inr hb)
    have hpb := ht.apart_node hb p hpn
    refine wp_seq (Prog.wp_mono (joinNext_wp hph hbh hpb (h.adjacent hn)) ?_)
    rintro - s1 ⟨hs1, he1⟩
    obtain ⟨b', F2', hb', hle, hlen, hmid, hcov⟩ := h.joinNext hn h1 h2 hs1 he1
    have hsmall : s1.size p + s1.size b.1 < 2 ^ 32 := by
      obtain ⟨-, hend, hbase⟩ := hmid.prev
      have hbounds := hmid.bounds
      refine lt_of_window hbase ?_
      rw [← hb', hmid.size, Nat.add_mul]
      omega
    refine wp_seq (Prog.wp_mono (joinPrev_wp hph hbh hpb.symm hsmall) ?_)
    rintro - s2 ⟨hs2, he2⟩
    rw [← hb'] at he2
    obtain ⟨F', hput⟩ := hmid.joinPrev hs2 he2
    refine wp_setFreep ⟨F', ⟨?_, hput.cycle, hput.free, fun c hc => ?_, hput.base, hput.node⟩, ?_,
      ?_,
      ?_⟩
    · rw [hs2.regions, hs1.regions]
      refine ht.give hput.gapped fun x => ?_
      rw [hput.cover, hcov]
    · show s2.size c.1 = c.2
      have hcB := mem_cons_of_mem b hc
      rw [hs2.size _ (ht.apart_node hcB p hpn).symm, hs1.size _ (ht.apart_live hc), h.live c hcB]
    · rw [hs2.regions, hs1.regions]
    · have := hput.length
      simp only [length_append] at *
      omega
    · obtain ⟨c, hc, hbc⟩ := hput.large
      exact ⟨c, hc, Nat.le_trans hle hbc⟩

end Free

end Xv6.Malloc
