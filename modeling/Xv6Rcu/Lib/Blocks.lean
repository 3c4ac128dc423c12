import Mathlib.Data.List.Pairwise

/-!
# Blocks of memory

A block is a pair of an address and a number of units of `w` bytes.

- `Gapped`: a list of blocks in the order of their addresses, with a gap between any two. It is the
  only such list for the bytes that it covers, so it is fully coalesced.
- `Gapped.insert`, `Gapped.remove`: a block in the place of its address.
- `in_join`: two adjacent blocks are one; `in_split`: the parts of a block.
-/

namespace Lib

open List

variable {w : Nat}

/-- The byte `x` is in the block. -/
def InBlk (w : Nat) (b : Nat × Nat) (x : Nat) : Prop := b.1 ≤ x ∧ x < b.1 + b.2 * w

/-- The byte `x` is in one of the blocks. -/
def Covers (w : Nat) (l : List (Nat × Nat)) (x : Nat) : Prop := ∃ b ∈ l, InBlk w b x

structure Gapped (w : Nat) (l : List (Nat × Nat)) : Prop where
  pos : ∀ b ∈ l, 0 < b.2
  gap : l.Pairwise fun b c => b.1 + b.2 * w < c.1

variable {b c : Nat × Nat} {l l1 l2 : List (Nat × Nat)} {x : Nat}

theorem covers_append : Covers w (l1 ++ l2) x ↔ Covers w l1 x ∨ Covers w l2 x := by
  simp [Covers, or_and_right, exists_or]

theorem covers_cons : Covers w (b :: l) x ↔ InBlk w b x ∨ Covers w l x := by
  simp [Covers]

theorem covers_nil : ¬ Covers w [] x := by
  rintro ⟨b, hb, -⟩
  cases hb

theorem inBlk_self (hw : 0 < w) (hb : 0 < b.2) : InBlk w b b.1 :=
  ⟨Nat.le_refl _, Nat.lt_add_of_pos_right (Nat.mul_pos hb hw)⟩

/-- Of two disjoint blocks the one with the lower address ends before the other begins. -/
theorem end_le_of_disjoint (hw : 0 < w) (hc : 0 < c.2) (hd : ∀ x, InBlk w b x → ¬ InBlk w c x)
    (hle : b.1 ≤ c.1) : b.1 + b.2 * w ≤ c.1 := by
  by_contra hlt
  exact hd c.1 ⟨hle, by omega⟩ (inBlk_self hw hc)

/-- The bytes of a block are above `lo` and below `hi` if its first and last one are. -/
theorem block_bounds (hw : 0 < w) (hb : 0 < b.2) {lo hi : Nat}
    (h : ∀ x, InBlk w b x → lo ≤ x ∧ x < hi) : lo ≤ b.1 ∧ b.1 + b.2 * w ≤ hi := by
  have hpos : 0 < b.2 * w := Nat.mul_pos hb hw
  have hlast := h (b.1 + b.2 * w - 1) ⟨by omega, by omega⟩
  exact ⟨(h b.1 (inBlk_self hw hb)).1, by omega⟩

theorem in_join (h : b.1 + b.2 * w = c.1) :
    InBlk w (b.1, b.2 + c.2) x ↔ InBlk w b x ∨ InBlk w c x := by
  have hmul : (b.2 + c.2) * w = b.2 * w + c.2 * w := Nat.add_mul ..
  simp only [InBlk]
  omega

/-- The tail end of a block. -/
theorem in_split {a n k : Nat} (hk : k ≤ n) :
    InBlk w (a, n) x ↔ InBlk w (a, n - k) x ∨ InBlk w (a + (n - k) * w, k) x := by
  have h := in_join (x := x) (b := (a, n - k)) (c := (a + (n - k) * w, k)) rfl
  rwa [show (a, n - k).2 + (a + (n - k) * w, k).2 = n from Nat.sub_add_cancel hk] at h

namespace Gapped

/-- A block in the place of its address, with gaps on both sides. -/
theorem insert (h : Gapped w (l1 ++ l2)) (hb : 0 < b.2) (h1 : ∀ c ∈ l1, c.1 + c.2 * w < b.1)
    (h2 : ∀ c ∈ l2, b.1 + b.2 * w < c.1) : Gapped w (l1 ++ b :: l2) := by
  obtain ⟨hl1, hl2, h12⟩ := pairwise_append.mp h.gap
  refine ⟨fun c hc => ?_, pairwise_append.mpr ⟨hl1, pairwise_cons.mpr ⟨h2, hl2⟩, ?_⟩⟩
  · rcases mem_append.mp hc with hc | hc
    · exact h.pos c (mem_append_left _ hc)
    · rcases mem_cons.mp hc with rfl | hc
      · exact hb
      · exact h.pos c (mem_append_right _ hc)
  · intro c hc d hd
    rcases mem_cons.mp hd with rfl | hd
    · exact h1 c hc
    · exact h12 c hc d hd

section
variable (h : Gapped w (l1 ++ b :: l2))
include h

theorem remove : Gapped w (l1 ++ l2) := by
  have hs : (l1 ++ l2).Sublist (l1 ++ b :: l2) :=
    Sublist.append_left (sublist_cons_self b l2) l1
  exact ⟨fun c hc => h.pos c (hs.subset hc), h.gap.sublist hs⟩

theorem before : ∀ c ∈ l1, c.1 + c.2 * w < b.1 := fun c hc =>
  (pairwise_append.mp h.gap).2.2 c hc b (mem_cons_self ..)

theorem after : ∀ c ∈ l2, b.1 + b.2 * w < c.1 := fun c hc =>
  (pairwise_cons.mp (pairwise_append.mp h.gap).2.1).1 c hc

/-- The blocks of the list are disjoint. -/
theorem disjoint (hb : InBlk w b x) : ¬ Covers w (l1 ++ l2) x := by
  rintro ⟨c, hc, hcx⟩
  rcases mem_append.mp hc with hc | hc
  · have := h.before c hc
    have := hcx.2
    have := hb.1
    omega
  · have := h.after c hc
    have := hcx.1
    have := hb.2
    omega

end

/-- The addresses of the list increase. -/
theorem increasing (h : Gapped w l) : (l.map Prod.fst).Pairwise (· < ·) := by
  refine pairwise_map.mpr (h.gap.imp fun hlt => ?_)
  omega

/-- No two blocks are adjacent. -/
theorem not_adjacent (h : Gapped w l) (hw : 0 < w) (hb : b ∈ l) (hc : c ∈ l) :
    b.1 + b.2 * w ≠ c.1 := by
  intro he
  have hpos : 0 < b.2 * w := Nat.mul_pos (h.pos b hb) hw
  have hne : b ≠ c := by
    rintro rfl
    omega
  have : Std.Symm fun b c : Nat × Nat => b.1 + b.2 * w < c.1 ∨ c.1 + c.2 * w < b.1 :=
    ⟨fun _ _ h => h.symm⟩
  have hgap : l.Pairwise fun b c => b.1 + b.2 * w < c.1 ∨ c.1 + c.2 * w < b.1 := h.gap.imp .inl
  have := hgap.forall hb hc hne
  omega

end Gapped

end Lib
