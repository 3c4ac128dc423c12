import Mathlib.Data.BitVec

/-!
# Copies of overlapping memory

`memmove` of the kernel's `string.c` and of the user library's `ulib.c`. The two choose the
direction of the copy by different tests.

- `copyUp`, `copyDown`: the two loops. Each is right if it reads a byte before it overwrites it.
- `moved`: what both functions do.
-/

namespace Xv6.Str

open Function
open BitVec (add_zero le_def le_of_lt not_lt ofNat ofNat_add ofNat_toNat setWidth_eq toNat)

abbrev Mem := BitVec 64 → BitVec 8

/-- `while(n-- > 0) *d++ = *s++`. -/
def copyUp (m : Mem) (d s : BitVec 64) : Nat → Mem
  | 0 => m
  | n + 1 => copyUp (update m d (m s)) (d + 1) (s + 1) n

/-- `while(n-- > 0) *--d = *--s`. -/
def copyDown (m : Mem) (d s : BitVec 64) : Nat → Mem
  | 0 => m
  | n + 1 => copyDown (update m (d - 1) (m (s - 1))) (d - 1) (s - 1) n

/-- `memmove` of `string.c`. -/
def memmove (m : Mem) (dst src : BitVec 64) (n : BitVec 32) : Mem :=
  if src < dst ∧ src + n.setWidth 64 > dst then
    copyDown m (dst + n.setWidth 64) (src + n.setWidth 64) n.toNat
  else copyUp m dst src n.toNat

/-- `memmove` of `ulib.c`, where `n` is an `int`. -/
def Ulib.memmove (m : Mem) (dst src : BitVec 64) (n : BitVec 32) : Mem :=
  if src > dst then copyUp m dst src n.toInt.toNat
  else copyDown m (dst + n.signExtend 64) (src + n.signExtend 64) n.toInt.toNat

/-- The memory where the `k` bytes at `dst` are those that were at `src`. -/
def moved (m : Mem) (dst src : BitVec 64) (k : Nat) : Mem :=
  fun a => if (a - dst).toNat < k then m (src + (a - dst)) else m a

/-! ## The loops -/

variable {m : Mem} {d s dst src : BitVec 64} {k : Nat} {n : BitVec 32}

/-- No byte is read after a lower one is written. -/
theorem copyUp_eq (hk : k ≤ 2 ^ 64)
    (h : ∀ i j, i < j → j < k → s + ofNat 64 j ≠ d + ofNat 64 i) :
    copyUp m d s k = moved m d s k := by
  induction k generalizing m d s with
  | zero => rfl
  | succ k ih =>
    have hrest : ∀ i j, i < j → j < k →
        s + 1 + ofNat 64 j ≠ d + 1 + ofNat 64 i := by
      intro i j hij hj he
      refine h (i + 1) (j + 1) (Nat.succ_lt_succ hij) (Nat.succ_lt_succ hj) ?_
      rw [ofNat_add, ofNat_add]
      bv_omega
    rw [copyUp, ih (by omega) hrest]
    funext a
    by_cases ha : a = d
    · subst ha
      have hself : (a - (a + 1)).toNat = 2 ^ 64 - 1 := by bv_omega
      simp only [moved, BitVec.sub_self]
      rw [if_neg (by omega), update_self, if_pos (show (0#64).toNat < k + 1 from k.succ_pos),
        add_zero]
    · have hpred : (a - d).toNat = (a - (d + 1)).toNat + 1 := by bv_omega
      have haddr : s + 1 + (a - (d + 1)) = s + (a - d) := by bv_omega
      simp only [moved, hpred, haddr, Nat.add_lt_add_iff_right]
      rw [update_of_ne ha]
      split
      · next hlt =>
        refine update_of_ne (fun he => h 0 (a - d).toNat (by omega) (by omega) ?_) ..
        rw [ofNat_toNat, setWidth_eq, he, add_zero]
      · rfl

/-- No byte is read after a higher one is written. -/
theorem copyDown_eq (hk : k ≤ 2 ^ 64)
    (h : ∀ i j, i < j → j < k → s + ofNat 64 i ≠ d + ofNat 64 j) :
    copyDown m (d + ofNat 64 k) (s + ofNat 64 k) k = moved m d s k := by
  induction k generalizing m with
  | zero => rfl
  | succ k ih =>
    have hpred : ∀ x : BitVec 64, x + ofNat 64 (k + 1) - 1 = x + ofNat 64 k := by
      bv_omega
    rw [copyDown, hpred, hpred, ih (by omega) fun i j hij hj => h i j hij (by omega)]
    funext a
    by_cases ha : a = d + ofNat 64 k
    · have hself : (a - d).toNat = k := by
        rw [ha, add_sub_cancel_left, BitVec.toNat_ofNat, Nat.mod_eq_of_lt (by omega)]
      simp only [moved, hself, lt_irrefl, if_false, if_pos k.lt_succ_self]
      rw [ha, update_self, add_sub_cancel_left]
    · have hne : (a - d).toNat ≠ k := by
        intro he
        refine ha ?_
        rw [← he, ofNat_toNat, setWidth_eq, add_sub_cancel]
      simp only [moved, update_of_ne ha, Nat.lt_succ_iff_lt_or_eq, hne, or_false]
      split
      · next hlt =>
        refine update_of_ne (fun he => h (a - d).toNat k hlt k.lt_succ_self ?_) ..
        rw [ofNat_toNat, setWidth_eq, he]
      · rfl

/-! ## The functions -/

theorem add_ofNat_toNat {p : BitVec 64} {i : Nat} (h : p.toNat + k ≤ 2 ^ 64) (hi : i < k) :
    (p + ofNat 64 i).toNat = p.toNat + i := by
  rw [BitVec.toNat_add, BitVec.toNat_ofNat]
  omega

/-- The copy upwards, when the bytes are not moved up onto each other. -/
theorem copyUp_moves (hd : dst.toNat + k ≤ 2 ^ 64) (hs : src.toNat + k ≤ 2 ^ 64)
    (h : dst.toNat ≤ src.toNat ∨ src.toNat + k ≤ dst.toNat) :
    copyUp m dst src k = moved m dst src k := by
  refine copyUp_eq (by omega) fun i j hij hj he => ?_
  have := congrArg toNat he
  rw [add_ofNat_toNat hs hj, add_ofNat_toNat hd (hij.trans hj)] at this
  omega

theorem copyDown_moves (hd : dst.toNat + k ≤ 2 ^ 64) (hs : src.toNat + k ≤ 2 ^ 64)
    (h : src.toNat ≤ dst.toNat) :
    copyDown m (dst + ofNat 64 k) (src + ofNat 64 k) k = moved m dst src k := by
  refine copyDown_eq (by omega) fun i j hij hj he => ?_
  have := congrArg toNat he
  rw [add_ofNat_toNat hs (hij.trans hj), add_ofNat_toNat hd hj] at this
  omega

theorem memmove_eq (hd : dst.toNat + n.toNat ≤ 2 ^ 64) (hs : src.toNat + n.toNat ≤ 2 ^ 64) :
    memmove m dst src n = moved m dst src n.toNat := by
  have hn : n.setWidth 64 = ofNat 64 n.toNat := by bv_omega
  unfold memmove
  split
  · next h =>
    rw [hn]
    exact copyDown_moves hd hs (le_def.mp (le_of_lt h.1))
  · next h =>
    refine copyUp_moves hd hs ?_
    by_cases hlt : src < dst
    · -- the source ends below `dst`, so its end does not wrap
      bv_omega
    · exact .inl (le_def.mp (not_lt.mp hlt))

theorem msb_of_nonneg (hn : 0 ≤ n.toInt) : n.msb = false := by
  rw [BitVec.msb_eq_toInt, decide_eq_false_iff_not]
  omega

theorem toNat_toInt (hn : 0 ≤ n.toInt) : n.toInt.toNat = n.toNat := by
  rw [BitVec.toInt_eq_toNat_of_msb (msb_of_nonneg hn), Int.toNat_natCast]

theorem Ulib.memmove_eq (hd : dst.toNat + n.toInt.toNat ≤ 2 ^ 64)
    (hs : src.toNat + n.toInt.toNat ≤ 2 ^ 64) :
    Ulib.memmove m dst src n = moved m dst src n.toInt.toNat := by
  unfold memmove
  split
  · next h => exact copyUp_moves hd hs (.inl (le_def.mp (le_of_lt h)))
  · next h =>
    have hle : src.toNat ≤ dst.toNat := le_def.mp (not_lt.mp h)
    by_cases hn : 0 ≤ n.toInt
    · have hext : n.signExtend 64 = ofNat 64 n.toInt.toNat := by
        rw [BitVec.signExtend_eq_setWidth_of_msb_false (msb_of_nonneg hn), toNat_toInt hn]
        bv_omega
      rw [hext]
      exact copyDown_moves hd hs hle
    · rw [Int.toNat_of_nonpos (by omega)]
      rfl

/-- Both functions move the bytes whatever the overlap, and so they agree. -/
theorem memmove_exact (m : Mem) (dst src : BitVec 64) (n : BitVec 32) :
    (dst.toNat + n.toNat ≤ 2 ^ 64 → src.toNat + n.toNat ≤ 2 ^ 64 →
      memmove m dst src n = moved m dst src n.toNat) ∧
    (dst.toNat + n.toInt.toNat ≤ 2 ^ 64 → src.toNat + n.toInt.toNat ≤ 2 ^ 64 →
      Ulib.memmove m dst src n = moved m dst src n.toInt.toNat) ∧
    (0 ≤ n.toInt → dst.toNat + n.toNat ≤ 2 ^ 64 → src.toNat + n.toNat ≤ 2 ^ 64 →
      Ulib.memmove m dst src n = memmove m dst src n) := by
  refine ⟨memmove_eq, Ulib.memmove_eq, fun hn hd hs => ?_⟩
  rw [memmove_eq hd hs, ← toNat_toInt hn]
  rw [← toNat_toInt hn] at hd hs
  exact Ulib.memmove_eq hd hs

/-- Three bytes move up by one, and with the user's function down by one. -/
theorem memmove_exact_overlap :
    memmove (fun a => a.setWidth 8) 11 10 3 = moved (fun a => a.setWidth 8) 11 10 3 ∧
      moved (fun a => a.setWidth 8) 11 10 3 12 = 11 ∧
      Ulib.memmove (fun a => a.setWidth 8) 10 11 3 = moved (fun a => a.setWidth 8) 10 11 3 ∧
      moved (fun a => a.setWidth 8) 10 11 3 12 = 13 ∧
      Ulib.memmove (fun a => a.setWidth 8) 11 10 3 = memmove (fun a => a.setWidth 8) 11 10 3 :=
  ⟨(memmove_exact _ 11 10 3).1 (by decide) (by decide), by decide,
    (memmove_exact _ 10 11 3).2.1 (by decide) (by decide), by decide,
    (memmove_exact _ 11 10 3).2.2 (by decide) (by decide) (by decide)⟩

end Xv6.Str
