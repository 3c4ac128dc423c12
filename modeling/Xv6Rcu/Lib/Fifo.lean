import Mathlib.Algebra.GroupWithZero.Nat
import Mathlib.Data.Fin.Basic

/-!
# Ring buffers

A buffer of `N` cells holds a window of a sequence: the element number `k` is in the cell `k % N`.

* `Buffered buf xs m`: the elements of `xs` from number `m` on are in the buffer.
* `Buffered.push`, `Buffered.get`, `Buffered.drop`, `Buffered.take`: how the window moves.
* `counter_mod`: a counter of `w` bits that wraps selects the same cell, if `N` divides `2 ^ w`.
  `counter_sub`: the difference of two counters.
-/

namespace Lib

open Function BitVec

variable {N : Nat} [NeZero N] {α : Type}

/-- The cell of the element number `k`. -/
def cell (N : Nat) [NeZero N] (k : Nat) : Fin N := Fin.ofNat N k

def Buffered (buf : Fin N → α) (xs : List α) (m : Nat) : Prop :=
  ∀ k x, m ≤ k → xs[k]? = some x → buf (cell N k) = x

theorem cell_ne {j k : Nat} (hjk : j < k) (hk : k < j + N) : cell N j ≠ cell N k := by
  intro h
  have hmod : j % N = k % N := congrArg Fin.val h
  have hdvd : N ∣ k - j := Nat.dvd_of_mod_eq_zero (Nat.sub_mod_eq_zero_of_mod_eq hmod.symm)
  have := Nat.le_of_dvd (by omega) hdvd
  omega

namespace Buffered

variable {buf : Fin N → α} {xs : List α} {m : Nat}

theorem nil : Buffered buf [] m := fun _ _ _ h => by cases h

section
variable (h : Buffered buf xs m)
include h

/-- There is room for one more element. -/
theorem push (hroom : xs.length < m + N) (x : α) :
    Buffered (update buf (cell N xs.length) x) (xs ++ [x]) m := by
  intro k y hk hy
  by_cases hlt : k < xs.length
  · rw [List.getElem?_append_left hlt] at hy
    rw [update_of_ne (cell_ne hlt (by omega))]
    exact h k y hk hy
  · rw [List.getElem?_append_right (Nat.le_of_not_lt hlt), List.getElem?_singleton] at hy
    split at hy
    · next h0 =>
      have he : k = xs.length := by omega
      cases hy
      rw [he, update_self]
    · cases hy

/-- The oldest element leaves. -/
theorem drop : Buffered buf xs (m + 1) :=
  fun k x hk hx => h k x (Nat.le_of_succ_le hk) hx

/-- The newest elements leave. -/
theorem take (n : Nat) : Buffered buf (xs.take n) m := by
  intro k x hk hx
  rw [List.getElem?_take] at hx
  split at hx
  · exact h k x hk hx
  · cases hx

theorem get (hm : m < xs.length) : buf (cell N m) = xs[m] :=
  h m _ le_rfl (List.getElem?_eq_getElem hm)

end

end Buffered

/-! ## Counters -/

theorem counter_mod {w : Nat} (hN : N ∣ 2 ^ w) (k : Nat) :
    cell N (BitVec.ofNat w k).toNat = cell N k := by
  apply Fin.ext
  show (BitVec.ofNat w k).toNat % N = k % N
  rw [toNat_ofNat, Nat.mod_mod_of_dvd _ hN]

theorem counter_sub {w j k : Nat} (hjk : j ≤ k) (hk : k - j < 2 ^ w) :
    (BitVec.ofNat w k - BitVec.ofNat w j).toNat = k - j := by
  have he : BitVec.ofNat w k = BitVec.ofNat w (k - j) + BitVec.ofNat w j := by
    rw [← ofNat_add, Nat.sub_add_cancel hjk]
  rw [he, add_sub_cancel, toNat_ofNat, Nat.mod_eq_of_lt hk]

theorem counter_succ {w k : Nat} : BitVec.ofNat w k + 1 = BitVec.ofNat w (k + 1) :=
  (ofNat_add k 1).symm

theorem counter_eq_iff {w j k : Nat} (hjk : j ≤ k) (hk : k - j < 2 ^ w) :
    BitVec.ofNat w k = BitVec.ofNat w j ↔ k = j := by
  constructor
  · intro h
    have h0 := counter_sub hjk hk
    rw [h, BitVec.sub_self] at h0
    have : k - j = 0 := h0.symm
    omega
  · rintro rfl
    rfl

end Lib
