import Mathlib.Data.BitVec
import Mathlib.Data.List.GetD

/-!
# The bytes of a memory of words

A memory is a function from addresses to 64-bit words, of which those at the multiples of 8 count.

* `byte mem a`: the byte at any address, little-endian. `word f`: the memory with the bytes `f`. The
  two are inverse (`byte_word`, `word_byte`).
* `store mem p bs`: the bytes `bs` are written from `p` on (`byte_store`). The words that they do
  not meet keep their values (`store_word`).
* `load mem p n`: `n` bytes from `p` on.
-/

namespace Lib.Bytes

open BitVec (eq_of_toNat_eq ofNat toNat_add toNat_ofNat)

abbrev Memory := BitVec 64 → BitVec 64

/-- The address of the word that has the byte. -/
def align (a : BitVec 64) : BitVec 64 := ofNat 64 (a.toNat / 8 * 8)

def byte (mem : Memory) (a : BitVec 64) : BitVec 8 :=
  ofNat 8 ((mem (align a)).toNat / 256 ^ (a.toNat % 8))

/-- The word of eight bytes, the lowest one first. -/
def join (x : Nat → BitVec 8) : Nat → Nat
  | 0 => 0
  | n + 1 => (x 0).toNat + 256 * join (fun i => x (i + 1)) n

def word (f : BitVec 64 → BitVec 8) : Memory :=
  fun a => ofNat 64 (join (fun i => f (a + ofNat 64 i)) 8)

variable {mem : Memory} {f g : BitVec 64 → BitVec 8} {a p : BitVec 64} {bs : List (BitVec 8)}
  {i n : Nat}

theorem align_toNat (a : BitVec 64) : (align a).toNat = a.toNat / 8 * 8 := by
  rw [align, toNat_ofNat]
  omega

theorem align_add (a : BitVec 64) : align a + ofNat 64 (a.toNat % 8) = a := by
  refine eq_of_toNat_eq ?_
  rw [toNat_add, align_toNat, toNat_ofNat]
  omega

theorem add_toNat (ha : a.toNat % 8 = 0) (hi : i < 8) :
    (a + ofNat 64 i).toNat = a.toNat + i := by
  rw [toNat_add, toNat_ofNat]
  omega

theorem align_of_aligned (ha : a.toNat % 8 = 0) (hi : i < 8) :
    align (a + ofNat 64 i) = a := by
  refine eq_of_toNat_eq ?_
  rw [align_toNat, add_toNat ha hi]
  omega

theorem join_lt (x : Nat → BitVec 8) (n : Nat) : join x n < 256 ^ n := by
  induction n generalizing x with
  | zero => exact one_pos
  | succ n ih =>
    have := ih fun i => x (i + 1)
    rw [join]
    omega

theorem join_div (x : Nat → BitVec 8) (hi : i < n) :
    join x n / 256 ^ i % 256 = (x i).toNat := by
  induction n generalizing x i with
  | zero => omega
  | succ n ih =>
    rw [join]
    cases i with
    | zero =>
      omega
    | succ i =>
      rw [pow_succ', ← Nat.div_div_eq_div_mul,
        show ((x 0).toNat + 256 * join (fun i => x (i + 1)) n) / 256 =
          join (fun i => x (i + 1)) n by omega]
      exact ih (fun i => x (i + 1)) (Nat.lt_of_succ_lt_succ hi)

/-- A number is the join of its bytes. -/
theorem join_bytes (m n : Nat) :
    join (fun i => ofNat 8 (m / 256 ^ i)) n = m % 256 ^ n := by
  induction n generalizing m with
  | zero => rw [join, pow_zero, Nat.mod_one]
  | succ n ih =>
    have hdiv : (fun i => ofNat 8 (m / 256 ^ (i + 1))) =
        fun i => ofNat 8 (m / 256 / 256 ^ i) := by
      funext i
      rw [pow_succ', Nat.div_div_eq_div_mul]
    have hpow : 256 ^ (n + 1) = 256 * 256 ^ n := Nat.pow_succ'
    rw [join, hdiv, ih, pow_zero, Nat.div_one, toNat_ofNat, hpow, Nat.mod_mul]

theorem byte_word (f : BitVec 64 → BitVec 8) (a : BitVec 64) : byte (word f) a = f a := by
  have hlt : join (fun i => f (align a + ofNat 64 i)) 8 < 2 ^ 64 := join_lt _ 8
  refine eq_of_toNat_eq ?_
  rw [byte, word, toNat_ofNat, toNat_ofNat, Nat.mod_eq_of_lt hlt]
  refine (join_div _ (Nat.mod_lt _ (by decide))).trans ?_
  rw [align_add]

theorem join_congr {x y : Nat → BitVec 8} (h : ∀ i < n, x i = y i) : join x n = join y n := by
  induction n generalizing x y with
  | zero => rfl
  | succ n ih =>
    rw [join, join, h 0 (Nat.zero_lt_succ n), ih fun i hi => h (i + 1) (Nat.succ_lt_succ hi)]

theorem word_congr (h : ∀ i < 8, f (a + ofNat 64 i) = g (a + ofNat 64 i)) :
    word f a = word g a :=
  congrArg (ofNat 64) (join_congr h)

theorem word_byte (ha : a.toNat % 8 = 0) : word (byte mem) a = mem a := by
  have hbytes : ∀ i < 8, byte mem (a + ofNat 64 i) =
      ofNat 8 ((mem a).toNat / 256 ^ i) := fun i hi => by
    rw [byte, align_of_aligned ha hi, add_toNat ha hi, show (a.toNat + i) % 8 = i by omega]
  refine eq_of_toNat_eq ?_
  rw [word, join_congr hbytes, join_bytes]
  exact Nat.mod_eq_of_lt ((Nat.mod_le _ _).trans_lt (mem a).isLt) |>.trans
    (Nat.mod_eq_of_lt (mem a).isLt)

/-! ## Stores and loads -/

def store (mem : Memory) (p : BitVec 64) (bs : List (BitVec 8)) : Memory :=
  word fun a => bs.getD (a - p).toNat (byte mem a)

def load (mem : Memory) (p : BitVec 64) (n : Nat) : List (BitVec 8) :=
  (List.range n).map fun i => byte mem (p + ofNat 64 i)

theorem byte_store (mem : Memory) (p : BitVec 64) (bs : List (BitVec 8)) (a : BitVec 64) :
    byte (store mem p bs) a = bs.getD (a - p).toNat (byte mem a) := byte_word _ a

theorem byte_store_add (hi : i < bs.length) (hlt : i < 2 ^ 64) :
    byte (store mem p bs) (p + ofNat 64 i) = bs[i] := by
  rw [byte_store, add_sub_cancel_left, toNat_ofNat, Nat.mod_eq_of_lt hlt,
    List.getD_eq_getElem _ _ hi]

/-- A byte that is not written. -/
theorem getD_of_ne (h : ∀ k < bs.length, a ≠ p + ofNat 64 k) :
    bs.getD (a - p).toNat (byte mem a) = byte mem a := by
  refine List.getD_eq_default _ _ (not_lt.mp fun hlt => h _ hlt ?_)
  rw [BitVec.ofNat_toNat, BitVec.setWidth_eq, add_sub_cancel]

theorem byte_store_of_ne (h : ∀ k < bs.length, a ≠ p + ofNat 64 k) :
    byte (store mem p bs) a = byte mem a :=
  (byte_store mem p bs a).trans (getD_of_ne h)

/-- A word that the bytes do not meet. -/
theorem store_word (ha : a.toNat % 8 = 0)
    (h : ∀ i < 8, ∀ k < bs.length, a + ofNat 64 i ≠ p + ofNat 64 k) :
    store mem p bs a = mem a :=
  (word_congr fun i hi => getD_of_ne (h i hi)).trans (word_byte ha)

end Lib.Bytes
