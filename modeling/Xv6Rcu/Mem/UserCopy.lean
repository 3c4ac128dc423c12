import Xv6Rcu.Lib.Bytes
import Xv6Rcu.Mem.Owns

/-!
# Copies to and from user memory

`walkaddr`, `copyout`, `copyin` and `copyinstr` of `vm.c`, and `fetchstr` of `syscall.c`. A buffer
of the kernel is the list of its bytes: `copyout` has the source, `copyin` and `copyinstr` return
what they have written to the destination.

- `UserByte s root n`: the page of the address `n` is a user page below `MAXVA`; `ubyte s root n` is
  the byte there. Addresses are numbers, so a range that leaves the 64 bits has none.
- `UserTable`: the user pages are mapped to distinct pages, none of which is a page-table page.
- `Upto`: how far a copy gets. `Touched`: the range of the user memory that has changed. `Wrote`:
  the bytes that are there now.
- `copyout_spec`, `copyin_spec`, `copyinstr_spec`: one lemma for each function.
- `Owns.userTable`: the address space of a process is a `UserTable`.
- `user_copies`, `copyinstr_exact`: the copies as reads and writes of an array of bytes.
-/

namespace Xv6.Vm

open Lib Trie Bytes
open BitVec (eq_of_toNat_eq ofNat ofNat_add toNat toNat_add toNat_ofNat)
open List hiding lookup

/-! ## The functions -/

def walkaddr (pagetable va : BitVec 64) (s : St) : Except String (BitVec 64) := do
  if MAXVA ≤ va then return 0
  let (pte, s) ← walk pagetable va false s
  if pte = 0 then return 0
  if s.mem pte &&& PTE_V = 0 then return 0
  if s.mem pte &&& PTE_U = 0 then return 0
  return PTE2PA (s.mem pte)

/-- The bytes of one round: `n = PGSIZE - (va - va0); if(n > len) n = len;`. -/
def chunk (va : BitVec 64) (len : Nat) : Nat := min (PGSIZE - (va - PGROUNDDOWN va).toNat) len

theorem offset_toNat (va : BitVec 64) : (va - PGROUNDDOWN va).toNat = va.toNat % 4096 := by
  rw [BitVec.toNat_sub, PGROUNDDOWN_toNat]
  omega

theorem chunk_eq (va : BitVec 64) (len : Nat) :
    chunk va len = min (4096 - va.toNat % 4096) len := by
  rw [chunk, offset_toNat, PGSIZE]

theorem chunk_pos (va : BitVec 64) {len : Nat} (h : ¬ len = 0) : 0 < chunk va len := by
  rw [chunk_eq]
  omega

def copyout (pagetable dstva : BitVec 64) (src : List (BitVec 8)) (s : St) :
    Except String (Int × St) :=
  if src.length = 0 then .ok (0, s)
  else
    match walkaddr pagetable (PGROUNDDOWN dstva) s with
    | .error msg => .error msg
    | .ok pa0 =>
      if pa0 = 0 then .ok (-1, s)
      else
        let n := chunk dstva src.length
        copyout pagetable (PGROUNDDOWN dstva + ofNat 64 PGSIZE) (src.drop n)
          { s with mem := store s.mem (pa0 + (dstva - PGROUNDDOWN dstva)) (src.take n) }
termination_by src.length
decreasing_by
  have := chunk_pos dstva ‹¬ src.length = 0›
  rw [List.length_drop]
  omega

def copyin (pagetable srcva : BitVec 64) (len : Nat) (s : St) :
    Except String (Int × List (BitVec 8)) :=
  if len = 0 then .ok (0, [])
  else
    match walkaddr pagetable (PGROUNDDOWN srcva) s with
    | .error msg => .error msg
    | .ok pa0 =>
      if pa0 = 0 then .ok (-1, [])
      else
        let n := chunk srcva len
        match copyin pagetable (PGROUNDDOWN srcva + ofNat 64 PGSIZE) (len - n) s with
        | .error msg => .error msg
        | .ok (r, dst) => .ok (r, load s.mem (pa0 + (srcva - PGROUNDDOWN srcva)) n ++ dst)
termination_by len
decreasing_by
  have := chunk_pos srcva ‹¬ len = 0›
  omega

/-- The inner loop of `copyinstr`: what it writes from `p` on, and whether it has met the NUL. -/
def copyChars (mem : Memory) : Nat → BitVec 64 → List (BitVec 8) × Bool
  | 0, _ => ([], false)
  | n + 1, p =>
    if byte mem p = 0 then ([0], true)
    else
      let (dst, gotNull) := copyChars mem n (p + 1)
      (byte mem p :: dst, gotNull)

def copyinstr (pagetable srcva : BitVec 64) (max : Nat) (s : St) :
    Except String (Int × List (BitVec 8)) :=
  if max = 0 then .ok (-1, [])
  else
    match walkaddr pagetable (PGROUNDDOWN srcva) s with
    | .error msg => .error msg
    | .ok pa0 =>
      if pa0 = 0 then .ok (-1, [])
      else
        let n := chunk srcva max
        let (dst, gotNull) := copyChars s.mem n (pa0 + (srcva - PGROUNDDOWN srcva))
        if gotNull then .ok (0, dst)
        else
          match copyinstr pagetable (PGROUNDDOWN srcva + ofNat 64 PGSIZE) (max - n) s with
          | .error msg => .error msg
          | .ok (r, rest) => .ok (r, dst ++ rest)
termination_by max
decreasing_by
  have := chunk_pos srcva ‹¬ max = 0›
  omega

/-- The result is an `int`. -/
def strlen (buf : List (BitVec 8)) : Int :=
  (ofNat 32 (buf.takeWhile (· ≠ 0)).length).toInt

/-- `fetchstr` in the address space `pagetable`, with the buffer that it fills. -/
def fetchstr (pagetable addr : BitVec 64) (max : BitVec 32) (s : St) :
    Except String (Int × List (BitVec 8)) := do
  let (err, buf) ← copyinstr pagetable addr (max.signExtend 64).toNat s
  if err < 0 then return (err, buf)
  return (strlen buf, buf)

/-! ## User memory -/

/-- The page of the address is a user page below `MAXVA`. -/
def UserByte (s : St) (root : BitVec 52) (n : Nat) : Prop :=
  n < 2 ^ 38 ∧ leaf s root (ofNat 64 n) &&& PTE_V ≠ 0 ∧
    leaf s root (ofNat 64 n) &&& PTE_U ≠ 0

instance (s : St) (root : BitVec 52) (n : Nat) : Decidable (UserByte s root n) :=
  inferInstanceAs (Decidable (_ ∧ _ ∧ _))

/-- The physical address. -/
def paddr (s : St) (root : BitVec 52) (n : Nat) : BitVec 64 :=
  PTE2PA (leaf s root (ofNat 64 n)) + ofNat 64 (n % 4096)

def ubyte (s : St) (root : BitVec 52) (n : Nat) : BitVec 8 := byte s.mem (paddr s root n)

/-- Neither a page-table page nor a user page is at the address 0. -/
structure Readable (s : St) (root : BitVec 52) : Prop where
  nonnull : Fresh child (heap s.mem) root 2 0
  nonzero : ∀ n, UserByte s root n → PTE2PA (leaf s root (ofNat 64 n)) ≠ 0

/-- The user pages are distinct, and no page-table pages. -/
structure UserTable (s : St) (root : BitVec 52) : Prop extends Readable s root where
  apart : ∀ n, UserByte s root n →
    Fresh child (heap s.mem) root 2 (ppn (leaf s root (ofNat 64 n)))
  distinct : ∀ m n, UserByte s root m → UserByte s root n →
    ppn (leaf s root (ofNat 64 m)) = ppn (leaf s root (ofNat 64 n)) →
    m / 4096 = n / 4096

variable {s s' s1 : St} {root : BitVec 52} {va : BitVec 64} {v m n k len : Nat} {r : Int}
  {bs bs' : List (BitVec 8)}

theorem leaf_congr (hm : m < 2 ^ 38) (h : m / 4096 = n / 4096) :
    leaf s root (ofNat 64 m) = leaf s root (ofNat 64 n) := by
  have hp : pageNo (ofNat 64 m) = pageNo (ofNat 64 n) := by
    simp only [pageNo, PGSIZE, toNat_ofNat]
    omega
  rw [leaf, leaf, dirs_congr hp, PX_congr hp]

theorem userByte_congr (h : m / 4096 = n / 4096) (hm : UserByte s root m) : UserByte s root n := by
  obtain ⟨hlt, hv⟩ := hm
  rw [leaf_congr hlt h] at hv
  exact ⟨by omega, hv⟩

theorem paddr_toNat : (paddr s root n).toNat =
    (ppn (leaf s root (ofNat 64 n))).toNat * 4096 + n % 4096 := by
  rw [paddr, ← page_ppn, toNat_add, page_toNat, toNat_ofNat]
  omega

/-- The bytes of one page. -/
theorem paddr_add (hm : m < 2 ^ 38) (h : m % 4096 + k < 4096) :
    paddr s root (m + k) = paddr s root m + ofNat 64 k := by
  have hpage : m / 4096 = (m + k) / 4096 := by omega
  rw [paddr, paddr, ← leaf_congr hm hpage, add_assoc, ← ofNat_add,
    show (m + k) % 4096 = m % 4096 + k by omega]

theorem paddr_inj (h : UserTable s root) (hm : UserByte s root m) (hn : UserByte s root n)
    (he : paddr s root m = paddr s root n) : m = n := by
  have hnat := congrArg toNat he
  rw [paddr_toNat, paddr_toNat] at hnat
  have := h.distinct m n hm hn (eq_of_toNat_eq (by omega))
  omega

/-- `pa0 + (va - va0)`. -/
theorem paddr_eq : PTE2PA (leaf s root (ofNat 64 va.toNat)) + (va - PGROUNDDOWN va) =
    paddr s root va.toNat := by
  have hoff : va - PGROUNDDOWN va = ofNat 64 (va.toNat % 4096) := by
    refine eq_of_toNat_eq ?_
    rw [offset_toNat, toNat_ofNat]
    omega
  rw [hoff, paddr]

theorem chunk_le (va : BitVec 64) (len : Nat) :
    va.toNat % 4096 + chunk va len ≤ 4096 ∧ chunk va len ≤ len := by
  rw [chunk_eq]
  omega

/-! ## `walkaddr` -/

theorem walkaddr_eq (h : Fresh child (heap s.mem) root 2 0) :
    walkaddr (page root) va s =
      .ok (if UserByte s root va.toNat then PTE2PA (leaf s root va) else 0) := by
  have hva : ofNat 64 va.toNat = va := by rw [BitVec.ofNat_toNat, BitVec.setWidth_eq]
  have hmax : va < MAXVA ↔ va.toNat < 2 ^ 38 := Iff.rfl
  rw [walkaddr, walk]
  by_cases hlt : MAXVA ≤ va
  · rw [if_pos hlt, if_neg fun hc => BitVec.not_lt.mpr hlt (hmax.mpr hc.1)]
    rfl
  · rw [if_neg hlt, if_neg hlt, walkFrom_find]
    cases hq : node child (heap s.mem) root (dirs va 2) with
    | none =>
      have hleaf : leaf s root va = 0 := by rw [leaf, lookup, hq]; rfl
      rw [if_neg fun hc => hc.2.1 (by rw [hva, hleaf]; rfl)]
      rfl
    | some q =>
      have hq0 : q ≠ 0 := by
        rintro rfl
        exact h _ le_rfl hq
      have hmem : s.mem (slot (page q) (PX 0 va)) = leaf s root va := (leaf_eq hq).symm
      refine (except_bind_of_ok rfl).trans ?_
      simp only [Option.map_some, Option.getD_some, if_neg (slot_ne_zero hq0), hmem, UserByte, hva,
        hmax.mp (BitVec.not_le.mp hlt), true_and]
      by_cases hv : leaf s root va &&& PTE_V = 0
      · rw [if_pos hv, if_neg fun hc => hc.1 hv]
        rfl
      · rw [if_neg hv]
        by_cases hu : leaf s root va &&& PTE_U = 0
        · rw [if_pos hu, if_neg fun hc => hc.2 hu]
          rfl
        · rw [if_neg hu, if_pos ⟨hv, hu⟩]
          rfl

/-- The page of an address, as the copies look it up. -/
theorem walkaddr_page (va : BitVec 64) (h : Readable s root) :
    walkaddr (page root) (PGROUNDDOWN va) s = .ok
      (if UserByte s root va.toNat then PTE2PA (leaf s root (ofNat 64 va.toNat)) else 0) ∧
    (UserByte s root va.toNat → PTE2PA (leaf s root (ofNat 64 va.toNat)) ≠ 0) := by
  have hdown : (PGROUNDDOWN va).toNat / 4096 = va.toNat / 4096 := by
    rw [PGROUNDDOWN_toNat]
    omega
  refine ⟨(walkaddr_eq h.nonnull).trans (congrArg _ ?_), h.nonzero _⟩
  by_cases hu : UserByte s root va.toNat
  · rw [if_pos hu, if_pos (userByte_congr hdown.symm hu),
      leaf_congr hu.1 hdown.symm, BitVec.ofNat_toNat, BitVec.setWidth_eq]
  · rw [if_neg hu, if_neg fun hc => hu (userByte_congr hdown hc)]

/-! ## How far a copy gets -/

/-- A copy of `len` bytes at `v` ended behind `m` bytes, with the result `r`. -/
structure Upto (s : St) (root : BitVec 52) (v len m : Nat) (r : Int) : Prop where
  user : ∀ k < m, UserByte s root (v + k)
  stop : r = 0 ∧ m = len ∨
    r = -1 ∧ m < len ∧ ¬ UserByte s root (v + m) ∧ (m = 0 ∨ (v + m) % 4096 = 0)

theorem Upto.fail (h : ¬ UserByte s root v) (hlen : ¬ len = 0) : Upto s root v len 0 (-1) :=
  ⟨fun k hk => absurd hk (Nat.not_lt_zero k), .inr ⟨rfl, Nat.pos_of_ne_zero hlen, h, .inl rfl⟩⟩

/-- The bytes of a round are in one page. -/
theorem userByte_chunk (h : UserByte s root va.toNat) (hk : k < chunk va len) :
    UserByte s root (va.toNat + k) ∧ va.toNat % 4096 + k < 4096 := by
  rw [chunk_eq] at hk
  exact ⟨userByte_congr (by omega) h, by omega⟩

/-- A round, and the rest. -/
theorem Upto.next (h : UserByte s root va.toNat)
    (hrest : Upto s root (va.toNat + chunk va len) (len - chunk va len) m r) :
    Upto s root va.toNat len (chunk va len + m) r := by
  have hc := chunk_eq va len
  refine ⟨fun k hk => ?_, hrest.stop.imp (fun ⟨h0, hm⟩ => ⟨h0, by omega⟩) ?_⟩
  · rcases lt_or_ge k (chunk va len) with hlt | hge
    · exact (userByte_chunk h hlt).1
    · have := hrest.user (k - chunk va len) (by omega)
      rwa [add_assoc, Nat.add_sub_cancel' hge] at this
  · rintro ⟨h0, hm, hno, hend⟩
    rw [add_assoc] at hno hend
    refine ⟨h0, by omega, hno, .inr ?_⟩
    rcases hend with rfl | hend
    · omega
    · exact hend

/-- The address of the next round, if there is one. -/
theorem next_toNat (h : va.toNat < 2 ^ 38) (hlen : chunk va len < len) :
    (PGROUNDDOWN va + ofNat 64 PGSIZE).toNat = va.toNat + chunk va len := by
  rw [chunk_eq] at *
  rw [toNat_add, PGROUNDDOWN_toNat]
  simp only [PGSIZE, toNat_ofNat]
  omega

/-! ## `copyin` -/

/-- The bytes of the user memory at `v`. -/
def ubytes (s : St) (root : BitVec 52) (v m : Nat) : List (BitVec 8) :=
  (List.range m).map fun k => ubyte s root (v + k)

theorem ubytes_append : ubytes s root v m ++ ubytes s root (v + m) n = ubytes s root v (m + n) := by
  simp only [ubytes, range_add]
  simp [add_assoc]

theorem load_paddr (h : UserByte s root v) (hn : v % 4096 + n ≤ 4096) :
    load s.mem (paddr s root v) n = ubytes s root v n := by
  refine map_congr_left fun k hk => ?_
  have := mem_range.mp hk
  rw [ubyte, paddr_add h.1 (by omega)]

theorem copyin_spec (va : BitVec 64) (len : Nat) (h : Readable s root) : ∃ m r,
    copyin (page root) va len s = .ok (r, ubytes s root va.toNat m) ∧
      Upto s root va.toNat len m r := by
  induction len using Nat.strong_induction_on generalizing va with
  | _ len ih =>
    obtain ⟨hw, hne⟩ := walkaddr_page va h
    rw [copyin]
    by_cases h0 : len = 0
    · rw [if_pos h0]
      exact ⟨0, 0, rfl, fun k hk => absurd hk (Nat.not_lt_zero k), .inl ⟨rfl, h0.symm⟩⟩
    · rw [if_neg h0, hw]
      by_cases hu : UserByte s root va.toNat
      · simp only [if_pos hu, if_neg (hne hu), paddr_eq, load_paddr hu (chunk_le va len).1]
        have hpos := chunk_pos va h0
        by_cases hlast : chunk va len < len
        · obtain ⟨m, r, hr, hupto⟩ := ih (len - chunk va len) (by omega)
            (PGROUNDDOWN va + ofNat 64 PGSIZE)
          rw [next_toNat hu.1 hlast] at hr hupto
          refine ⟨chunk va len + m, r, ?_, hupto.next hu⟩
          simp [hr, ubytes_append]
        · have hall : len - chunk va len = 0 := by omega
          refine ⟨chunk va len, 0, ?_, ?_⟩
          · rw [hall, copyin]
            simp
          · refine ⟨fun k hk => (userByte_chunk hu hk).1, .inl ⟨rfl, ?_⟩⟩
            have := chunk_eq va len
            omega
      · rw [if_neg hu]
        exact ⟨0, -1, rfl, .fail hu h0⟩

/-! ## `copyinstr` -/

/-- A string of `k` bytes, with its NUL, is at `v`. -/
structure StringAt (s : St) (root : BitVec 52) (v k : Nat) : Prop where
  chars : ∀ j < k, UserByte s root (v + j) ∧ ubyte s root (v + j) ≠ 0
  null : UserByte s root (v + k) ∧ ubyte s root (v + k) = 0

theorem StringAt.unique {k' : Nat} (h : StringAt s root v k) (h' : StringAt s root v k') :
    k = k' := by
  rcases lt_trichotomy k k' with hlt | heq | hgt
  · exact absurd h.null.2 (h'.chars k hlt).2
  · exact heq
  · exact absurd h'.null.2 (h.chars k' hgt).2

theorem StringAt.first (h : StringAt s root v k) : UserByte s root v := by
  rcases Nat.eq_zero_or_pos k with rfl | hpos
  · exact h.null.1
  · exact (h.chars 0 hpos).1

/-- A string begins with the bytes of a round, or it ends there. -/
theorem stringAt_add (hn : ∀ j < n, UserByte s root (v + j) ∧ ubyte s root (v + j) ≠ 0) :
    StringAt s root v (n + k) ↔ StringAt s root (v + n) k := by
  constructor
  · intro h
    refine ⟨fun j hj => ?_, ?_⟩
    · rw [add_assoc]
      exact h.chars (n + j) (by omega)
    · rw [add_assoc]
      exact h.null
  · intro h
    refine ⟨fun j hj => ?_, ?_⟩
    · rcases lt_or_ge j n with hlt | hge
      · exact hn j hlt
      · have := h.chars (j - n) (by omega)
        rwa [add_assoc, Nat.add_sub_cancel' hge] at this
    · rw [← add_assoc]
      exact h.null

theorem load_succ (mem : Memory) (p : BitVec 64) (n : Nat) :
    load mem p (n + 1) = byte mem p :: load mem (p + 1) n := by
  simp only [load, range_succ_eq_map, map_cons, map_map]
  refine congrArg₂ _ (by simp) (map_congr_left fun k _ => ?_)
  simp only [Function.comp_apply, Nat.succ_eq_add_one, add_comm k 1, ofNat_add,
    add_assoc]
  rfl

theorem copyChars_spec (mem : Memory) (n : Nat) (p : BitVec 64) :
    (∃ k < n, (∀ j < k, byte mem (p + ofNat 64 j) ≠ 0) ∧
        byte mem (p + ofNat 64 k) = 0 ∧ copyChars mem n p = (load mem p (k + 1), true)) ∨
      (∀ j < n, byte mem (p + ofNat 64 j) ≠ 0) ∧
        copyChars mem n p = (load mem p n, false) := by
  induction n generalizing p with
  | zero => exact .inr ⟨fun j hj => absurd hj (Nat.not_lt_zero j), rfl⟩
  | succ n ih =>
    have hzero : p + ofNat 64 0 = p := by simp
    have hsucc : ∀ j, p + ofNat 64 (j + 1) = p + 1 + ofNat 64 j := fun j => by
      rw [Nat.add_comm, ofNat_add, add_assoc]
      rfl
    rw [copyChars]
    by_cases hp : byte mem p = 0
    · refine .inl ⟨0, Nat.zero_lt_succ n, fun j hj => absurd hj (Nat.not_lt_zero j), ?_, ?_⟩
      · rwa [hzero]
      · rw [load_succ, hp]
        rfl
    · rw [if_neg hp]
      have hcons : ∀ k, (∀ j < k, byte mem (p + 1 + ofNat 64 j) ≠ 0) →
          ∀ j < k + 1, byte mem (p + ofNat 64 j) ≠ 0 := fun k hk j hj => by
        cases j with
        | zero => rwa [hzero]
        | succ j =>
          rw [hsucc]
          exact hk j (Nat.lt_of_succ_lt_succ hj)
      rcases ih (p + 1) with ⟨k, hk, hchars, hnull, hrun⟩ | ⟨hchars, hrun⟩
      · refine .inl ⟨k + 1, Nat.succ_lt_succ hk, hcons k hchars, by rwa [hsucc], ?_⟩
        rw [hrun, load_succ mem p]
      · refine .inr ⟨hcons n hchars, ?_⟩
        rw [hrun, load_succ]

theorem copyinstr_spec (va : BitVec 64) (max : Nat) (h : Readable s root) :
    (∃ k < max, StringAt s root va.toNat k ∧
        copyinstr (page root) va max s = .ok (0, ubytes s root va.toNat (k + 1))) ∨
      (∀ k < max, ¬ StringAt s root va.toNat k) ∧ ∃ m ≤ max,
        copyinstr (page root) va max s = .ok (-1, ubytes s root va.toNat m) := by
  induction max using Nat.strong_induction_on generalizing va with
  | _ max ih =>
    obtain ⟨hw, hne⟩ := walkaddr_page va h
    rw [copyinstr]
    by_cases h0 : max = 0
    · rw [if_pos h0]
      exact .inr ⟨fun k hk => absurd hk (by omega), 0, Nat.zero_le _, rfl⟩
    · rw [if_neg h0, hw]
      by_cases hu : UserByte s root va.toNat
      · simp only [if_pos hu, if_neg (hne hu), paddr_eq]
        have hpos := chunk_pos va h0
        obtain ⟨hpage, hmax⟩ := chunk_le va max
        have hbyte : ∀ j < chunk va max, UserByte s root (va.toNat + j) ∧
            byte s.mem (paddr s root va.toNat + ofNat 64 j) = ubyte s root (va.toNat + j) :=
          fun j hj => by
            obtain ⟨huj, hlt⟩ := userByte_chunk hu hj
            exact ⟨huj, by rw [ubyte, paddr_add hu.1 hlt]⟩
        rcases copyChars_spec s.mem (chunk va max) (paddr s root va.toNat) with
          ⟨k, hk, hchars, hnull, hrun⟩ | ⟨hchars, hrun⟩
        · refine .inl ⟨k, by omega, ⟨fun j hj => ?_, ?_⟩, ?_⟩
          · obtain ⟨huj, hb⟩ := hbyte j (hj.trans hk)
            exact ⟨huj, hb ▸ hchars j hj⟩
          · obtain ⟨huk, hb⟩ := hbyte k hk
            exact ⟨huk, hb ▸ hnull⟩
          · simp only [hrun, if_true]
            rw [load_paddr hu (by omega)]
        · have hn : ∀ j < chunk va max, UserByte s root (va.toNat + j) ∧
              ubyte s root (va.toNat + j) ≠ 0 := fun j hj => by
            obtain ⟨huj, hb⟩ := hbyte j hj
            exact ⟨huj, hb ▸ hchars j hj⟩
          -- a string that does not end here goes on behind the page
          have hlong : ∀ k, StringAt s root va.toNat k → chunk va max ≤ k := fun k hs =>
            not_lt.mp fun hlt => (hn k hlt).2 hs.null.2
          simp only [hrun, load_paddr hu hpage]
          by_cases hlast : chunk va max < max
          · have hrest := ih (max - chunk va max) (by omega)
              (PGROUNDDOWN va + ofNat 64 PGSIZE)
            rw [next_toNat hu.1 hlast] at hrest
            rcases hrest with ⟨k, hk, hs, hr⟩ | ⟨hno, m, hm, hr⟩
            · refine .inl ⟨chunk va max + k, by omega, (stringAt_add hn).mpr hs, ?_⟩
              simp [hr, ubytes_append, add_assoc]
            · refine .inr ⟨fun k hk hs => ?_, chunk va max + m, by omega, ?_⟩
              · have hge := hlong k hs
                rw [← Nat.add_sub_cancel' hge, stringAt_add hn] at hs
                exact hno _ (by omega) hs
              · simp [hr, ubytes_append]
          · have hall : max - chunk va max = 0 := by omega
            refine .inr ⟨fun k hk hs => hlast ((hlong k hs).trans_lt hk), chunk va max, hmax, ?_⟩
            rw [hall, copyinstr]
            simp
      · rw [if_neg hu]
        exact .inr ⟨fun k _ hs => hu hs.first, 0, Nat.zero_le _, rfl⟩

theorem length_ubytes : (ubytes s root v m).length = m := by
  rw [ubytes, length_map, length_range]

theorem takeWhile_string (h : StringAt s root v k) :
    (ubytes s root v (k + 1)).takeWhile (· ≠ 0) = ubytes s root v k := by
  have hnull : ubytes s root (v + k) 1 = [0] := by
    simp [ubytes, h.null.2]
  rw [← ubytes_append, hnull, takeWhile_append_of_pos, takeWhile_cons_of_neg,
    append_nil]
  · simp
  · intro b hb
    obtain ⟨j, hj, rfl⟩ := mem_map.mp hb
    simpa using (h.chars j (mem_range.mp hj)).2

theorem strlen_string (h : StringAt s root v k) (hk : k < 2 ^ 31) :
    strlen (ubytes s root v (k + 1)) = k := by
  rw [strlen, takeWhile_string h, length_ubytes, BitVec.toInt_eq_toNat_of_lt] <;>
    rw [toNat_ofNat] <;> omega

theorem fetchstr_spec (va : BitVec 64) {max : BitVec 32} (hmax : max.toNat < 2 ^ 31)
    (h : Readable s root) :
    (∃ k < max.toNat, StringAt s root va.toNat k ∧
        fetchstr (page root) va max s = .ok ((k : Int), ubytes s root va.toNat (k + 1))) ∨
      (∀ k < max.toNat, ¬ StringAt s root va.toNat k) ∧ ∃ m ≤ max.toNat,
        fetchstr (page root) va max s = .ok (-1, ubytes s root va.toNat m) := by
  have hsize : (max.signExtend 64).toNat = max.toNat := by
    rw [BitVec.signExtend_eq_setWidth_of_msb_false, BitVec.toNat_setWidth]
    · omega
    · rw [BitVec.msb_eq_false_iff_two_mul_lt]
      omega
  have hspec := copyinstr_spec va (max.signExtend 64).toNat h
  rw [hsize] at hspec
  rw [fetchstr, hsize]
  rcases hspec with ⟨k, hk, hs, hr⟩ | ⟨hno, m, hm, hr⟩
  · refine .inl ⟨k, hk, hs, (except_bind_of_ok hr).trans ?_⟩
    refine (if_neg (show ¬ (0 : Int) < 0 by decide)).trans ?_
    rw [strlen_string hs (hk.trans hmax)]
    rfl
  · exact .inr ⟨hno, m, hm, (except_bind_of_ok hr).trans rfl⟩

/-! ## `copyout` -/

/-- Only bytes of the user memory from `lo` to `hi` have changed. -/
structure Touched (s : St) (root : BitVec 52) (lo hi : Nat) (s' : St) : Prop where
  free : s'.free = s.free
  tables : ∀ q, Reaches child (heap s.mem) root 2 q → heap s'.mem q = heap s.mem q
  user : ∀ n, lo ≤ n → n < hi → UserByte s root n
  frame : ∀ a, (∀ n, lo ≤ n → n < hi → a ≠ paddr s root n) → byte s'.mem a = byte s.mem a

namespace Touched

variable {lo hi lo' hi' : Nat}

theorem refl : Touched s root lo lo s :=
  ⟨rfl, fun _ _ => rfl, fun _ h1 h2 => absurd h2 (not_lt.mpr h1), fun _ _ => rfl⟩

section
variable (h : Touched s root lo hi s')
include h

theorem node_eq {π : List (BitVec 9)} (hπ : π.length ≤ 2) :
    node child (heap s'.mem) root π = node child (heap s.mem) root π :=
  node_congr_reaches h.tables hπ

theorem fresh_iff {q : BitVec 52} :
    Fresh child (heap s'.mem) root 2 q ↔ Fresh child (heap s.mem) root 2 q :=
  forall₂_congr fun π hπ => by rw [h.node_eq hπ]

theorem leaf_eq (va : BitVec 64) : leaf s' root va = leaf s root va := by
  rw [leaf, leaf, lookup, lookup, h.node_eq le_rfl]
  cases hq : node child (heap s.mem) root (dirs va 2) with
  | none => rfl
  | some q => rw [Option.map_some, Option.map_some, h.tables q ⟨_, le_rfl, hq⟩]

theorem userByte_iff : UserByte s' root n ↔ UserByte s root n := by
  rw [UserByte, UserByte, h.leaf_eq]

theorem paddr_eq (n : Nat) : paddr s' root n = paddr s root n := by
  rw [paddr, paddr, h.leaf_eq]

theorem userTable (ht : UserTable s root) : UserTable s' root := by
  refine ⟨⟨h.fresh_iff.mpr ht.nonnull, fun n hn => ?_⟩, fun n hn => ?_, fun m n hm hn => ?_⟩
  · rw [h.leaf_eq]
    exact ht.nonzero n (h.userByte_iff.mp hn)
  · rw [h.fresh_iff, h.leaf_eq]
    exact ht.apart n (h.userByte_iff.mp hn)
  · rw [h.leaf_eq, h.leaf_eq]
    exact ht.distinct m n (h.userByte_iff.mp hm) (h.userByte_iff.mp hn)

omit h in
/-- The other bytes of the user memory. -/
theorem ubyte_eq (ht : UserTable s root) (h : Touched s root lo hi s') (hn : UserByte s root n)
    (hout : n < lo ∨ hi ≤ n) : ubyte s' root n = ubyte s root n := by
  rw [ubyte, h.paddr_eq]
  refine h.frame _ fun m h1 h2 heq => ?_
  have := paddr_inj ht hn (h.user m h1 h2) heq
  omega

theorem mono (hlo : lo' ≤ lo) (hhi : hi ≤ hi') (hu : ∀ n, lo' ≤ n → n < hi' → UserByte s root n) :
    Touched s root lo' hi' s' :=
  ⟨h.free, h.tables, hu, fun a ha => h.frame a fun n h1 h2 => ha n (by omega) (by omega)⟩

end

theorem trans (h : Touched s root lo hi s1) (h' : Touched s1 root lo hi s') :
    Touched s root lo hi s' := by
  refine ⟨h'.free.trans h.free, fun q hq => ?_, h.user, fun a ha => ?_⟩
  · rw [h'.tables q ?_, h.tables q hq]
    obtain ⟨π, hπ, hπq⟩ := hq
    exact ⟨π, hπ, (h.node_eq hπ).trans hπq⟩
  · rw [h'.frame, h.frame a ha]
    intro n h1 h2
    rw [h.paddr_eq]
    exact ha n h1 h2

end Touched

/-- The bytes `bs` were written to the user memory from `v` on. -/
structure Wrote (s : St) (root : BitVec 52) (v : Nat) (bs : List (BitVec 8)) (s' : St) : Prop
    extends Touched s root v (v + bs.length) s' where
  new : ∀ k (hk : k < bs.length), byte s'.mem (paddr s root (v + k)) = bs[k]

namespace Wrote

theorem nil : Wrote s root v [] s := ⟨.refl, fun k hk => absurd hk (Nat.not_lt_zero k)⟩

/-- A write within one page. -/
theorem page (ht : UserTable s root) (hu : UserByte s root v) (hn : v % 4096 + bs.length ≤ 4096) :
    Wrote s root v bs { s with mem := store s.mem (paddr s root v) bs } := by
  have hadd : ∀ k < bs.length, paddr s root (v + k) = paddr s root v + ofNat 64 k :=
    fun k hk => paddr_add hu.1 (by omega)
  refine ⟨⟨rfl, fun q hq => funext fun i => ?_, fun n h1 h2 => userByte_congr (by omega) hu,
    fun a ha => ?_⟩, fun k hk => ?_⟩
  · -- an entry of a page-table page is in another page
    have hne : q ≠ ppn (leaf s root (ofNat 64 v)) := by
      rintro rfl
      exact fresh_iff.mp (ht.apart v hu) hq
    have hi := i.isLt
    have hslot := slot_toNat q i
    refine store_word (by omega) fun j hj k hk heq => hne (eq_of_toNat_eq ?_)
    have hnat := congrArg toNat heq
    have hsame : leaf s root (ofNat 64 v) = leaf s root (ofNat 64 (v + k)) :=
      leaf_congr hu.1 (by omega)
    rw [← hadd k hk, paddr_toNat, add_toNat (by omega) hj, hslot, ← hsame] at hnat
    omega
  · exact byte_store_of_ne fun k hk => by
      rw [← hadd k hk]
      exact ha _ (by omega) (by omega)
  · rw [hadd k hk]
    exact byte_store_add hk (by omega)

theorem trans (ht : UserTable s root) (h : Wrote s root v bs s1)
    (h' : Wrote s1 root (v + bs.length) bs' s') : Wrote s root v (bs ++ bs') s' := by
  have hu : ∀ n, v ≤ n → n < v + (bs ++ bs').length → UserByte s root n := fun n h1 h2 => by
    rw [length_append] at h2
    rcases lt_or_ge n (v + bs.length) with hlt | hge
    · exact h.user n h1 hlt
    · exact h.userByte_iff.mp (h'.user n hge (by omega))
  have hlen : v + bs.length ≤ v + (bs ++ bs').length := by
    rw [length_append]
    omega
  have hend : v + bs.length + bs'.length ≤ v + (bs ++ bs').length := by
    rw [length_append]
    omega
  have hboth : Touched s root v (v + (bs ++ bs').length) s' :=
    (h.toTouched.mono le_rfl hlen hu).trans (h'.toTouched.mono (by omega) hend fun n h1 h2 =>
      h.userByte_iff.mpr (hu n h1 h2))
  refine ⟨hboth, fun k hk => ?_⟩
  have huk := hu (v + k) (by omega) (by omega)
  rw [length_append] at hk
  rcases lt_or_ge k bs.length with hlt | hge
  · have hkeep := h'.toTouched.ubyte_eq (h.userTable ht) (h.userByte_iff.mpr huk) (.inl (by omega))
    rw [ubyte, ubyte, h'.paddr_eq, h.paddr_eq] at hkeep
    rw [getElem_append_left hlt, hkeep, h.new k hlt]
  · have hnew := h'.new (k - bs.length) (by omega)
    rw [h.paddr_eq, add_assoc, Nat.add_sub_cancel' hge] at hnew
    rw [getElem_append_right hge, hnew]

end Wrote

theorem copyout_spec (va : BitVec 64) (src : List (BitVec 8)) (h : UserTable s root) : ∃ m r s',
    copyout (page root) va src s = .ok (r, s') ∧ Upto s root va.toNat src.length m r ∧
      Wrote s root va.toNat (src.take m) s' := by
  induction hlen : src.length using Nat.strong_induction_on generalizing s va src with
  | _ len ih =>
    obtain ⟨hw, hne⟩ := walkaddr_page va h.toReadable
    rw [copyout, hlen]
    by_cases h0 : len = 0
    · rw [if_pos h0]
      exact ⟨0, 0, s, rfl, ⟨fun k hk => absurd hk (Nat.not_lt_zero k), .inl ⟨rfl, h0.symm⟩⟩, .nil⟩
    · rw [if_neg h0, hw]
      by_cases hu : UserByte s root va.toNat
      · simp only [if_pos hu, if_neg (hne hu), paddr_eq]
        have hpos := chunk_pos va h0
        obtain ⟨hpage, hle⟩ := chunk_le va len
        have htake : (src.take (chunk va len)).length = chunk va len := by
          rw [length_take, hlen, min_eq_left hle]
        have hround : Wrote s root va.toNat (src.take (chunk va len))
            { s with mem := store s.mem (paddr s root va.toNat) (src.take (chunk va len)) } :=
          .page h hu (by rwa [htake])
        by_cases hlast : chunk va len < len
        · obtain ⟨m, r, s', hr, hupto, hwrote⟩ := ih (len - chunk va len) (by omega)
            (PGROUNDDOWN va + ofNat 64 PGSIZE) (src.drop (chunk va len))
            (hround.userTable h) (by rw [length_drop, hlen])
          rw [next_toNat hu.1 hlast] at hupto hwrote
          have hupto' : Upto s root (va.toNat + chunk va len) (len - chunk va len) m r := by
            refine ⟨fun k hk => hround.userByte_iff.mp (hupto.user k hk), ?_⟩
            simpa only [hround.userByte_iff] using hupto.stop
          refine ⟨chunk va len + m, r, s', hr, hupto'.next hu, ?_⟩
          rw [take_add]
          exact hround.trans h (by rwa [htake])
        · have hall : src.drop (chunk va len) = [] := drop_eq_nil_of_le (by omega)
          refine ⟨chunk va len, 0, _, ?_, ⟨fun k hk => (userByte_chunk hu hk).1,
            .inl ⟨rfl, by omega⟩⟩, hround⟩
          rw [hall, copyout, if_pos length_nil]
      · rw [if_neg hu]
        exact ⟨0, -1, s, rfl, .fail hu h0, .nil⟩

/-! ## The user memory of a process -/

namespace Owns

variable {kend : Nat} {L : Multiset (BitVec 64)} {held : List (BitVec 64)} {A : View}

theorem leaf_user (hL : Pool kend L) (h : Owns L held A s) (hn : n / 4096 < A.user.length) :
    Vm.leaf s A.root (ofNat 64 n) = A.user[n / 4096] := by
  have hvpn : vpn (ofNat 64 n) = n / 4096 := by
    have := h.user_length hL
    rw [vpn, toNat_ofNat]
    omega
  rw [h.space.leaf, hvpn, View.entry_user (h.user_lt hL).le hn]

/-- A byte of the user memory is below the size. -/
theorem lt_of_userByte (h : Owns L held A s) (ht : A.trampoline &&& PTE_U = 0)
    (hf : A.trapframe &&& PTE_U = 0) (hu : UserByte s A.root n) : n / 4096 < A.user.length := by
  obtain ⟨hlt, hv, hu⟩ := hu
  have hvpn : vpn (ofNat 64 n) = n / 4096 := by
    rw [vpn, toNat_ofNat]
    omega
  rw [h.space.leaf, hvpn, View.entry] at hv hu
  by_contra hn
  split at hu
  · exact hu ht
  · split at hu
    · exact hu hf
    · rw [if_neg ‹_›, if_neg ‹_›, getD_eq_default _ _ (not_lt.mp hn)] at hv
      exact hv rfl

theorem userTable (hL : Pool kend L) (h : Owns L held A s) (ht : A.trampoline &&& PTE_U = 0)
    (hf : A.trapframe &&& PTE_U = 0) : UserTable s A.root := by
  refine ⟨⟨h.space.table.nonnull, fun n hn => ?_⟩, fun n hn => ?_,
    fun m n hm hn heq => ?_⟩
  · have hlt := h.lt_of_userByte ht hf hn
    have hram := (h.user_page hL (getElem_mem hlt)).2
    rw [h.leaf_user hL hlt, ← page_ppn]
    exact fun hz => hram.ne_zero hL.kend_pos (page_inj (hz.trans rfl))
  · have hlt := h.lt_of_userByte ht hf hn
    rw [h.space.fresh_iff, h.leaf_user hL hlt]
    exact (h.user_page hL (getElem_mem hlt)).1
  · have hm := h.lt_of_userByte ht hf hm
    have hn := h.lt_of_userByte ht hf hn
    rw [h.leaf_user hL hm, h.leaf_user hL hn] at heq
    have hpage : (A.user.map PTE2PA)[m / 4096]? = (A.user.map PTE2PA)[n / 4096]? := by
      rw [getElem?_map, getElem?_map, getElem?_eq_getElem hm,
        getElem?_eq_getElem hn, Option.map_some, Option.map_some, ← page_ppn, ← page_ppn, heq]
    have hnd := (nodup_append.mp (h.nodup hL)).2.1
    exact (getElem?_inj (by rwa [length_map]) hnd).mp hpage

end Owns

/-! ## The user memory as an array of bytes -/

/-- The user memory is the old one, overwritten by `bs` at `v`; nothing else has changed. -/
structure Overwritten (s : St) (root : BitVec 52) (v : Nat) (bs : List (BitVec 8)) (s' : St) :
    Prop where
  mapped : ∀ n, UserByte s' root n ↔ UserByte s root n
  bytes : ∀ n, UserByte s root n → ubyte s' root n =
    if v ≤ n then bs.getD (n - v) (ubyte s root n) else ubyte s root n
  others : ∀ a, (∀ n, UserByte s root n → a ≠ paddr s root n) → byte s'.mem a = byte s.mem a

theorem Wrote.overwritten (ht : UserTable s root) (h : Wrote s root v bs s') :
    Overwritten s root v bs s' := by
  refine ⟨fun n => h.userByte_iff, fun n hn => ?_,
    fun a ha => h.frame a fun n h1 h2 => ha n (h.user n h1 h2)⟩
  by_cases hv : v ≤ n
  · rw [if_pos hv]
    by_cases hlt : n - v < bs.length
    · have hnew := h.new (n - v) hlt
      rw [Nat.add_sub_cancel' hv] at hnew
      rw [ubyte, h.paddr_eq, hnew, getD_eq_getElem _ _ hlt]
    · rw [getD_eq_default _ _ (not_lt.mp hlt)]
      exact h.toTouched.ubyte_eq ht hn (.inr (by omega))
  · rw [if_neg hv]
    exact h.toTouched.ubyte_eq ht hn (.inl (not_le.mp hv))

/-- What was written is read back. -/
theorem Wrote.ubytes (h : Wrote s root v bs s') : ubytes s' root v bs.length = bs := by
  refine ext_getElem length_ubytes fun k _ hk => ?_
  rw [← h.new k hk]
  simp [Vm.ubytes, ubyte, h.paddr_eq]

theorem Upto.zero_iff (h : Upto s root v len m r) :
    r = 0 ↔ ∀ k < len, UserByte s root (v + k) := by
  rcases h.stop with ⟨hr, hm⟩ | ⟨hr, hm, hno, -⟩
  · exact iff_of_true hr (hm ▸ h.user)
  · exact iff_of_false (by rw [hr]; decide) fun hall => hno (hall m hm)

theorem Upto.length_eq (h : Upto s root v len m r) (h0 : r = 0) : m = len := by
  rcases h.stop with ⟨-, hm⟩ | ⟨hneg, -⟩
  · exact hm
  · exact absurd (hneg.symm.trans h0) (by decide)

/-- `copyout` and `copyin` return 0 if and only if each byte of the range is in a user page.
`copyout` has overwritten the user memory with its source, or with the beginning of it up to a page;
`copyin` returns the bytes of the user memory, which are those of the last `copyout`. -/
theorem user_copies (h : UserTable s root) (va : BitVec 64) :
    (∀ src, ∃ m r s', copyout (page root) va src s = .ok (r, s') ∧
      (r = 0 ↔ ∀ k < src.length, UserByte s root (va.toNat + k)) ∧
      (r = 0 ∧ m = src.length ∨
        r = -1 ∧ m < src.length ∧ (m = 0 ∨ (va.toNat + m) % PGSIZE = 0)) ∧
      Overwritten s root va.toNat (src.take m) s' ∧
      (r = 0 → copyin (page root) va src.length s' = .ok (0, src))) ∧
    ∀ len, ∃ r dst, copyin (page root) va len s = .ok (r, dst) ∧
      (r = 0 ↔ ∀ k < len, UserByte s root (va.toNat + k)) ∧
      (r = 0 → dst = ubytes s root va.toNat len) ∧ (r ≠ 0 → r = -1) := by
  refine ⟨fun src => ?_, fun len => ?_⟩
  · obtain ⟨m, r, s', hr, hupto, hwrote⟩ := copyout_spec va src h
    refine ⟨m, r, s', hr, hupto.zero_iff, hupto.stop.imp id fun ⟨hr, hm, _, hend⟩ => ⟨hr, hm, hend⟩,
      hwrote.overwritten h, fun h0 => ?_⟩
    obtain ⟨m', r', hr', hupto'⟩ := copyin_spec va src.length (hwrote.userTable h).toReadable
    have hr0 : r' = 0 := hupto'.zero_iff.mpr fun k hk =>
      hwrote.userByte_iff.mpr (hupto.zero_iff.mp h0 k hk)
    obtain rfl := hupto.length_eq h0
    obtain rfl := hupto'.length_eq hr0
    rw [take_length] at hwrote
    rw [hr', hr0, hwrote.ubytes]
  · obtain ⟨m, r, hr, hupto⟩ := copyin_spec va len h.toReadable
    refine ⟨r, _, hr, hupto.zero_iff, fun h0 => ?_, fun h0 => ?_⟩
    · rw [hupto.length_eq h0]
    · rcases hupto.stop with ⟨hzero, -⟩ | ⟨hneg, -⟩
      · exact absurd hzero h0
      · exact hneg

/-- Five free pages, a page table and two pages to be mapped. -/
def copyPages : List (BitVec 52) :=
  [0x80103, 0x80104, 0x80105, 0x80106, 0x80107, 0x80100, 0x80101, 0x80102]

/-- An address space with two pages. -/
theorem exists_userTable : ∃ s, UserTable s 0x80100 ∧ ∀ n < 8192, UserByte s 0x80100 n := by
  have hL : Pool 0x80100000 (copyPages.map page : List (BitVec 64)) :=
    .of_pages (by decide) (by decide) (by decide) (by decide)
  have hroot : Owns (copyPages.map page : List (BitVec 64)) [page 0x80101, page 0x80102]
      ⟨0x80100, [0x80100], 0, 0, []⟩ ⟨fun _ => 0, (copyPages.take 5).map page⟩ :=
    .empty (by decide) (fun _ => rfl) rfl
  obtain ⟨T₁, r₁, s₁, -, hgrow₁, hend₁⟩ := hroot.mapUser 30 hL (by decide) ⟨by decide, by decide⟩
  have hfew₁ : 5 ≤ s₁.free.length + 2 := hgrow₁.few
  rcases hend₁ with ⟨-, howns₁⟩ | ⟨-, hnil, -⟩
  · obtain ⟨T, r, s, -, hgrow, hend⟩ := howns₁.mapUser 30 hL (by decide) ⟨by decide, by decide⟩
    have hfew := hgrow.few
    rcases hend with ⟨-, howns⟩ | ⟨-, hnil, -⟩
    · refine ⟨s, howns.userTable hL (by simp) (by simp), fun n hn => ?_⟩
      have hleaf₀ : leaf s 0x80100 (ofNat 64 0) =
          PA2PTE (page 0x80101) ||| BitVec.signExtend 64 30#32 ||| PTE_V := howns.space.leaf 0
      have hleaf₁ : leaf s 0x80100 (ofNat 64 4096) =
          PA2PTE (page 0x80102) ||| BitVec.signExtend 64 30#32 ||| PTE_V := howns.space.leaf 4096
      by_cases hlt : n < 4096
      · exact userByte_congr (m := 0) (by omega)
          ⟨by decide, by rw [hleaf₀]; decide, by rw [hleaf₀]; decide⟩
      · exact userByte_congr (m := 4096) (by omega)
          ⟨by decide, by rw [hleaf₁]; decide, by rw [hleaf₁]; decide⟩
    · rw [hnil, length_nil] at hfew
      omega
  · rw [hnil, length_nil] at hfew₁
    omega

/-- Four bytes over the boundary of two pages. -/
theorem user_copies_twoPages : ∃ s, UserTable s 0x80100 ∧ ∃ s',
    copyout (page 0x80100) 4094 [0x61, 0x62, 0x63, 0] s = .ok (0, s') ∧
      copyin (page 0x80100) 4094 4 s' = .ok (0, [0x61, 0x62, 0x63, 0]) := by
  obtain ⟨s, ht, hu⟩ := exists_userTable
  obtain ⟨m, r, s', hr, hzero, -, -, hback⟩ := (user_copies ht 4094).1 [0x61, 0x62, 0x63, 0]
  have h0 : r = 0 := hzero.mpr fun k hk => hu _ (by simp at hk ⊢; omega)
  exact ⟨s, ht, s', h0 ▸ hr, hback h0⟩

/-- `copyinstr` returns 0 if and only if a string is there that fits, and then it writes the string
with its NUL; otherwise it returns -1, and has written no more than `max` bytes. So `fetchstr`
returns the length of the string. -/
theorem copyinstr_exact (h : Readable s root) (va : BitVec 64) : (∀ max : Nat, ∃ r dst,
      copyinstr (page root) va max s = .ok (r, dst) ∧
      (r = 0 ↔ ∃ k < max, StringAt s root va.toNat k) ∧
      (∀ k < max, StringAt s root va.toNat k → dst = ubytes s root va.toNat (k + 1)) ∧
      (r ≠ 0 → r = -1 ∧ dst.length ≤ max)) ∧
    ∀ max : BitVec 32, 0 ≤ max.toInt → ∃ r dst, fetchstr (page root) va max s = .ok (r, dst) ∧
      (∀ k < max.toNat, StringAt s root va.toNat k → r = k) ∧
      ((∀ k < max.toNat, ¬ StringAt s root va.toNat k) → r = -1) := by
  refine ⟨fun max => ?_, fun max hmax => ?_⟩
  · rcases copyinstr_spec va max h with ⟨k, hk, hs, hr⟩ | ⟨hno, m, hm, hr⟩
    · refine ⟨0, _, hr, iff_of_true rfl ⟨k, hk, hs⟩, fun k' _ hs' => ?_, fun h0 => absurd rfl h0⟩
      rw [hs.unique hs']
    · refine ⟨-1, _, hr, iff_of_false (by decide) fun ⟨k, hk, hs⟩ => hno k hk hs,
        fun k hk hs => absurd hs (hno k hk), fun _ => ⟨rfl, ?_⟩⟩
      rwa [length_ubytes]
  · have hlt : max.toNat < 2 ^ 31 := by
      rw [BitVec.toInt_eq_toNat_cond] at hmax
      split at hmax <;> omega
    rcases fetchstr_spec va hlt h with ⟨k, hk, hs, hr⟩ | ⟨hno, m, hm, hr⟩
    · refine ⟨k, _, hr, fun k' _ hs' => by rw [hs.unique hs'], fun hno => absurd hs (hno k hk)⟩
    · exact ⟨-1, _, hr, fun k hk hs => absurd hs (hno k hk), fun _ => rfl⟩

theorem copyinstr_exact_twoPages : ∃ s, Readable s 0x80100 ∧ StringAt s 0x80100 4094 3 ∧
    ∃ dst, fetchstr (page 0x80100) 4094 128 s = .ok (3, dst) := by
  obtain ⟨s, ht, hu⟩ := exists_userTable
  obtain ⟨m, r, s', -, hupto, hwrote⟩ := copyout_spec 4094 [0x61, 0x62, 0x63, 0] ht
  have hm : m = 4 := by
    rcases hupto.stop with ⟨-, hm⟩ | ⟨-, hm, hno, -⟩
    · exact hm
    · exact absurd (hu _ (by simp at hm ⊢; omega)) hno
  subst hm
  have hbyte : ∀ k (hk : k < 4), UserByte s' 0x80100 (4094 + k) ∧
      ubyte s' 0x80100 (4094 + k) = ([0x61, 0x62, 0x63, 0] : List (BitVec 8))[k] := fun k hk =>
    ⟨hwrote.userByte_iff.mpr (hu _ (by omega)), by
      rw [ubyte, hwrote.paddr_eq]
      exact hwrote.new k hk⟩
  have hs : StringAt s' 0x80100 4094 3 := by
    refine ⟨fun j hj => ?_, hbyte 3 (by decide)⟩
    obtain ⟨huj, hj'⟩ := hbyte j (by omega)
    refine ⟨huj, ?_⟩
    rw [hj']
    rcases (show j = 0 ∨ j = 1 ∨ j = 2 by omega) with rfl | rfl | rfl <;> simp
  have hread := (hwrote.userTable ht).toReadable
  obtain ⟨r', dst, hr', hlen, -⟩ := (copyinstr_exact hread 4094).2 128 (by decide)
  refine ⟨s', hread, hs, dst, ?_⟩
  rw [hr', hlen 3 (by decide) hs]
  rfl

end Xv6.Vm
