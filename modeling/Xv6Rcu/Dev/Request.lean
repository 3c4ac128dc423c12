import Xv6Rcu.Dev.Virtio
import Xv6Rcu.Lib.Owner

/-!
# The requests of the disk driver

What the driver and the device keep about the requests in flight, and how each of their actions
keeps it.

- `Chains`: the descriptors. The chains of the requests are disjoint, the others are free.
- `Numbers`: where each request is on its way through the avail ring, the device and the used ring.
- `Queues`: the two rings and their 16-bit indices.
- `Inv`: the three together, with the lock and the places of the processes.
-/

namespace Xv6.Virtio

open Lib Function List

/-! ## Descriptors -/

section Desc
variable {B : Type} {d d' : Disk B} {i : Nat} {idx : List Nat}

/-- The descriptors `idx` are taken. -/
def Disk.take (d : Disk B) (idx : List Nat) : Disk B :=
  { d with free := fun i => if i ∈ idx then false else d.free i }

/-- The descriptors `idx` are given back. -/
def Disk.give (d : Disk B) (idx : List Nat) : Disk B :=
  { d with
    desc := fun i => if i ∈ idx then {} else d.desc i
    free := fun i => if i ∈ idx then true else d.free i }

theorem allocDesc_some (h : allocDesc d = some (i, d')) :
    i < NUM ∧ d.free i = true ∧ d' = d.take [i] := by
  obtain ⟨j, hj, he⟩ := Option.map_eq_some_iff.mp h
  cases he
  refine ⟨mem_range.mp (mem_of_find?_eq_some hj), find?_some hj, ?_⟩
  congr 1
  funext j
  simp [update_apply]

theorem freeDesc_ok (hi : i < NUM) (hf : d.free i = false) : freeDesc d i = some (d.give [i]) := by
  rw [freeDesc, if_neg (not_le.mpr hi), if_neg (by simp [hf])]
  congr 2 <;>
  · funext j
    simp [update_apply]

theorem give_append (d : Disk B) (idx idx' : List Nat) :
    (d.give idx).give idx' = d.give (idx ++ idx') := by
  simp only [Disk.give]
  congr 1 <;>
  · funext j
    by_cases hj : j ∈ idx <;> by_cases hj' : j ∈ idx' <;> simp [hj]

theorem freeAll_ok (hnd : idx.Nodup) (hlt : ∀ i ∈ idx, i < NUM) (hf : ∀ i ∈ idx, d.free i = false) :
    idx.foldlM freeDesc d = some (d.give idx) := by
  induction idx generalizing d with
  | nil => simp [Disk.give]
  | cons i idx ih =>
    obtain ⟨hi, hnd⟩ := nodup_cons.mp hnd
    obtain ⟨hi', hlt⟩ := forall_mem_cons.mp hlt
    obtain ⟨hfi, hf⟩ := forall_mem_cons.mp hf
    rw [foldlM_cons, freeDesc_ok hi' hfi, Option.bind_eq_bind, Option.bind_some, ih hnd hlt,
      give_append, singleton_append]
    intro j hj
    have hji : j ≠ i := fun h => hi (h ▸ hj)
    simpa [Disk.give, hji] using hf j hj

/-- All descriptors that were asked for are taken, or those taken before are given back. -/
theorem allocLoop_spec {n : Nat} (hnd : idx.Nodup) (hlt : ∀ i ∈ idx, i < NUM)
    (hf : ∀ i ∈ idx, d.free i = false) :
    (∃ new, allocLoop n idx d = some (d.take new, some (idx ++ new)) ∧ new.length = n ∧
      (idx ++ new).Nodup ∧ ∀ i ∈ new, i < NUM ∧ d.free i = true) ∨
    ∃ new, allocLoop n idx d = some ((d.take new).give (idx ++ new), none) ∧
      ∀ i ∈ new, i < NUM ∧ d.free i = true := by
  induction n generalizing idx d with
  | zero => exact .inl ⟨[], by simp [allocLoop, Disk.take], rfl, by simpa using hnd, by simp⟩
  | succ n ih =>
    rw [allocLoop]
    cases ha : allocDesc d with
    | none =>
      refine .inr ⟨[], ?_, by simp⟩
      simp [freeAll_ok hnd hlt hf, Disk.take]
    | some x =>
      obtain ⟨i, d1⟩ := x
      obtain ⟨hi, hfi, rfl⟩ := allocDesc_some ha
      dsimp only
      have hni : i ∉ idx := fun h => by simp [hf i h] at hfi
      have hnd' : (idx ++ [i]).Nodup := by
        rw [nodup_append]
        refine ⟨hnd, nodup_singleton i, ?_⟩
        rintro a ha b hb rfl
        exact hni (mem_singleton.mp hb ▸ ha)
      have htake : ∀ new, (d.take [i]).take new = d.take (i :: new) := by
        intro new
        simp only [Disk.take]
        congr 1
        funext j
        by_cases hj : j ∈ new <;> by_cases hji : j = i <;> simp [hj]
      have hnew : ∀ new : List Nat, (∀ j ∈ new, j < NUM ∧ (d.take [i]).free j = true) →
          ∀ j ∈ i :: new, j < NUM ∧ d.free j = true := by
        intro new h j hj
        rcases mem_cons.mp hj with rfl | hj
        · exact ⟨hi, hfi⟩
        · refine ⟨(h j hj).1, ?_⟩
          have := (h j hj).2
          simp only [Disk.take] at this
          split at this
          · cases this
          · exact this
      have happ : ∀ new : List Nat, idx ++ [i] ++ new = idx ++ i :: new := by simp
      have hlt' : ∀ j ∈ idx ++ [i], j < NUM := by
        intro j hj
        rcases mem_append.mp hj with hj | hj
        · exact hlt j hj
        · exact mem_singleton.mp hj ▸ hi
      have hf' : ∀ j ∈ idx ++ [i], (d.take [i]).free j = false := by
        intro j hj
        simp only [Disk.take]
        rcases mem_append.mp hj with hj | hj
        · rw [hf j hj, ite_self]
        · rw [if_pos hj]
      rcases ih hnd' hlt' hf' with ⟨new, h, hl, hnd1, hn⟩ | ⟨new, h, hn⟩
      · refine .inl ⟨i :: new, ?_, by simp [hl], happ new ▸ hnd1, hnew new hn⟩
        rw [h, htake, happ]
      · refine .inr ⟨i :: new, ?_, hnew new hn⟩
        rw [h, htake, happ]

end Desc

/-! ## The invariant -/

section Defs
variable {P B : Type}

/-- The request of a process that has its descriptors. -/
def Pc.req : Pc B → Option (Req B)
  | .publish r | .wait r | .asleep r => some r
  | _ => none

/-- The buffer of a process that is in `virtio_disk_rw`. -/
def Pc.buf : Pc B → Option B
  | .noDesc op => some op.b
  | .publish r | .wait r | .asleep r => some r.b
  | _ => none

def Pc.locked : Pc B → Bool
  | .publish _ | .wait _ | .intr => true
  | _ => false

def InFlight (pc : P → Pc B) (r : Req B) : Prop := ∃ p, (pc p).req = some r

/-- The requests whose completion the interrupt handler has seen. -/
def Io.done (io : Io) : List Nat := (io.completed.take io.seen).map Prod.fst

/-- The descriptors of the request `r` are linked, and `info` has its buffer. -/
structure Holds (d : Disk B) (r : Req B) : Prop where
  first : (d.desc r.i0).next = true ∧ (d.desc r.i0).link = r.i1
  second : (d.desc r.i1).next = true ∧ (d.desc r.i1).link = r.i2
  third : (d.desc r.i2).next = false ∧ (d.desc r.i2).addr = .status r.i0
  info : (d.info r.i0).b = some r.b

/-- The descriptors of the requests `R`. -/
structure Chains (R : Req B → Prop) (d : Disk B) : Prop where
  nodup : ∀ r, R r → r.chain.Nodup
  lt : ∀ r, R r → ∀ i ∈ r.chain, i < NUM
  disjoint : ∀ r r' i, R r → R r' → i ∈ r.chain → i ∈ r'.chain → r = r'
  free : ∀ i < NUM, (d.free i = true ↔ ∀ r, R r → i ∉ r.chain)
  holds : ∀ r, R r → Holds d r

/-- The numbers of the requests `R`. -/
structure Numbers (R : Req B → Prop) (busy : B → Bool) (io : Io) : Prop where
  num : ∀ r, R r → io.written[r.num]? = some r.i0
  nums : ∀ r r', R r → R r' → r.num = r'.num → r = r'
  live : ∀ n < io.written.length, n ∉ io.done → ∃ r, R r ∧ r.num = n
  busy : ∀ r, R r → (busy r.b = true ↔ r.num ∉ io.done)
  published : io.published ≤ io.written.length
  taken : io.taken ≤ io.published
  seen : io.seen ≤ io.completed.length
  issued : ∀ x ∈ io.working ++ io.completed, io.written[x.1]? = some x.2 ∧ x.1 < io.taken
  nodup : ((io.working ++ io.completed).map Prod.fst).Nodup

/-- The two rings and their indices. -/
structure Queues (d : Disk B) (io : Io) : Prop where
  availIdx : d.availIdx = BitVec.ofNat 16 io.published
  lastAvail : io.lastAvail = BitVec.ofNat 16 io.taken
  deviceIdx : d.deviceIdx = BitVec.ofNat 16 io.completed.length
  usedIdx : d.usedIdx = BitVec.ofNat 16 io.seen
  avail : Buffered d.availRing io.written io.taken
  used : Buffered d.usedRing (io.completed.map Prod.snd) io.seen
  status : ∀ x ∈ io.completed.drop io.seen, (d.info x.2).status = 0

structure Inv (s : St P B) : Prop where
  lock : ∀ p, (s.pc p).locked = true → s.lock = some p
  held : ∀ p b, (s.pc p).buf = some b → s.held b = true
  bufs : Exclusive Pc.buf s.pc
  chains : Chains (InFlight s.pc) s.disk
  numbers : Numbers (InFlight s.pc) s.busy s.io
  queues : Queues s.disk s.io
  publish : ∀ p r, s.pc p = .publish r →
    r.num = s.io.published ∧ s.io.written.length = s.io.published + 1
  sync : (∀ p r, s.pc p ≠ .publish r) → s.io.written.length = s.io.published
  panic : s.panic = false

end Defs

/-! ### The descriptors of the requests -/

section Chains
variable {B : Type} {R : Req B → Prop} {d : Disk B} {r : Req B} {op : Op B}

theorem Chains.not_free (h : Chains R d) (hr : R r) {i : Nat} (hi : i ∈ r.chain) :
    d.free i = false := by
  rw [← Bool.not_eq_true, h.free i (h.lt r hr i hi)]
  exact fun hall => hall r hr hi

theorem Holds.congr {d' : Disk B} (h : Holds d r) (hd : ∀ i ∈ r.chain, d'.desc i = d.desc i)
    (hi : (d'.info r.i0).b = (d.info r.i0).b) : Holds d' r := by
  have h0 := hd r.i0 (by simp [Req.chain])
  have h1 := hd r.i1 (by simp [Req.chain])
  have h2 := hd r.i2 (by simp [Req.chain])
  exact ⟨by rw [h0]; exact h.first, by rw [h1]; exact h.second, by rw [h2]; exact h.third,
    by rw [hi]; exact h.info⟩

theorem Chains.congr {d' : Disk B} (h : Chains R d) (hd : d'.desc = d.desc) (hf : d'.free = d.free)
    (hi : ∀ i, (d'.info i).b = (d.info i).b) : Chains R d' :=
  ⟨h.nodup, h.lt, h.disjoint, hf ▸ h.free,
    fun r hr => (h.holds r hr).congr (fun i _ => congrFun hd i) (hi r.i0)⟩

/-- Descriptors that were free are taken and given back. -/
theorem Chains.take_give (h : Chains R d) {idx : List Nat}
    (hidx : ∀ i ∈ idx, i < NUM ∧ d.free i = true) : Chains R ((d.take idx).give idx) := by
  refine ⟨h.nodup, h.lt, h.disjoint, fun i hi => ?_, fun r hr => ?_⟩
  · rw [← h.free i hi]
    by_cases hm : i ∈ idx
    · simp [Disk.give, hm, (hidx i hm).2]
    · simp [Disk.give, Disk.take, hm]
  · refine (h.holds r hr).congr (fun i hi => ?_) rfl
    have hm : i ∉ idx := fun hm => by
      have := h.not_free hr hi
      rw [(hidx i hm).2] at this
      cases this
    simp [Disk.give, Disk.take, hm]

theorem format_holds (hnd : r.chain.Nodup) (hb : r.b = op.b) :
    Holds (format d op r.i0 r.i1 r.i2) r := by
  have h : r.i0 ≠ r.i1 ∧ r.i0 ≠ r.i2 ∧ r.i1 ≠ r.i2 := by
    simpa [Req.chain, and_assoc] using hnd
  obtain ⟨h01, h02, h12⟩ := h
  refine ⟨?_, ?_, ?_, ?_⟩ <;> simp [format, h01, h02, h12, hb]

/-- The request `r` gets descriptors that were free. -/
theorem Chains.add (h : Chains R d) (hnd : r.chain.Nodup) (hb : r.b = op.b)
    (hidx : ∀ i ∈ r.chain, i < NUM ∧ d.free i = true) :
    Chains (fun r' => R r' ∨ r' = r) (format (d.take r.chain) op r.i0 r.i1 r.i2) := by
  have hnew : ∀ r', R r' → ∀ i ∈ r.chain, i ∉ r'.chain := fun r' hr' i hi hi' => by
    have := h.not_free hr' hi'
    rw [(hidx i hi).2] at this
    cases this
  refine ⟨?_, ?_, ?_, fun i hi => ?_, ?_⟩
  · rintro r' (hr' | rfl)
    · exact h.nodup r' hr'
    · exact hnd
  · rintro r' (hr' | rfl) i hi
    · exact h.lt r' hr' i hi
    · exact (hidx i hi).1
  · rintro r1 r2 i (h₁ | rfl) (h₂ | rfl) hi1 hi2
    · exact h.disjoint r1 r2 i h₁ h₂ hi1 hi2
    · exact absurd hi1 (hnew r1 h₁ i hi2)
    · exact absurd hi2 (hnew r2 h₂ i hi1)
    · rfl
  · show (if i ∈ r.chain then false else d.free i) = true ↔ _
    by_cases hm : i ∈ r.chain
    · rw [if_pos hm]
      exact ⟨Bool.noConfusion, fun hall => absurd hm (hall r (.inr rfl))⟩
    · rw [if_neg hm, h.free i hi]
      refine ⟨?_, fun hall r' hr' => hall r' (.inl hr')⟩
      rintro hall r' (hr' | rfl)
      · exact hall r' hr'
      · exact hm
  · rintro r' (hr' | rfl)
    · have hne : ∀ j ∈ r.chain, ∀ i ∈ r'.chain, i ≠ j := fun j hj i hi he =>
        hnew r' hr' j hj (he ▸ hi)
      refine (h.holds r' hr').congr (fun i hi => ?_) ?_
      · have h0 := hne r.i0 (by simp [Req.chain]) i hi
        have h1 := hne r.i1 (by simp [Req.chain]) i hi
        have h2 := hne r.i2 (by simp [Req.chain]) i hi
        simp [format, Disk.take, h0, h1, h2]
      · have h0 := hne r.i0 (by simp [Req.chain]) r'.i0 (by simp [Req.chain])
        simp [format, Disk.take, h0]
    · exact format_holds hnd hb

/-- `disk.info[i].b = 0`. -/
def Disk.clear (d : Disk B) (i : Nat) : Disk B :=
  { d with info := Function.update d.info i ⟨none, (d.info i).status⟩ }

/-- The request `r` gives its descriptors back. -/
theorem Chains.remove (h : Chains R d) (hr : R r) :
    Chains (fun r' => R r' ∧ r' ≠ r) ((d.clear r.i0).give r.chain) := by
  refine ⟨fun r' hr' => h.nodup r' hr'.1, fun r' hr' => h.lt r' hr'.1,
    fun r1 r2 i h1 h2 => h.disjoint r1 r2 i h1.1 h2.1, fun i hi => ?_, ?_⟩
  · show (if i ∈ r.chain then true else d.free i) = true ↔ _
    by_cases hm : i ∈ r.chain
    · rw [if_pos hm]
      exact ⟨fun _ r' hr' hi' => hr'.2 (h.disjoint r' r i hr'.1 hr hi' hm), fun _ => rfl⟩
    · rw [if_neg hm, h.free i hi]
      refine ⟨fun hall r' hr' => hall r' hr'.1, fun hall r' hr' hi' => ?_⟩
      by_cases he : r' = r
      · exact hm (he ▸ hi')
      · exact hall r' ⟨hr', he⟩ hi'
  · rintro r' ⟨hr', hne⟩
    have hdis : ∀ i ∈ r'.chain, i ∉ r.chain := fun i hi hi' =>
      hne (h.disjoint r' r i hr' hr hi hi')
    refine (h.holds r' hr').congr (fun i hi => ?_) ?_
    · simp [Disk.give, Disk.clear, hdis i hi]
    · have h0 : r'.i0 ≠ r.i0 := fun he =>
        hdis r'.i0 (by simp [Req.chain]) (by simp [Req.chain, he])
      simp [Disk.give, Disk.clear, h0]

theorem freeChain_next {fuel i : Nat} (hi : i < NUM) (hf : d.free i = false)
    (hn : (d.desc i).next = true) :
    freeChain (fuel + 1) d i = freeChain fuel (d.give [i]) (d.desc i).link := by
  rw [freeChain, freeDesc_ok hi hf, Option.bind_some, if_pos hn]

theorem freeChain_end {fuel i : Nat} (hi : i < NUM) (hf : d.free i = false)
    (hn : (d.desc i).next = false) : freeChain (fuel + 1) d i = some (d.give [i]) := by
  rw [freeChain, freeDesc_ok hi hf, Option.bind_some, if_neg (by simp [hn])]

theorem give_of_not_mem {idx : List Nat} {i : Nat} (hi : i ∉ idx) :
    (d.give idx).desc i = d.desc i ∧ (d.give idx).free i = d.free i :=
  ⟨if_neg hi, if_neg hi⟩

/-- `free_chain` gives back the descriptors of a request. -/
theorem freeChain_ok (hd : Holds d r) (hnd : r.chain.Nodup) (hlt : ∀ i ∈ r.chain, i < NUM)
    (hf : ∀ i ∈ r.chain, d.free i = false) (fuel : Nat) :
    freeChain (fuel + 3) (d.clear r.i0) r.i0 = some ((d.clear r.i0).give r.chain) := by
  have hne : r.i0 ≠ r.i1 ∧ r.i0 ≠ r.i2 ∧ r.i1 ≠ r.i2 := by
    simpa [Req.chain, and_assoc] using hnd
  have hmem : ∀ p : Nat → Prop, (∀ i ∈ r.chain, p i) → p r.i0 ∧ p r.i1 ∧ p r.i2 := by
    simp [Req.chain]
  obtain ⟨hl0, hl1, hl2⟩ := hmem _ hlt
  obtain ⟨hf0, hf1, hf2⟩ := hmem _ hf
  -- the three rounds of the loop, each in the state that the one before leaves
  obtain ⟨hd1, hf1'⟩ := give_of_not_mem
    (show r.i1 ∉ [r.i0] by simpa using hne.1.symm)
  obtain ⟨hd2, hf2'⟩ := give_of_not_mem
    (show r.i2 ∉ [r.i0, r.i1] by simpa using ⟨hne.2.1.symm, hne.2.2.symm⟩)
  have hn1 : (((d.clear r.i0).give [r.i0]).desc r.i1).next = true := by
    rw [hd1]
    exact hd.second.1
  have hk1 : (((d.clear r.i0).give [r.i0]).desc r.i1).link = r.i2 := by
    rw [hd1]
    exact hd.second.2
  have hn2 : (((d.clear r.i0).give [r.i0, r.i1]).desc r.i2).next = false := by
    rw [hd2]
    exact hd.third.1
  have hk0 : ((d.clear r.i0).desc r.i0).link = r.i1 := hd.first.2
  rw [freeChain_next hl0 (show (d.clear r.i0).free r.i0 = false from hf0) hd.first.1, hk0,
    freeChain_next hl1 (hf1'.trans hf1) hn1, hk1, give_append, singleton_append,
    freeChain_end hl2 (hf2'.trans hf2) hn2, give_append]
  rfl

theorem chainEnd_eq (hd : Holds d r) : chainEnd d.desc NUM r.i0 = r.i2 := by
  rw [NUM, chainEnd, if_pos hd.first.1, hd.first.2, chainEnd, if_pos hd.second.1, hd.second.2,
    chainEnd, if_neg (by simp [hd.third.1])]

end Chains

/-! ### The numbers of the requests -/

section Numbers
variable {B : Type} {R : Req B → Prop} {d : Disk B} {busy : B → Bool} {io : Io} {r : Req B}

/-- The requests that are not done have different heads. -/
theorem exists_heads (hc : Chains R d) (h : Numbers R busy io) {ns : List Nat} (hnd : ns.Nodup)
    (hns : ∀ n ∈ ns, n < io.written.length ∧ n ∉ io.done) :
    ∃ hs : List Nat, hs.length = ns.length ∧ hs.Nodup ∧ ∀ i ∈ hs, i < NUM ∧ d.free i = false := by
  have hhead : ∀ n ∈ ns, ∃ r, R r ∧ r.num = n ∧ io.written[n]? = some r.i0 := by
    intro n hn
    obtain ⟨r, hr, rfl⟩ := h.live n (hns n hn).1 (hns n hn).2
    exact ⟨r, hr, rfl, h.num r hr⟩
  have h0 : ∀ r : Req B, r.i0 ∈ r.chain := fun r => by simp [Req.chain]
  refine ⟨ns.map fun n => (io.written[n]?).getD 0, length_map .., ?_, ?_⟩
  · refine Nodup.map_on ?_ hnd
    intro m hm n hn he
    obtain ⟨r, hr, rfl, hwr⟩ := hhead m hm
    obtain ⟨r', hr', rfl, hwr'⟩ := hhead n hn
    rw [hwr, hwr', Option.getD_some] at he
    rw [hc.disjoint r r' r.i0 hr hr' (h0 r) (he ▸ h0 r')]
  · intro i hi
    obtain ⟨n, hn, rfl⟩ := mem_map.mp hi
    obtain ⟨r, hr, rfl, hwr⟩ := hhead n hn
    rw [hwr]
    exact ⟨hc.lt r hr _ (h0 r), hc.not_free hr (h0 r)⟩

theorem length_le_num {hs : List Nat} (hnd : hs.Nodup) (hlt : ∀ i ∈ hs, i < NUM) :
    hs.length ≤ NUM := by
  have hsub : hs ⊆ range NUM := fun i hi => mem_range.mpr (hlt i hi)
  have := (subperm_of_subset hnd hsub).length_le
  rwa [length_range] at this

section
variable (h : Numbers R busy io)
include h

theorem Numbers.done_lt {n : Nat} (hn : n ∈ io.done) :
    n < io.taken ∧ ∃ x, (n, x) ∈ io.completed := by
  obtain ⟨x, hx, rfl⟩ := mem_map.mp hn
  have hm := mem_of_mem_take hx
  exact ⟨(h.issued x (mem_append_right _ hm)).2, x.2, hm⟩

omit h in
/-- A slot of the avail ring is left while a descriptor is. -/
theorem avail_room (hc : Chains R d) (h : Numbers R busy io) {i : Nat} (hi : i < NUM)
    (hf : d.free i = true) : io.written.length < io.taken + NUM := by
  have hlive : ∀ n ∈ range' io.taken (io.written.length - io.taken),
      n < io.written.length ∧ n ∉ io.done := by
    intro n hn
    rw [mem_range'_1] at hn
    refine ⟨by omega, fun hd => ?_⟩
    have := (h.done_lt hd).1
    omega
  obtain ⟨hs, hl, hnd, hlt⟩ := exists_heads hc h (nodup_range' ..) hlive
  have hni : i ∉ hs := fun hm => by
    have := (hlt i hm).2
    rw [hf] at this
    cases this
  have hle := length_le_num (nodup_cons.mpr ⟨hni, hnd⟩) (by
    intro j hj
    rcases mem_cons.mp hj with rfl | hj
    · exact hi
    · exact (hlt j hj).1)
  rw [length_cons, hl, length_range'] at hle
  omega

/-- A request that the device works on, or whose completion was not seen, is not done. -/
theorem Numbers.not_done {x : Nat × Nat} (hx : x ∈ io.working ++ io.completed.drop io.seen) :
    x.1 ∉ io.done := by
  have hperm : (io.working ++ io.completed).Perm
      (io.working ++ io.completed.drop io.seen ++ io.completed.take io.seen) := by
    conv_lhs => rw [← take_append_drop io.seen io.completed]
    rw [append_assoc]
    exact perm_append_comm.append_left _
  have hnd := (hperm.map Prod.fst).nodup_iff.mp h.nodup
  rw [map_append, nodup_append] at hnd
  exact fun hd => hnd.2.2 x.1 (mem_map_of_mem hx) x.1 hd rfl

theorem Numbers.pending {x : Nat × Nat} (hx : x ∈ io.working ++ io.completed.drop io.seen) :
    ∃ r, R r ∧ r.num = x.1 ∧ r.i0 = x.2 ∧ x.1 < io.written.length := by
  have hm : x ∈ io.working ++ io.completed :=
    (Sublist.append_left (drop_sublist ..) _).subset hx
  obtain ⟨hw, -⟩ := h.issued x hm
  have hlt := (List.getElem?_eq_some_iff.mp hw).1
  obtain ⟨r, hr, hn⟩ := h.live x.1 hlt (h.not_done hx)
  have := h.num r hr
  rw [hn, hw] at this
  exact ⟨r, hr, hn, (Option.some.inj this).symm, hlt⟩

omit h in
/-- The used ring has room for all the requests that the device has taken. -/
theorem used_bound (hc : Chains R d) (h : Numbers R busy io) :
    (io.working ++ io.completed.drop io.seen).length ≤ NUM := by
  have hsub : (io.working ++ io.completed.drop io.seen).Sublist (io.working ++ io.completed) :=
    Sublist.append_left (drop_sublist ..) _
  have hlive : ∀ n ∈ (io.working ++ io.completed.drop io.seen).map Prod.fst,
      n < io.written.length ∧ n ∉ io.done := by
    intro n hn
    obtain ⟨x, hx, rfl⟩ := mem_map.mp hn
    obtain ⟨r, -, -, -, hlt⟩ := h.pending hx
    exact ⟨hlt, h.not_done hx⟩
  obtain ⟨hs, hl, hnd, hlt⟩ := exists_heads hc h ((hsub.map Prod.fst).nodup h.nodup) hlive
  have := length_le_num hnd fun i hi => (hlt i hi).1
  rwa [hl, length_map] at this

/-- A new request is written to the avail ring. -/
theorem Numbers.write [DecidableEq B] (hn : r.num = io.written.length)
    (hb : ∀ r', R r' → r'.b ≠ r.b) :
    Numbers (fun r' => R r' ∨ r' = r) (update busy r.b true)
      { io with written := io.written ++ [r.i0] } := by
  have hlt : ∀ r', R r' → r'.num < io.written.length := fun r' hr' =>
    (List.getElem?_eq_some_iff.mp (h.num r' hr')).1
  have hnd : ∀ n ∈ io.done, n < io.written.length := fun n hd => by
    have := (h.done_lt hd).1
    have := h.taken
    have := h.published
    omega
  refine ⟨?_, ?_, ?_, ?_, ?_, h.taken, h.seen, ?_, h.nodup⟩
  · rintro r' (hr' | rfl)
    · exact (getElem?_append_left (hlt r' hr')).trans (h.num r' hr')
    · rw [hn, getElem?_concat_length]
  · rintro r1 r2 (h1 | rfl) (h2 | rfl) he
    · exact h.nums r1 r2 h1 h2 he
    · exact absurd (he.trans hn) (ne_of_lt (hlt r1 h1))
    · exact absurd (he.symm.trans hn) (ne_of_lt (hlt r2 h2))
    · rfl
  · intro n hlt' hd
    rw [length_append, length_singleton] at hlt'
    by_cases he : n = io.written.length
    · exact ⟨r, .inr rfl, hn.trans he.symm⟩
    · obtain ⟨r', hr', hr''⟩ := h.live n (by omega) hd
      exact ⟨r', .inl hr', hr''⟩
  · rintro r' (hr' | rfl)
    · rw [update_of_ne (hb r' hr')]
      exact h.busy r' hr'
    · rw [update_self]
      refine iff_of_true rfl fun hd => ?_
      exact absurd hn (ne_of_lt (hnd _ hd))
  · rw [length_append]
    exact Nat.le_add_right_of_le h.published
  · intro x hx
    obtain ⟨hw, ht⟩ := h.issued x hx
    exact ⟨(getElem?_append_left (List.getElem?_eq_some_iff.mp hw).1).trans hw, ht⟩

theorem Numbers.publish (hlt : io.published < io.written.length) :
    Numbers R busy { io with published := io.published + 1 } :=
  { h with
    published := hlt
    taken := Nat.le_succ_of_le h.taken }

/-- A call returns. -/
theorem Numbers.remove (hd : r.num ∈ io.done) : Numbers (fun r' => R r' ∧ r' ≠ r) busy io := by
  refine ⟨fun r' hr' => h.num r' hr'.1, fun r1 r2 h1 h2 => h.nums r1 r2 h1.1 h2.1, ?_,
    fun r' hr' => h.busy r' hr'.1, h.published, h.taken, h.seen, h.issued, h.nodup⟩
  intro n hn hnd
  obtain ⟨r', hr', rfl⟩ := h.live n hn hnd
  exact ⟨r', ⟨hr', fun he => hnd (he ▸ hd)⟩, rfl⟩

/-- The interrupt handler sees the completion of the request `r`. -/
theorem Numbers.see [DecidableEq B] (hr : R r) (hx : io.completed[io.seen]? = some (r.num, r.i0))
    (hb : ∀ r', R r' → r'.b = r.b → r' = r) :
    Numbers R (update busy r.b false) { io with seen := io.seen + 1 } := by
  obtain ⟨hlt, hget⟩ := List.getElem?_eq_some_iff.mp hx
  have hdone : ({ io with seen := io.seen + 1 } : Io).done = io.done ++ [r.num] := by
    rw [Io.done, take_succ_eq_append_getElem hlt, map_append, hget]
    rfl
  have hmem : ∀ n, n ∈ ({ io with seen := io.seen + 1 } : Io).done ↔ n ∈ io.done ∨ n = r.num := by
    intro n
    rw [hdone, mem_append, mem_singleton]
  refine ⟨h.num, h.nums, ?_, ?_, h.published, h.taken, hlt, h.issued, h.nodup⟩
  · intro n hn hd
    exact h.live n hn fun hd' => hd ((hmem n).mpr (.inl hd'))
  · intro r' hr'
    rw [hmem]
    by_cases he : r' = r
    · rw [he, update_self]
      exact iff_of_false Bool.false_ne_true fun hd => hd (.inr rfl)
    · rw [update_of_ne fun hb' => he (hb r' hr' hb'), h.busy r' hr']
      exact not_congr (or_iff_left fun hn => he (h.nums r' r hr' hr hn)).symm

/-- The device takes the next head. -/
theorem Numbers.take {head : Nat} {k : BitVec 16} (hlt : io.taken < io.published)
    (hw : io.written[io.taken]? = some head) :
    Numbers R busy { io with
      lastAvail := k
      working := io.working ++ [(io.taken, head)]
      taken := io.taken + 1 } := by
  have hperm : (io.working ++ [(io.taken, head)] ++ io.completed).Perm
      ((io.taken, head) :: (io.working ++ io.completed)) := by
    rw [append_assoc]
    exact perm_middle
  refine ⟨h.num, h.nums, h.live, h.busy, h.published, hlt, h.seen, ?_, ?_⟩
  · intro x hx
    rcases mem_cons.mp (hperm.mem_iff.mp hx) with rfl | hx
    · exact ⟨hw, Nat.lt_succ_self _⟩
    · obtain ⟨hw', ht⟩ := h.issued x hx
      exact ⟨hw', Nat.lt_succ_of_lt ht⟩
  · refine (hperm.map Prod.fst).nodup_iff.mpr (nodup_cons.mpr ⟨fun hm => ?_, h.nodup⟩)
    obtain ⟨x, hx, he⟩ := mem_map.mp hm
    exact absurd he (ne_of_lt (h.issued x hx).2)

/-- The device completes a request. -/
theorem Numbers.complete {n head : Nat} (hx : (n, head) ∈ io.working) :
    Numbers R busy { io with
      working := io.working.filter (·.1 ≠ n)
      completed := io.completed ++ [(n, head)] } := by
  have hdone : ({ io with
      working := io.working.filter (·.1 ≠ n)
      completed := io.completed ++ [(n, head)] } : Io).done = io.done := by
    rw [Io.done, Io.done, take_append_of_le_length h.seen]
  refine ⟨h.num, h.nums, hdone ▸ h.live, hdone ▸ h.busy, h.published, h.taken, ?_, ?_, ?_⟩
  · rw [length_append]
    exact Nat.le_add_right_of_le h.seen
  · intro x hx'
    refine h.issued x ?_
    rcases mem_append.mp hx' with hx' | hx'
    · exact mem_append_left _ (mem_of_mem_filter hx')
    · rcases mem_append.mp hx' with hx' | hx'
      · exact mem_append_right _ hx'
      · exact mem_append_left _ (mem_singleton.mp hx' ▸ hx)
  · have hnd := h.nodup
    rw [map_append, nodup_append] at hnd ⊢
    obtain ⟨hw, hc, hdis⟩ := hnd
    have hsub : (io.working.filter (·.1 ≠ n)).Sublist io.working := filter_sublist
    refine ⟨(hsub.map _).nodup hw, ?_, ?_⟩
    · rw [map_append, nodup_append]
      refine ⟨hc, nodup_singleton _, ?_⟩
      rintro a ha b hb rfl
      exact hdis n (mem_map_of_mem hx) a ha (mem_singleton.mp hb).symm
    · intro a ha b hb
      obtain ⟨x, hx', rfl⟩ := mem_map.mp ha
      obtain ⟨hxw, hxn⟩ := mem_filter.mp hx'
      rw [map_append, mem_append] at hb
      rcases hb with hb | hb
      · exact hdis x.1 (mem_map_of_mem hxw) b hb
      · rw [mem_singleton.mp hb]
        simpa using hxn

end

end Numbers

/-! ### The rings -/

section Queues
variable {B : Type} {d d' : Disk B} {io : Io} {op : Op B}

theorem num_dvd : NUM ∣ 2 ^ 16 := by decide

section
variable (h : Queues d io)
include h

theorem Queues.congr (ha : d'.availIdx = d.availIdx ∧ d'.availRing = d.availRing)
    (hu : d'.deviceIdx = d.deviceIdx ∧ d'.usedRing = d.usedRing ∧ d'.usedIdx = d.usedIdx)
    (hs : ∀ i, (d'.info i).status = (d.info i).status) : Queues d' io :=
  ⟨ha.1.trans h.availIdx, h.lastAvail, hu.1.trans h.deviceIdx, hu.2.2.trans h.usedIdx,
    ha.2 ▸ h.avail, hu.2.1 ▸ h.used, fun x hx => (hs x.2).trans (h.status x hx)⟩

theorem Queues.write {i0 i1 i2 : Nat} (hsync : io.written.length = io.published)
    (hroom : io.written.length < io.taken + NUM)
    (hfresh : ∀ x ∈ io.completed.drop io.seen, x.2 ≠ i0) :
    Queues (format d op i0 i1 i2) { io with written := io.written ++ [i0] } := by
  refine ⟨h.availIdx, h.lastAvail, h.deviceIdx, h.usedIdx, ?_, h.used, fun x hx => ?_⟩
  · show Buffered (update d.availRing (cell NUM d.availIdx.toNat) i0) _ _
    rw [h.availIdx, ← hsync, counter_mod num_dvd]
    exact h.avail.push hroom i0
  · show ((update d.info i0 _) x.2).status = 0
    rw [update_of_ne (hfresh x hx)]
    exact h.status x hx

theorem Queues.publish :
    Queues { d with availIdx := d.availIdx + 1 } { io with published := io.published + 1 } :=
  ⟨by rw [h.availIdx, counter_succ], h.lastAvail, h.deviceIdx, h.usedIdx, h.avail, h.used, h.status⟩

theorem Queues.see :
    Queues { d with usedIdx := d.usedIdx + 1 } { io with seen := io.seen + 1 } := by
  refine ⟨h.availIdx, h.lastAvail, h.deviceIdx, by rw [h.usedIdx, counter_succ], h.avail,
    h.used.drop, fun x hx => h.status x ?_⟩
  have hx' : x ∈ io.completed.drop (io.seen + 1) := hx
  rw [← drop_drop] at hx'
  exact mem_of_mem_drop hx'

theorem Queues.take (ws : List (Nat × Nat)) :
    Queues d { io with lastAvail := io.lastAvail + 1, working := ws, taken := io.taken + 1 } :=
  ⟨h.availIdx, by rw [h.lastAvail, counter_succ], h.deviceIdx, h.usedIdx, h.avail.drop, h.used,
    h.status⟩

theorem Queues.complete {n head : Nat} (ws : List (Nat × Nat))
    (hseen : io.seen ≤ io.completed.length) (hroom : io.completed.length < io.seen + NUM) :
    Queues { d with
        info := update d.info head { d.info head with status := 0 }
        usedRing := update d.usedRing (cell NUM d.deviceIdx.toNat) head
        deviceIdx := d.deviceIdx + 1 }
      { io with working := ws, completed := io.completed ++ [(n, head)] } := by
  refine ⟨h.availIdx, h.lastAvail, ?_, h.usedIdx, h.avail, ?_, fun x hx => ?_⟩
  · rw [h.deviceIdx, counter_succ, length_append]
    rfl
  · rw [h.deviceIdx, counter_mod num_dvd, map_append]
    have hlen : (io.completed.map Prod.snd).length = io.completed.length := length_map ..
    rw [← hlen]
    exact h.used.push (hlen ▸ hroom) head
  · dsimp only at hx ⊢
    by_cases he : x.2 = head
    · rw [he, update_self]
    · rw [update_of_ne he]
      rw [drop_append_of_le_length hseen] at hx
      rcases mem_append.mp hx with hx | hx
      · exact h.status x hx
      · rw [mem_singleton.mp hx] at he
        exact absurd rfl he

end

end Queues

end Xv6.Virtio
