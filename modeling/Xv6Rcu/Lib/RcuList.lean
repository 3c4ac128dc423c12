import Mathlib.Data.List.Nodup
import Mathlib.Data.List.Pairwise

/-!
# Linked lists with stale nodes

A singly linked list under single-pointer stores: a writer unlinks or replaces a node by one store,
and a reader may still stand on a node that is no longer on the list. The stale nodes keep their
`next` fields.

* `Seg next h l e`: following `next` from `h` passes the nodes `l` and arrives at `e`;
  `Chain next h l`: it passes `l` and ends. `Chain.remove`, `Chain.replace`: the stores that take a
  node off the list or put another one in its place.
* `Ranked next head linked rank l`: `l` is the list at `head`; `linked` are the nodes that have
  ever been on it. Ranks fall along the list **and along every `next` of a linked node**, stale or
  not (`down`), and the `next` of a linked node never jumps over the rank of a listed node
  (`cover`). So a walk from a stale node goes down and still meets the rank of every listed node
  below it.
* One lemma for each store: `Ranked.next_congr` (into a node that is not linked), `Ranked.push`,
  `Ranked.replaceHead`, `Ranked.replaceNext`, `Ranked.removeHead`, `Ranked.removeNext`.
-/

namespace Lib

open Function List

variable {α : Type} {next : α → Option α}

/-! ## Segments -/

/-- Following `next` from `h` passes the nodes `l` and arrives at `e`. -/
def Seg (next : α → Option α) : Option α → List α → Option α → Prop
  | h, [], e => h = e
  | h, a :: l, e => h = some a ∧ Seg next (next a) l e

/-- Following `next` from `h` passes the nodes `l` and ends. -/
def Chain (next : α → Option α) (h : Option α) (l : List α) : Prop := Seg next h l none

@[simp] theorem chain_nil {h : Option α} : Chain next h [] ↔ h = none := Iff.rfl

@[simp] theorem chain_cons {h : Option α} {a : α} {l : List α} :
    Chain next h (a :: l) ↔ h = some a ∧ Chain next (next a) l := Iff.rfl

theorem Seg.congr {next' : α → Option α} {l : List α} {h e : Option α}
    (hs : Seg next h l e) (hn : ∀ a ∈ l, next' a = next a) : Seg next' h l e := by
  induction l generalizing h with
  | nil => exact hs
  | cons a l ih =>
    refine ⟨hs.1, ?_⟩
    rw [hn a (by simp)]
    exact ih hs.2 fun b hb => hn b (by simp [hb])

theorem Chain.congr {next' : α → Option α} {l : List α} {h : Option α}
    (hs : Chain next h l) (hn : ∀ a ∈ l, next' a = next a) : Chain next' h l :=
  Seg.congr hs hn

theorem seg_append {l1 l2 : List α} {h e : Option α} :
    Seg next h (l1 ++ l2) e ↔ ∃ m, Seg next h l1 m ∧ Seg next m l2 e := by
  induction l1 generalizing h with
  | nil => simp [Seg]
  | cons a l ih => simp [Seg, ih, and_assoc]

/-- The pointers around the nodes `p`, `c` of a list. -/
theorem chain_mid {h : Option α} {l1 l2 : List α} {p c : α} :
    Chain next h (l1 ++ p :: c :: l2) ↔
      Seg next h l1 (some p) ∧ next p = some c ∧ Chain next (next c) l2 := by
  simp only [Chain, seg_append]
  constructor
  · rintro ⟨m, h1, rfl, h2, h3⟩; exact ⟨h1, h2, h3⟩
  · rintro ⟨h1, h2, h3⟩; exact ⟨_, h1, rfl, h2, h3⟩

/-- A listed node and its `next`. -/
theorem Chain.split {h : Option α} {l : List α} {p c : α} (hc : Chain next h l) (hp : p ∈ l)
    (hn : next p = some c) : ∃ l1 l2, l = l1 ++ p :: c :: l2 := by
  obtain ⟨l1, l2, rfl⟩ := append_of_mem hp
  obtain ⟨m, -, rfl, h2⟩ := seg_append.mp hc
  cases l2 with
  | nil => rw [hn] at h2; cases h2
  | cons b l2 =>
    obtain ⟨e, -⟩ := h2
    rw [hn] at e; cases e
    exact ⟨l1, l2, rfl⟩

/-- The head of a chain is on it. -/
theorem Chain.head_mem {h : Option α} {l : List α} {a : α} (hc : Chain next h l)
    (ha : h = some a) : ∃ l2, l = a :: l2 := by
  cases l with
  | nil => rw [ha] at hc; cases hc
  | cons b l =>
    obtain ⟨e, -⟩ := hc
    rw [ha] at e; cases e
    exact ⟨l, rfl⟩

/-- A pointer has one chain. -/
theorem Chain.unique {l l' : List α} {h : Option α} (h1 : Chain next h l)
    (h2 : Chain next h l') : l = l' := by
  induction l generalizing h l' with
  | nil =>
    cases l' with
    | nil => rfl
    | cons b l' => subst h1; simp at h2
  | cons a l ih =>
    cases l' with
    | nil => subst h2; simp at h1
    | cons b l' =>
      obtain ⟨rfl, h1⟩ := h1
      obtain ⟨e, h2⟩ := h2
      cases e
      rw [ih h1 h2]

/-! ## Stores into a list of distinct nodes -/

section Store
variable [DecidableEq α] {h : Option α} {l1 l2 : List α} {p c x : α}

theorem Seg.update {l : List α} {e q : Option α} (hs : Seg next h l e) (hx : x ∉ l) :
    Seg (update next x q) h l e :=
  hs.congr fun _ ha => update_of_ne (ne_of_mem_of_not_mem ha hx) ..

/-- The node `c` is taken off the list by a store into the node before it. -/
theorem Chain.remove (hc : Chain next h (l1 ++ p :: c :: l2)) (hnd : (l1 ++ p :: c :: l2).Nodup) :
    Chain (update next p (next c)) h (l1 ++ p :: l2) := by
  obtain ⟨h1, -, h2⟩ := chain_mid.mp hc
  obtain ⟨-, hnd2, hdis⟩ := nodup_append.mp hnd
  have hp1 : p ∉ l1 := fun hm => hdis p hm p mem_cons_self rfl
  have hp2 : p ∉ l2 := fun hm => (nodup_cons.mp hnd2).1 (mem_cons_of_mem _ hm)
  refine seg_append.mpr ⟨some p, h1.update hp1, rfl, ?_⟩
  rw [update_self]
  exact Seg.update h2 hp2

/-- The node `x` takes the place of `c`. -/
theorem Chain.replace (hc : Chain next h (l1 ++ p :: c :: l2)) (hnd : (l1 ++ p :: c :: l2).Nodup)
    (hx : x ∉ l1 ++ p :: c :: l2) :
    Chain (update (update next x (next c)) p (some x)) h
      (l1 ++ p :: x :: l2) := by
  obtain ⟨h1, -, h2⟩ := chain_mid.mp hc
  obtain ⟨-, hnd2, hdis⟩ := nodup_append.mp hnd
  have hp1 : p ∉ l1 := fun hm => hdis p hm p mem_cons_self rfl
  have hp2 : p ∉ l2 := fun hm => (nodup_cons.mp hnd2).1 (mem_cons_of_mem _ hm)
  simp only [mem_append, mem_cons, not_or] at hx
  obtain ⟨hx1, hxp, -, hx2⟩ := hx
  refine chain_mid.mpr ⟨(h1.update hx1).update hp1, update_self .., ?_⟩
  rw [update_of_ne hxp, update_self]
  exact Seg.update (Seg.update h2 hx2) hp2

end Store

/-! ## Ranked lists -/

/-- There is a rank above finitely many nodes, and above `R`. -/
theorem exists_rank_above (rank : α → Nat) (R : Nat) :
    ∀ l : List α, ∃ top, R ≤ top ∧ ∀ a ∈ l, rank a < top
  | [] => ⟨R, Nat.le_refl _, by simp⟩
  | a :: l => by
    obtain ⟨top, hR, htop⟩ := exists_rank_above rank R l
    refine ⟨top + rank a + 1, by omega, fun b hb => ?_⟩
    rcases mem_cons.mp hb with rfl | hb
    · omega
    · have := htop b hb; omega

/-- A list with its stale nodes (module doc). -/
structure Ranked (next : α → Option α) (head : Option α) (linked : List α) (rank : α → Nat)
    (l : List α) : Prop where
  chain : Chain next head l
  desc : l.Pairwise fun a b => rank b < rank a
  sub : ∀ a ∈ l, a ∈ linked
  down : ∀ a ∈ linked, ∀ b, next a = some b → b ∈ linked ∧ rank b < rank a
  cover : ∀ a ∈ linked, ∀ m ∈ l, rank m < rank a → ∃ b, next a = some b ∧ rank m ≤ rank b

namespace Ranked

variable {head : Option α} {linked l : List α} {rank : α → Nat}

/-- A list without stale nodes, with falling ranks. -/
theorem of_chain (hc : Chain next head l) (hd : l.Pairwise fun a b => rank b < rank a) :
    Ranked next head l rank l := by
  refine ⟨hc, hd, fun _ h => h, fun a ha b hb => ?_, fun a ha m hm hlt => ?_⟩
  · obtain ⟨l1, l2, rfl⟩ := hc.split ha hb
    refine ⟨by simp, ?_⟩
    simp only [pairwise_append, pairwise_cons] at hd
    exact hd.2.1.1 b (by simp)
  · -- `m` is below `a`, so it comes after it
    obtain ⟨l1, l2, rfl⟩ := append_of_mem ha
    simp only [pairwise_append, pairwise_cons] at hd
    have hm2 : m ∈ l2 := by
      simp only [mem_append, mem_cons] at hm
      rcases hm with hm | rfl | hm
      · exact absurd (hd.2.2 m hm a (by simp)) (Nat.lt_asymm hlt)
      · exact absurd hlt (Nat.lt_irrefl _)
      · exact hm
    obtain ⟨_, -, rfl, hc2⟩ := seg_append.mp hc
    cases l2 with
    | nil => simp at hm2
    | cons b l2 =>
      refine ⟨b, hc2.1, ?_⟩
      rcases mem_cons.mp hm2 with rfl | hm2
      · exact Nat.le_refl _
      · exact Nat.le_of_lt (rel_of_pairwise_cons hd.2.1.2 hm2)

section
variable (h : Ranked next head linked rank l)
include h

theorem nodup : l.Nodup :=
  h.desc.imp fun hlt e => by subst e; exact Nat.lt_irrefl _ hlt

/-- The listed node of a rank is the only one. -/
theorem eq_of_rank {a b : α} (ha : a ∈ l) (hb : b ∈ l) (hr : rank a = rank b) : a = b := by
  by_contra hne
  have hd : l.Pairwise fun a b => rank a ≠ rank b := h.desc.imp fun hlt e => by omega
  have : Std.Symm fun a b => rank a ≠ rank b := ⟨fun _ _ h e => h e.symm⟩
  exact hd.forall ha hb hne hr

/-- The head has the greatest rank. -/
theorem le_head {a m : α} (ha : head = some a) (hm : m ∈ l) : rank m ≤ rank a := by
  obtain ⟨l2, rfl⟩ := h.chain.head_mem ha
  rcases mem_cons.mp hm with rfl | hm
  · exact Nat.le_refl _
  · exact Nat.le_of_lt (rel_of_pairwise_cons h.desc hm)

/-- Only the ranks of linked nodes matter. -/
theorem rank_congr {rank' : α → Nat} (hr : ∀ a ∈ linked, rank' a = rank a) :
    Ranked next head linked rank' l where
  chain := h.chain
  desc := by
    refine Pairwise.imp_of_mem (fun ha hb hlt => ?_) h.desc
    rw [hr _ (h.sub _ ha), hr _ (h.sub _ hb)]; exact hlt
  sub := h.sub
  down a ha b hb := by
    obtain ⟨hl, hlt⟩ := h.down a ha b hb
    exact ⟨hl, by rw [hr _ ha, hr _ hl]; exact hlt⟩
  cover a ha m hm hlt := by
    rw [hr _ ha, hr _ (h.sub _ hm)] at hlt
    obtain ⟨b, hb, hle⟩ := h.cover a ha m hm hlt
    exact ⟨b, hb, by rw [hr _ (h.sub _ hm), hr _ (h.down a ha b hb).1]; exact hle⟩

/-- Linking a node of the list: the new node is linked as well, with the fields of a listed node
of its rank (or above all ranks). -/
theorem link {x : α} {l' : List α} {head' : Option α} {next' : α → Option α}
    (hc : Chain next' head' l') (hd : l'.Pairwise fun a b => rank b < rank a)
    (hl : ∀ m ∈ l', m = x ∨ m ∈ l) (hdn : ∀ a, a = x ∨ a ∈ linked → ∀ b, next' a = some b →
      (b = x ∨ b ∈ linked) ∧ rank b < rank a)
    (hcv : ∀ a, a = x ∨ a ∈ linked → ∀ m ∈ l', rank m < rank a →
      ∃ b, next' a = some b ∧ rank m ≤ rank b) :
    Ranked next' head' (x :: linked) rank l' where
  chain := hc
  desc := hd
  sub a ha := by
    rcases hl a ha with rfl | h'
    · simp
    · simp [h.sub a h']
  down a ha b hb := by
    obtain ⟨h1, h2⟩ := hdn a (by simpa using ha) b hb
    exact ⟨by simpa using h1, h2⟩
  cover a ha m hm hlt := hcv a (by simpa using ha) m hm hlt

/-- Only the `next` fields of linked nodes matter: a store into another node changes nothing. -/
theorem next_congr {next' : α → Option α} (hn : ∀ a ∈ linked, next' a = next a) :
    Ranked next' head linked rank l := by
  refine ⟨h.chain.congr fun a ha => hn a (h.sub a ha), h.desc, h.sub, fun a ha b hb => ?_,
    fun a ha m hm hlt => ?_⟩
  · rw [hn a ha] at hb; exact h.down a ha b hb
  · rw [hn a ha]; exact h.cover a ha m hm hlt

/-- A new node above all ranks becomes the head. -/
theorem push {x : α} (hn : next x = head) (hr : ∀ a ∈ linked, rank a < rank x) :
    Ranked next (some x) (x :: linked) rank (x :: l) := by
  refine h.link ⟨rfl, hn ▸ h.chain⟩ (pairwise_cons.mpr ⟨fun a ha => hr a (h.sub a ha), h.desc⟩)
    (fun m hm => by simpa using hm) (fun a ha b hb => ?_) (fun a ha m hm hlt => ?_)
  · rcases ha with rfl | ha
    · rw [hn] at hb
      have hbl : b ∈ l := by
        obtain ⟨l2, rfl⟩ := h.chain.head_mem hb
        simp
      exact ⟨.inr (h.sub b hbl), hr b (h.sub b hbl)⟩
    · obtain ⟨h1, h2⟩ := h.down a ha b hb
      exact ⟨.inr h1, h2⟩
  · rcases ha with rfl | ha
    · rcases mem_cons.mp hm with rfl | hm
      · exact absurd hlt (Nat.lt_irrefl _)
      · cases l with
        | nil => simp at hm
        | cons c l =>
          obtain ⟨e, -⟩ := h.chain
          exact ⟨c, hn.trans e, h.le_head e hm⟩
    · rcases mem_cons.mp hm with rfl | hm
      · exact absurd hlt (Nat.not_lt.mpr (Nat.le_of_lt (hr a ha)))
      · exact h.cover a ha m hm hlt

end

/-- A new node with the head's rank and `next` replaces the head. -/
theorem replaceHead {c x : α} {l2 : List α} (h : Ranked next head linked rank (c :: l2))
    (hn : next x = next c) (hr : rank x = rank c) :
    Ranked next (some x) (x :: linked) rank (x :: l2) := by
  have hc : c ∈ linked := h.sub c (by simp)
  refine h.link ⟨rfl, hn ▸ h.chain.2⟩ ?_ (fun m hm => ?_) (fun a ha b hb => ?_)
    (fun a ha m hm hlt => ?_)
  · rw [pairwise_cons, hr]; exact pairwise_cons.mp h.desc
  · rcases mem_cons.mp hm with rfl | hm
    · exact .inl rfl
    · exact .inr (by simp [hm])
  · rcases ha with rfl | ha
    · obtain ⟨h1, h2⟩ := h.down c hc b (hn ▸ hb)
      exact ⟨.inr h1, hr ▸ h2⟩
    · obtain ⟨h1, h2⟩ := h.down a ha b hb
      exact ⟨.inr h1, h2⟩
  · obtain ⟨m', hm', e⟩ : ∃ m' ∈ c :: l2, rank m' = rank m := by
      rcases mem_cons.mp hm with rfl | hm
      · exact ⟨c, by simp, hr.symm⟩
      · exact ⟨m, by simp [hm], rfl⟩
    rw [← e] at hlt ⊢
    rcases ha with rfl | ha
    · rw [hr] at hlt; rw [hn]; exact h.cover c hc m' hm' hlt
    · exact h.cover a ha m' hm' hlt

/-- The store `p->next = x` replaces the node `c` after `p` by `x`, a new node with the rank and
the `next` of `c`. -/
theorem replaceNext [DecidableEq α] {p c x : α} {l1 l2 : List α}
    (h : Ranked next head linked rank (l1 ++ p :: c :: l2)) (hx : x ∉ linked)
    (hn : next x = next c) (hr : rank x = rank c) :
    Ranked (update next p (some x)) head (x :: linked) rank (l1 ++ p :: x :: l2) := by
  obtain ⟨h1, hpc, h2⟩ := chain_mid.mp h.chain
  have hp : p ∈ linked := h.sub p (by simp)
  have hc : c ∈ linked := h.sub c (by simp)
  have hxp : x ≠ p := fun e => hx (e ▸ hp)
  have hnd := h.nodup
  have hne : ∀ a, a ≠ p → update next p (some x) a = next a := fun a ha =>
    update_of_ne ha _ _
  have hpl : p ∉ l1 ∧ p ∉ l2 := by
    simp only [nodup_append, nodup_cons, mem_cons, not_or] at hnd
    exact ⟨fun hm => hnd.2.2 p hm p (by simp) rfl, hnd.2.1.1.2⟩
  have hrank : ∀ m ∈ l1 ++ p :: x :: l2, ∃ m' ∈ l1 ++ p :: c :: l2, rank m' = rank m := by
    intro m hm
    simp only [mem_append, mem_cons] at hm
    rcases hm with hm | rfl | rfl | hm
    · exact ⟨m, by simp [hm], rfl⟩
    · exact ⟨m, by simp, rfl⟩
    · exact ⟨c, by simp, hr.symm⟩
    · exact ⟨m, by simp [hm], rfl⟩
  refine h.link ?_ ?_ (fun m hm => ?_) (fun a ha b hb => ?_) (fun a ha m hm hlt => ?_)
  · refine chain_mid.mpr ⟨h1.congr fun a ha => hne a fun e => hpl.1 (e ▸ ha), by simp, ?_⟩
    rw [hne x hxp, hn]
    exact h2.congr fun a ha => hne a fun e => hpl.2 (e ▸ ha)
  · have hd := h.desc
    simp only [pairwise_append, pairwise_cons, mem_cons, forall_eq_or_imp] at hd ⊢
    rw [hr]; exact hd
  · simp only [mem_append, mem_cons] at hm ⊢
    tauto
  · by_cases hap : a = p
    · subst hap
      rw [update_self] at hb; cases hb
      exact ⟨.inl rfl, hr ▸ (h.down a hp c hpc).2⟩
    · rw [hne a hap] at hb
      rcases ha with rfl | ha
      · obtain ⟨h3, h4⟩ := h.down c hc b (hn ▸ hb)
        exact ⟨.inr h3, hr ▸ h4⟩
      · obtain ⟨h3, h4⟩ := h.down a ha b hb
        exact ⟨.inr h3, h4⟩
  · obtain ⟨m', hm', e⟩ := hrank m hm
    rw [← e] at hlt ⊢
    by_cases hap : a = p
    · subst hap
      obtain ⟨b, hb, hle⟩ := h.cover a hp m' hm' hlt
      rw [hpc] at hb; cases hb
      exact ⟨x, by simp, hr ▸ hle⟩
    · rw [hne a hap]
      rcases ha with rfl | ha
      · rw [hr] at hlt; rw [hn]; exact h.cover c hc m' hm' hlt
      · exact h.cover a ha m' hm' hlt

/-- The head is unlinked. -/
theorem removeHead {c : α} {l2 : List α} (h : Ranked next head linked rank (c :: l2)) :
    Ranked next (next c) linked rank l2 where
  chain := h.chain.2
  desc := (pairwise_cons.mp h.desc).2
  sub a ha := h.sub a (by simp [ha])
  down := h.down
  cover a ha m hm hlt := h.cover a ha m (by simp [hm]) hlt

/-- The store `p->next = c->next` unlinks the node `c` after `p`. -/
theorem removeNext [DecidableEq α] {p c : α} {l1 l2 : List α}
    (h : Ranked next head linked rank (l1 ++ p :: c :: l2)) :
    Ranked (update next p (next c)) head linked rank (l1 ++ p :: l2) := by
  obtain ⟨h1, hpc, h2⟩ := chain_mid.mp h.chain
  have hp : p ∈ linked := h.sub p (by simp)
  have hc : c ∈ linked := h.sub c (by simp)
  have hnd := h.nodup
  have hne : ∀ a, a ≠ p → update next p (next c) a = next a := fun a ha =>
    update_of_ne ha _ _
  have hpl : p ∉ l1 ∧ p ∉ l2 := by
    simp only [nodup_append, nodup_cons, mem_cons, not_or] at hnd
    exact ⟨fun hm => hnd.2.2 p hm p (by simp) rfl, hnd.2.1.1.2⟩
  have hd := h.desc
  have hsub : ∀ m ∈ l1 ++ p :: l2, m ∈ l1 ++ p :: c :: l2 := by simp; tauto
  refine ⟨?_, ?_, fun a ha => h.sub a (hsub a ha), fun a ha b hb => ?_, fun a ha m hm hlt => ?_⟩
  · rw [Chain, seg_append]
    refine ⟨some p, h1.congr fun a ha => hne a fun e => hpl.1 (e ▸ ha), rfl, ?_⟩
    rw [update_self]
    exact h2.congr fun a ha => hne a fun e => hpl.2 (e ▸ ha)
  · exact hd.sublist (by simp)
  · by_cases hap : a = p
    · subst hap
      rw [update_self] at hb
      obtain ⟨h3, h4⟩ := h.down c hc b hb
      exact ⟨h3, Nat.lt_trans h4 (h.down a hp c hpc).2⟩
    · rw [hne a hap] at hb; exact h.down a ha b hb
  · by_cases hap : a = p
    · subst hap
      rw [update_self]
      -- `m` is below `p` and is not `c`, so it comes after `c`
      obtain ⟨b, hb, hle⟩ := h.cover a hp m (hsub m hm) hlt
      rw [hpc] at hb; cases hb
      have hmc : m ≠ c := by
        rintro rfl
        simp only [nodup_append, nodup_cons, mem_cons, not_or] at hnd
        simp only [mem_append, mem_cons] at hm
        rcases hm with hm | rfl | hm
        · exact hnd.2.2 m hm m (by simp) rfl
        · exact hnd.2.1.1.1 rfl
        · exact hnd.2.1.2.1 hm
      have hlt' : rank m < rank c := Nat.lt_of_le_of_ne hle fun e =>
        hmc (h.eq_of_rank (hsub m hm) (by simp) e)
      exact h.cover c hc m (hsub m hm) hlt'
    · rw [hne a hap]; exact h.cover a ha m (hsub m hm) hlt

end Ranked

end Lib
