import Mathlib.Data.List.Infix

/-!
# Tries in a heap

Nodes of type `α` with a slot for each index `ι`. `h p i : ω` is what the slot `i` of the node `p`
holds, and `child` reads an entry as a pointer to a node.

* `node child h r π`: the node at the end of the path `π` from `r`.
* `Tree child h r d`: no node is at the end of two paths of length at most `d`.
* `lookup child h r π i`: the entry in the slot `i` of that node.
* `node_set_leaf`, `lookup_set_leaf`: what is written at the depth `d` changes no path.
  `node_update_fresh`: what is written to a node that no path reaches changes none.
* `node_link`, `lookup_link`, `Tree.link`: a new empty node in an empty slot adds one path.
* `Reaches`: a node at the end of a path. `reaches_succ`: it is the root or a node of a subtree;
  `Tree.sub_disjoint`, `Tree.fresh_root`: the subtrees and the root share no node.
-/

namespace Lib.Trie

open Function List
open Option (map_some some)

variable {α ι ω : Type} (child : ω → Option α)

def node (h : α → ι → ω) : α → List ι → Option α
  | r, [] => some r
  | r, i :: π => (child (h r i)).bind fun p => node h p π

/-- What the slot `i` of the node at the end of the path holds. -/
def lookup (h : α → ι → ω) (r : α) (π : List ι) (i : ι) : Option ω :=
  (node child h r π).map fun p => h p i

/-- The paths of length at most `d` lead to different nodes. -/
def Tree (h : α → ι → ω) (r : α) (d : Nat) : Prop :=
  ∀ π π' p, π.length ≤ d → π'.length ≤ d → node child h r π = some p → node child h r π' = some p →
    π = π'

/-- No path of length at most `d` leads to the node. -/
def Fresh (h : α → ι → ω) (r : α) (d : Nat) (q : α) : Prop :=
  ∀ π, π.length ≤ d → node child h r π ≠ some q

/-- Write to one slot. -/
def set [DecidableEq α] [DecidableEq ι] (h : α → ι → ω) (p : α) (i : ι) (e : ω) : α → ι → ω :=
  Function.update h p (Function.update (h p) i e)

variable {child} {h h' : α → ι → ω} {r p q : α} {π : List ι} {i : ι} {e : ω} {d : Nat} {f : ι → ω}

theorem node_append (π' : List ι) :
    node child h r (π ++ π') = (node child h r π).bind fun p => node child h p π' := by
  induction π generalizing r with
  | nil => rfl
  | cons i π ih =>
    simp only [cons_append, node, Option.bind_assoc]
    congr
    funext p
    exact ih

theorem node_snoc (hp : node child h r π = some p) (i : ι) :
    node child h r (π ++ [i]) = child (h p i) := by
  rw [node_append, hp]
  simp [node]

/-- The path only depends on the slots that it goes through. -/
theorem node_congr (hh : ∀ π1 j π2 p, π = π1 ++ j :: π2 → node child h r π1 = some p →
    child (h' p j) = child (h p j)) : node child h' r π = node child h r π := by
  induction π generalizing r with
  | nil => rfl
  | cons i π ih =>
    simp only [node]
    rw [hh [] i π r rfl rfl]
    cases hc : child (h r i) with
    | none => rfl
    | some p =>
      refine ih fun π1 j π2 q he hq => hh (i :: π1) j π2 q ?_ ?_
      · rw [he]
        rfl
      · simp [node, hc, hq]

theorem Tree.congr (ht : Tree child h r d)
    (hn : ∀ π, π.length ≤ d → node child h' r π = node child h r π) : Tree child h' r d := by
  intro π π' p hπ hπ' hp hp'
  rw [hn π hπ] at hp
  rw [hn π' hπ'] at hp'
  exact ht π π' p hπ hπ' hp hp'

theorem node_update_fresh [DecidableEq α] (hq : Fresh child h r d q) (hπ : π.length ≤ d) :
    node child (update h q f) r π = node child h r π := by
  refine node_congr fun π1 j π2 p he hp => ?_
  have hlen : π1.length ≤ d := by
    rw [he, length_append] at hπ
    omega
  have hpq : p ≠ q := by
    rintro rfl
    exact hq π1 hlen hp
  rw [update_of_ne hpq]

theorem lookup_update_fresh [DecidableEq α] (hq : Fresh child h r d q) (hπ : π.length ≤ d) :
    lookup child (update h q f) r π i = lookup child h r π i := by
  unfold lookup
  rw [node_update_fresh hq hπ]
  cases hp : node child h r π with
  | none => rfl
  | some p =>
    have hpq : p ≠ q := by
      rintro rfl
      exact hq π hπ hp
    simp [update_of_ne hpq]

theorem Fresh.update [DecidableEq α] (hq : Fresh child h r d q) (hp : Fresh child h r d p) :
    Fresh child (update h q f) r d p := by
  intro π hπ
  rw [node_update_fresh hq hπ]
  exact hp π hπ

theorem Tree.update [DecidableEq α] (ht : Tree child h r d) (hq : Fresh child h r d q) :
    Tree child (update h q f) r d :=
  ht.congr fun _ hπ => node_update_fresh hq hπ

section Set
variable [DecidableEq α] [DecidableEq ι]

theorem set_self : set h p i e p i = e := by
  simp [set]

theorem set_of_ne {j : ι} (hne : q = p → j ≠ i) : set h p i e q j = h q j := by
  by_cases hq : q = p
  · subst hq
    simp [set, hne rfl]
  · rw [set, update_of_ne hq]

section
variable (ht : Tree child h r d) (hp : node child h r π = some p) {π' : List ι}
include ht hp

theorem node_set_leaf (hd : π.length = d) (hπ' : π'.length ≤ d) :
    node child (set h p i e) r π' = node child h r π' := by
  refine node_congr fun π1 j π2 q he hq => ?_
  have hlen : π1.length < d := by
    rw [he, length_append, length_cons] at hπ'
    omega
  rw [set_of_ne]
  rintro rfl
  rw [ht π1 π q hlen.le hd.le hq hp] at hlen
  omega

/-- Writing an entry at the depth `d`. -/
theorem lookup_set_leaf (hd : π.length = d) {j : ι} (hπ' : π'.length = d) :
    lookup child (set h p i e) r π' j =
      if π' = π ∧ j = i then some e else lookup child h r π' j := by
  unfold lookup
  rw [node_set_leaf ht hp hd hπ'.le]
  split
  · next heq => rw [heq.1, hp, heq.2, map_some, set_self]
  · next hne =>
    cases hq : node child h r π' with
    | none => rfl
    | some q =>
      rw [map_some, map_some, set_of_ne]
      rintro rfl hji
      exact hne ⟨ht π' π q hπ'.le hd.le hq hp, hji⟩

/-- A path that does not go through the slot. -/
theorem node_set_off_path (hd : π.length ≤ d) (hπ' : π'.length ≤ d) (hn : ¬ π ++ [i] <+: π') :
    node child (set h p i e) r π' = node child h r π' := by
  refine node_congr fun π1 j π2 q he hq => ?_
  have hlen : π1.length ≤ d := by
    rw [he, length_append] at hπ'
    omega
  rw [set_of_ne]
  rintro rfl rfl
  obtain rfl := ht π1 π q hlen hd hq hp
  exact hn ⟨π2, by rw [he, append_assoc]; rfl⟩

end

variable (ht : Tree child h r d) (hp : node child h r π = some p) (hd : π.length < d)
  (hc : child (h p i) = none) (hq : Fresh child h r d q) (hz : ∀ j, child (h q j) = none)
  (he : child e = some q)

include ht hp hd hc hq hz he

/-- A new node in an empty slot adds one path. -/
theorem node_link {π' : List ι} (hπ' : π'.length ≤ d) :
    node child (set h p i e) r π' = if π' = π ++ [i] then some q else node child h r π' := by
  by_cases hpre : π ++ [i] <+: π'
  · obtain ⟨π2, rfl⟩ := hpre
    have hqp : q ≠ p := by
      rintro rfl
      exact hq π hd.le hp
    have hself : node child (set h p i e) r π = some p := by
      rw [node_set_off_path ht hp hd.le hd.le, hp]
      intro hn
      have hlen := hn.length_le
      rw [length_append, length_singleton] at hlen
      omega
    rw [append_assoc, node_append, hself]
    cases π2 with
    | nil => simp [node, set_self, he]
    | cons j π2 =>
      have hne : set h p i e q j = h q j := set_of_ne fun hqp' => absurd hqp' hqp
      rw [node_append, hp]
      simp [node, set_self, he, hne, hz, hc]
  · rw [node_set_off_path ht hp hd.le hπ' hpre, if_neg]
    rintro rfl
    exact hpre prefix_rfl

/-- A new empty node adds no entries. -/
theorem lookup_link {π' : List ι} {j : ι} (hπ' : π'.length = d) :
    lookup child (set h p i e) r π' j =
      if π' = π ++ [i] then some (h q j) else lookup child h r π' j := by
  unfold lookup
  rw [node_link ht hp hd hc hq hz he hπ'.le]
  have hqp : q ≠ p := by
    rintro rfl
    exact hq π hd.le hp
  split
  · rw [map_some, set_of_ne fun hqp' => absurd hqp' hqp]
  · cases hp' : node child h r π' with
    | none => rfl
    | some p' =>
      rw [map_some, map_some, set_of_ne]
      rintro rfl
      rw [ht π' π p' hπ'.le hd.le hp' hp] at hπ'
      omega

theorem Fresh.link {p' : α} (hne : p' ≠ q) (hp' : Fresh child h r d p') :
    Fresh child (set h p i e) r d p' := by
  intro π' hπ'
  rw [node_link ht hp hd hc hq hz he hπ']
  split
  · exact fun heq => hne (some.inj heq).symm
  · exact hp' π' hπ'

theorem Tree.link : Tree child (set h p i e) r d := by
  intro π1 π2 p' h1 h2 hp1 hp2
  rw [node_link ht hp hd hc hq hz he h1] at hp1
  rw [node_link ht hp hd hc hq hz he h2] at hp2
  by_cases e1 : π1 = π ++ [i] <;> by_cases e2 : π2 = π ++ [i]
  · rw [e1, e2]
  · rw [if_pos e1] at hp1
    rw [if_neg e2, ← hp1] at hp2
    exact absurd hp2 (hq π2 h2)
  · rw [if_pos e2] at hp2
    rw [if_neg e1, ← hp2] at hp1
    exact absurd hp1 (hq π1 h1)
  · rw [if_neg e1] at hp1
    rw [if_neg e2] at hp2
    exact ht π1 π2 p' h1 h2 hp1 hp2

end Set

/-! ## Subtrees -/

section Subtree
variable {c c' : α} {j : ι}

variable (child) in
/-- A path of length at most `d` leads to the node. -/
def Reaches (h : α → ι → ω) (r : α) (d : Nat) (q : α) : Prop :=
  ∃ π, π.length ≤ d ∧ node child h r π = some q

theorem fresh_iff : Fresh child h r d q ↔ ¬ Reaches child h r d q := by
  simp [Fresh, Reaches]

theorem reaches_self : Reaches child h r d r := ⟨[], Nat.zero_le d, rfl⟩

theorem reaches_zero : Reaches child h r 0 q ↔ r = q := by
  refine ⟨fun ⟨π, hπ, hq⟩ => ?_, fun h => h ▸ reaches_self⟩
  rw [length_eq_zero_iff.mp (Nat.le_zero.mp hπ)] at hq
  exact some.inj hq

theorem reaches_succ :
    Reaches child h r (d + 1) q ↔
      r = q ∨ ∃ i c, child (h r i) = some c ∧ Reaches child h c d q := by
  constructor
  · rintro ⟨π, hπ, hq⟩
    cases π with
    | nil => exact .inl (some.inj hq)
    | cons i π =>
      obtain ⟨c, hc, hq⟩ := Option.bind_eq_some_iff.mp hq
      exact .inr ⟨i, c, hc, π, Nat.le_of_succ_le_succ hπ, hq⟩
  · rintro (rfl | ⟨i, c, hc, π, hπ, hq⟩)
    · exact reaches_self
    · exact ⟨i :: π, Nat.succ_le_succ hπ, Option.bind_eq_some_iff.mpr ⟨c, hc, hq⟩⟩

theorem node_child (hc : child (h r i) = some c) (π : List ι) :
    node child h r (i :: π) = node child h c π := by
  rw [node, hc, Option.bind_some]

section
variable (ht : Tree child h r (d + 1)) (hc : child (h r i) = some c)
include ht hc

theorem Tree.sub : Tree child h c d := by
  intro π π' p hπ hπ' hp hp'
  have := ht (i :: π) (i :: π') p (Nat.succ_le_succ hπ) (Nat.succ_le_succ hπ')
    ((node_child hc π).trans hp) ((node_child hc π').trans hp')
  exact (cons.inj this).2

theorem Tree.sub_disjoint (hc' : child (h r j) = some c') (hij : i ≠ j) (hq : Reaches child h c d q)
    :
    ¬ Reaches child h c' d q := by
  rintro ⟨π', hπ', hp'⟩
  obtain ⟨π, hπ, hp⟩ := hq
  have := ht (i :: π) (j :: π') q (Nat.succ_le_succ hπ) (Nat.succ_le_succ hπ')
    ((node_child hc π).trans hp) ((node_child hc' π').trans hp')
  exact hij (cons.inj this).1

theorem Tree.fresh_root : ¬ Reaches child h c d r := by
  rintro ⟨π, hπ, hp⟩
  cases ht (i :: π) [] r (Nat.succ_le_succ hπ) (Nat.zero_le _) ((node_child hc π).trans hp) rfl

end

/-- The paths only depend on the nodes that they reach. -/
theorem node_congr_reaches (hh : ∀ q, Reaches child h r d q → h' q = h q) (hπ : π.length ≤ d) :
    node child h' r π = node child h r π := by
  refine node_congr fun π1 j π2 p he hp => ?_
  have hlen : π1.length ≤ d := by
    rw [he, length_append] at hπ
    omega
  rw [hh p ⟨π1, hlen, hp⟩]

end Subtree

end Lib.Trie
