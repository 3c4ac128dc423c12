import Mathlib.Data.List.Basic

/-!
# The matcher of grep

`match`, `matchhere` and `matchstar` of `grep.c`. A `char *` is the list of the bytes from there to
the end of the array, and a read behind the end is `none`. The functions are total.

- `scan`: the loops of `match` and `matchstar`.
- `Lang re w rest`: the word `w` is in the language of `re`, in a text that goes on with `rest`.
-/

namespace Xv6.Grep

open List

abbrev Byte := BitVec 8

def chr (c : Char) : Byte := BitVec.ofNat 8 c.toNat

/-- `do { if(here(text)) return 1; } while(more(*text++)); return 0;` -/
def scan (here : List Byte → Option Bool) (more : Byte → Bool) : List Byte → Option Bool
  | [] => do if ← here [] then return true else none
  | t :: ts => do
    if ← here (t :: ts) then return true
    else if more t then scan here more ts
    else return false

/-- `matchstar(c, re, text)`, where `here` is `matchhere(re, ·)`. -/
def matchstar (c : Byte) (here : List Byte → Option Bool) (text : List Byte) : Option Bool :=
  scan here (fun t => t ≠ 0#8 ∧ (t = c ∨ c = chr '.')) text

def matchhere : List Byte → List Byte → Option Bool
  | [], _ => none
  | [r], _ => if r = 0#8 then some true else none
  | r :: r₁ :: re, text =>
    if r = 0#8 then some true
    else if r₁ = chr '*' then matchstar r (fun text => matchhere re text) text
    else if r = chr '$' ∧ r₁ = 0#8 then text.head?.map (· = 0#8)
    else
      match text with
      | [] => none
      | t :: ts =>
        if t ≠ 0#8 ∧ (r = chr '.' ∨ r = t) then matchhere (r₁ :: re) ts else some false

/-- `match(re, text)`. -/
def matchText (re text : List Byte) : Option Bool :=
  match re with
  | [] => none
  | r :: re' => if r = chr '^' then matchhere re' text else scan (matchhere re) (· ≠ 0#8) text

/-! ## The language of a pattern -/

/-- The character `c` of a pattern stands for `x`. -/
def Is (c x : Byte) : Prop := c = chr '.' ∨ c = x

inductive Lang : List Byte → List Byte → List Byte → Prop where
  | nil {rest} : Lang [] [] rest
  | star {c re w u rest} (hw : ∀ x ∈ w, Is c x) (hu : Lang re u rest) :
    Lang (c :: chr '*' :: re) (w ++ u) rest
  | stop : Lang [chr '$'] [] []
  | one {c re x u rest} (hstar : re.head? ≠ some (chr '*')) (hstop : ¬ (c = chr '$' ∧ re = []))
    (hx : Is c x) (hu : Lang re u rest) : Lang (c :: re) (x :: u) rest

/-- The text begins with a word of the language. -/
def Here (re text : List Byte) : Prop := ∃ u rest, text = u ++ rest ∧ Lang re u rest

/-- Some substring of the text, or a prefix for a pattern with `^`, is in the language. -/
def Found (re text : List Byte) : Prop :=
  if re.head? = some (chr '^') then Here re.tail text
  else ∃ w u, text = w ++ u ∧ Here re u

variable {c r : Byte} {re text ts j : List Byte}

theorem here_star : Here (c :: chr '*' :: re) text ↔
    ∃ w u, text = w ++ u ∧ (∀ x ∈ w, Is c x) ∧ Here re u := by
  constructor
  · rintro ⟨_, rest, rfl, h⟩
    cases h with
    | star hw hu => exact ⟨_, _, append_assoc .., hw, _, _, rfl, hu⟩
    | one hstar => exact absurd rfl hstar
  · rintro ⟨w, _, rfl, hw, u, rest, rfl, hu⟩
    exact ⟨w ++ u, rest, (append_assoc ..).symm, .star hw hu⟩

theorem here_stop : Here [chr '$'] text ↔ text = [] := by
  constructor
  · rintro ⟨_, rest, rfl, h⟩
    cases h with
    | stop => rfl
    | one _ hstop => exact absurd ⟨rfl, rfl⟩ hstop
  · rintro rfl
    exact ⟨[], [], rfl, .stop⟩

theorem here_one (hstar : re.head? ≠ some (chr '*')) (hstop : ¬ (c = chr '$' ∧ re = [])) :
    Here (c :: re) text ↔ ∃ x ts, text = x :: ts ∧ Is c x ∧ Here re ts := by
  constructor
  · rintro ⟨_, rest, rfl, h⟩
    cases h with
    | star => exact absurd rfl hstar
    | stop => exact absurd ⟨rfl, rfl⟩ hstop
    | one _ _ hx hu => exact ⟨_, _, rfl, hx, _, _, rfl, hu⟩
  · rintro ⟨x, _, rfl, hx, u, rest, rfl, hu⟩
    exact ⟨x :: u, rest, rfl, .one hstar hstop hx hu⟩

/-! ## The functions -/

/-- The function returns, and says whether `p` holds. -/
def Decides (o : Option Bool) (p : Prop) : Prop := ∃ b, o = some b ∧ (b = true ↔ p)

theorem Decides.congr {o : Option Bool} {p q : Prop} (h : Decides o p) (hpq : p ↔ q) :
    Decides o q :=
  h.imp fun _ hb => ⟨hb.1, hb.2.trans hpq⟩

theorem scan_cons {here : List Byte → Option Bool} {more : Byte → Bool} {t : Byte} {b : Bool}
    (h : here (t :: ts) = some b) : scan here more (t :: ts) =
      if b then some true else if more t then scan here more ts else some false := by
  rw [scan, h]
  rfl

theorem scan_decides {here : List Byte → Option Bool} {more : Byte → Bool} {p : List Byte → Prop}
    (hhere : ∀ u, u <:+ text → Decides (here (u ++ 0#8 :: j)) (p u)) (hmore : more 0#8 = false) :
    Decides (scan here more (text ++ 0#8 :: j))
      (∃ w u, text = w ++ u ∧ (∀ x ∈ w, more x) ∧ p u) := by
  induction text with
  | nil =>
    obtain ⟨b, hb, hp⟩ := hhere [] suffix_rfl
    refine ⟨b, ?_, by simp [hp]⟩
    rw [nil_append, scan_cons hb, hmore]
    cases b <;> rfl
  | cons t ts ih =>
    obtain ⟨b, hb, hp⟩ := hhere _ suffix_rfl
    obtain ⟨b', hb', hp'⟩ := ih fun u hu => hhere u (hu.trans (suffix_cons t ts))
    -- the word before the match is empty, or begins with `t`
    have hsplit : (∃ w u, t :: ts = w ++ u ∧ (∀ x ∈ w, more x) ∧ p u) ↔
        p (t :: ts) ∨ more t ∧ ∃ w u, ts = w ++ u ∧ (∀ x ∈ w, more x) ∧ p u := by
      constructor
      · rintro ⟨_ | ⟨x, w⟩, u, he, hw, hu⟩
        · exact .inl (he ▸ hu)
        · cases he
          exact .inr ⟨hw _ mem_cons_self, w, u, rfl,
            fun x hx => hw x (mem_cons_of_mem _ hx), hu⟩
      · rintro (h | ⟨ht, w, u, rfl, hw, hu⟩)
        · exact ⟨[], _, rfl, nofun, h⟩
        · exact ⟨t :: w, u, rfl, forall_mem_cons.mpr ⟨ht, hw⟩, hu⟩
    rw [cons_append] at hb ⊢
    rw [hsplit, ← hp, ← hp', scan_cons hb, hb']
    refine ⟨b || (more t && b'), ?_, by simp⟩
    cases b <;> cases more t <;> rfl

/-- A character that is not followed by `*` and is not the `$` at the end. -/
theorem one_decides (hc : c ≠ 0#8) (hr : r ≠ chr '*') (hstop : ¬ (c = chr '$' ∧ r = 0#8))
    (htext : 0#8 ∉ text) {p : List Byte → Prop}
    (ih : ∀ ts, 0#8 ∉ ts → Decides (matchhere (r :: re) (ts ++ 0#8 :: j)) (p ts)) :
    Decides (matchhere (c :: r :: re) (text ++ 0#8 :: j))
      (∃ x ts, text = x :: ts ∧ Is c x ∧ p ts) := by
  cases text with
  | nil => exact ⟨false, by simp [matchhere, hc, hr, hstop], by simp⟩
  | cons t ts =>
    rw [mem_cons, not_or] at htext
    obtain ⟨b, hb, hp⟩ := ih ts htext.2
    by_cases hx : Is c t
    · have hx' : c = chr '.' ∨ c = t := hx
      exact ⟨b, by simp [matchhere, hc, hr, hstop, Ne.symm htext.1, hx', hb], by simp [hx, hp]⟩
    · have hx' : ¬ (c = chr '.' ∨ c = t) := hx
      exact ⟨false, by simp [matchhere, hc, hr, hstop, hx'], by simp [hx]⟩

theorem matchhere_decides {j' : List Byte} : ∀ (re text : List Byte), 0#8 ∉ re → 0#8 ∉ text →
    Decides (matchhere (re ++ 0#8 :: j') (text ++ 0#8 :: j)) (Here re text)
  | [], text, _, _ => by
    refine ⟨true, ?_, iff_of_true rfl ⟨[], text, rfl, .nil⟩⟩
    cases j' <;> rfl
  | [c], text, hre, htext => by
    have hc : c ≠ 0#8 := (ne_of_not_mem_cons hre).symm
    by_cases hs : c = chr '$'
    · subst hs
      rw [here_stop]
      refine ⟨decide (text = []), ?_, decide_eq_true_iff⟩
      cases text with
      | nil => rfl
      | cons t ts =>
        have ht : t ≠ 0#8 := (ne_of_not_mem_cons htext).symm
        simp [matchhere, ht, chr]
    · rw [here_one (by simp) fun h => hs h.1]
      exact one_decides hc (by decide) (fun h => hs h.1) htext fun ts hts =>
        matchhere_decides [] ts nofun hts
  | c :: r :: re, text, hre, htext => by
    rw [mem_cons, not_or] at hre
    have hc : c ≠ 0#8 := Ne.symm hre.1
    by_cases hr : r = chr '*'
    · subst hr
      have hmatch : matchhere (c :: chr '*' :: re ++ 0#8 :: j') (text ++ 0#8 :: j) =
          matchstar c (matchhere (re ++ 0#8 :: j')) (text ++ 0#8 :: j) := by
        simp [matchhere, hc]
      rw [here_star, hmatch]
      refine (scan_decides (fun u hu => matchhere_decides re u (not_mem_of_not_mem_cons hre.2)
        fun h0 => htext (hu.subset h0)) (by simp)).congr ?_
      refine exists₂_congr fun w u => and_congr_right fun he => and_congr_left fun _ =>
        forall₂_congr fun x hx => ?_
      have hx0 : x ≠ 0#8 := fun h0 => htext (he ▸ mem_append_left _ (h0 ▸ hx))
      rw [decide_eq_true_iff, and_iff_right hx0, or_comm, eq_comm (b := c)]
      rfl
    · have hr0 : r ≠ 0#8 := (ne_of_not_mem_cons hre.2).symm
      rw [here_one (by simpa using hr) (by simp)]
      exact one_decides hc hr (fun h => hr0 h.2) htext fun ts hts =>
        matchhere_decides (r :: re) ts hre.2 hts

theorem matchText_decides (hre : 0#8 ∉ re) (htext : 0#8 ∉ text) (j j' : List Byte) :
    Decides (matchText (re ++ 0#8 :: j') (text ++ 0#8 :: j)) (Found re text) := by
  have hscan : Decides (scan (matchhere (re ++ 0#8 :: j')) (· ≠ 0#8) (text ++ 0#8 :: j))
      (∃ w u, text = w ++ u ∧ Here re u) := by
    refine (scan_decides (fun u hu => matchhere_decides re u hre fun h0 => htext (hu.subset h0))
      (by simp)).congr ?_
    refine exists₂_congr fun w u => and_congr_right fun he => and_iff_right fun x hx => ?_
    have hx0 : x ≠ 0#8 := fun h0 => htext (he ▸ mem_append_left _ (h0 ▸ hx))
    simpa using hx0
  cases re with
  | nil => exact hscan
  | cons r re =>
    by_cases hr : r = chr '^'
    · have h : Decides (matchhere (re ++ 0#8 :: j') (text ++ 0#8 :: j)) (Here re text) :=
        matchhere_decides re text (not_mem_of_not_mem_cons hre) htext
      simpa [matchText, Found, hr] using h
    · simpa [matchText, Found, hr] using hscan

/-- `match` returns 1 for the texts with a match of the pattern and 0 for the others, and reads
neither string behind its NUL. -/
theorem match_exact (hre : 0#8 ∉ re) (htext : 0#8 ∉ text) :
    Decides (matchText (re ++ [0#8]) (text ++ [0#8])) (Found re text) :=
  matchText_decides hre htext [] []

/-- `^a*b$` and `aab`. -/
theorem match_exact_aab :
    Decides (matchText ("^a*b$".toList.map chr ++ [0#8]) ("aab".toList.map chr ++ [0#8]))
      (Found ("^a*b$".toList.map chr) ("aab".toList.map chr)) ∧
    matchText ("^a*b$".toList.map chr ++ [0#8]) ("aab".toList.map chr ++ [0#8]) = some true :=
  ⟨match_exact (by decide) (by decide), by decide⟩

end Xv6.Grep
