import Xv6Rcu.User.Match
import Xv6Rcu.User.Memmove

/-!
# The loop of grep

`grep` of `grep.c`: it reads into a buffer, prints the lines of the buffer that match, and moves the
rest of the last line to the front. `base` is the address of the buffer.

- `readLen`: what `read` returns. It may cut the input anywhere, as `pick` says.
- `St.asks`: the sizes of the reads, with the number of bytes that are left then.
-/

namespace Xv6.Grep

open List
open BitVec (ofNat)

/-- `sizeof(buf)`. -/
def BUFSIZE : Nat := 1024

/-- The offset of the character. -/
def strchr (c : Byte) : List Byte → Option (Option Nat)
  | [] => none
  | x :: xs =>
    if x = 0#8 then some none
    else if x = c then some (some 0)
    else (strchr c xs).map (·.map (· + 1))

/-- `memmove(buf, p, m)`. -/
def moveFront (base : BitVec 64) (buf : List Byte) (p m : Nat) : List Byte :=
  let mem := Str.Ulib.memmove (fun a => buf.getD (a - base).toNat 0) base
    (base + ofNat 64 p) (ofNat 32 m)
  (List.range buf.length).map fun i => mem (base + ofNat 64 i)

/-- The loop over the lines: the buffer, `p`, and what is written to the output. -/
def linesLoop (pat : List Byte) : Nat → List Byte → Nat → List Byte →
    Option (List Byte × Nat × List Byte)
  | 0, _, _, _ => none
  | fuel + 1, buf, p, out => do
    match ← strchr (chr '\n') (buf.drop p) with
    | none => return (buf, p, out)
    | some k =>
      let q := p + k
      let buf := buf.set q 0
      if ← matchText pat (buf.drop p) then
        let buf := buf.set q (chr '\n')
        linesLoop pat fuel buf (q + 1) (out ++ (buf.drop p).take (q + 1 - p))
      else linesLoop pat fuel buf (q + 1) out

/-- What `read` returns for `n` bytes, when `inp` is left. -/
def readLen (n : Nat) (inp : List Byte) (pick : Nat) : Nat :=
  if n = 0 ∨ inp = [] then 0 else max 1 (min pick (min n inp.length))

structure St where
  buf : List Byte
  m : Nat := 0
  out : List Byte := []
  asks : List (Nat × Nat) := []

def grep (pat : List Byte) (base : BitVec 64) : Nat → (Nat → Nat) → St → List Byte → Option St
  | 0, _, _, _ => none
  | fuel + 1, pick, s, inp => do
    let n := readLen (BUFSIZE - s.m - 1) inp (pick 0)
    let asks := s.asks ++ [(BUFSIZE - s.m - 1, inp.length)]
    if n = 0 then return { s with asks }
    let m := s.m + n
    let buf := (s.buf.take s.m ++ inp.take n ++ s.buf.drop m).set m 0
    let (buf, p, out) ← linesLoop pat BUFSIZE buf 0 s.out
    let s := if m > 0 then ⟨moveFront base buf p (m - p), m - p, out, asks⟩ else ⟨buf, m, out, asks⟩
    grep pat base fuel (fun i => pick (i + 1)) s (inp.drop n)

/-! ## What is printed -/

/-- The line matches. -/
def matchesLine (pat l : List Byte) : Bool := matchText (pat ++ [0#8]) (l ++ [0#8]) = some true

/-- The lines, each with its newline. -/
def text (ls : List (List Byte)) : List Byte := ls.flatMap (· ++ [chr '\n'])

def selected (pat : List Byte) (ls : List (List Byte)) : List Byte :=
  text (ls.filter (matchesLine pat))

/-- A line that fits in the buffer. -/
structure Line (l : List Byte) : Prop where
  nul : 0#8 ∉ l
  newline : chr '\n' ∉ l
  length : l.length ≤ BUFSIZE - 2

variable {pat s inp l r done : List Byte} {ls : List (List Byte)} {base : BitVec 64}

theorem matchText_line (hpat : 0#8 ∉ pat) (hl : 0#8 ∉ l) (junk : List Byte) :
    matchText (pat ++ [0#8]) (l ++ 0#8 :: junk) = some (matchesLine pat l) := by
  obtain ⟨b, hb, hp⟩ := matchText_decides hpat hl junk []
  obtain ⟨b', hb', hp'⟩ := matchText_decides hpat hl [] []
  rw [hb, matchesLine, hb', Bool.eq_iff_iff.mpr (hp.trans hp'.symm)]
  cases b' <;> rfl

/-- The characters before the first newline or NUL are passed over. -/
theorem strchr_append (h0 : 0#8 ∉ l) (hn : chr '\n' ∉ l) :
    strchr (chr '\n') (l ++ r) = (strchr (chr '\n') r).map (·.map (l.length + ·)) := by
  induction l with
  | nil => simp
  | cons x l ih =>
    rw [mem_cons, not_or] at h0 hn
    rw [cons_append, strchr, if_neg (Ne.symm h0.1), if_neg (Ne.symm hn.1), ih h0.2 hn.2]
    cases strchr (chr '\n') r with
    | none => rfl
    | some o => cases o <;> simp; omega

theorem text_cons : text (l :: ls) = l ++ chr '\n' :: text ls := by
  simp [text]

theorem nul_text (hls : ∀ l ∈ ls, Line l) : 0#8 ∉ text ls := by
  intro h0
  obtain ⟨l, hl, h0⟩ := mem_flatMap.mp h0
  rcases mem_append.mp h0 with h0 | h0
  · exact (hls l hl).nul h0
  · exact absurd h0 (by decide)

/-- The text begins with `s`, where there is a newline: the first line ends there. -/
theorem text_split (hls : ∀ l ∈ ls, Line l) (h : text ls = s ++ inp) (hn : chr '\n' ∈ s) :
    ∃ l ls' s', ls = l :: ls' ∧ s = l ++ chr '\n' :: s' ∧ text ls' = s' ++ inp := by
  obtain ⟨a, b, rfl, ha⟩ := eq_append_cons_of_mem hn
  cases ls with
  | nil => simp [text] at h
  | cons l ls =>
    rw [text_cons, append_assoc] at h
    have hl := (hls l mem_cons_self).newline
    rcases append_eq_append_iff.mp h with ⟨_ | ⟨x, c⟩, hc, he⟩ | ⟨_ | ⟨x, c⟩, hc, he⟩ <;>
      obtain ⟨hx, he⟩ := cons.inj he
    · exact ⟨l, ls, b, rfl, by rw [hc, append_nil], he⟩
    · exact absurd (by simp [hc, hx]) ha
    · exact ⟨l, ls, b, rfl, by rw [hc, append_nil], he.symm⟩
    · exact absurd (by simp [hc, hx]) hl

theorem selected_cons : selected pat (l :: ls) = selected pat [l] ++ selected pat ls := by
  simp only [selected, filter_cons]
  split <;> simp [text]

theorem set_mid (x y : Byte) :
    (done ++ (l ++ x :: r)).set (done.length + l.length) y = done ++ (l ++ y :: r) := by
  simp

/-- A round of the loop: what is left in place of the newline depends on the match. -/
theorem linesLoop_line (hpat : 0#8 ∉ pat) (hl : Line l) (fuel : Nat) (done r out : List Byte) : ∃ y,
    linesLoop (pat ++ [0#8]) (fuel + 1) (done ++ (l ++ chr '\n' :: r)) done.length out =
      linesLoop (pat ++ [0#8]) fuel (done ++ (l ++ [y]) ++ r) (done ++ (l ++ [y])).length
        (out ++ selected pat [l]) := by
  have hchr : strchr (chr '\n') (l ++ chr '\n' :: r) = some (some l.length) := by
    rw [strchr_append hl.nul hl.newline]
    rfl
  have hlen : ∀ y : Byte, done.length + l.length + 1 = (done ++ (l ++ [y])).length := by
    simp [add_assoc]
  have hbuf : ∀ y, done ++ (l ++ y :: r) = done ++ (l ++ [y]) ++ r := by simp
  rw [linesLoop, drop_left, hchr]
  simp only [Option.bind_eq_bind, Option.bind_some, BitVec.ofNat_eq_ofNat, set_mid, drop_left,
    matchText_line hpat hl.nul]
  cases hm : matchesLine pat l with
  | true =>
    refine ⟨chr '\n', ?_⟩
    have htake : (l ++ chr '\n' :: r).take (done.length + l.length + 1 - done.length) =
        selected pat [l] := by
      simp [selected, hm, text, add_assoc, take_append]
    rw [if_pos rfl, htake, hlen (chr '\n'), hbuf]
  | false =>
    refine ⟨0#8, ?_⟩
    have hnone : selected pat [l] = [] := by simp [selected, hm, text]
    rw [if_neg (by simp), hnone, append_nil, hlen 0#8, hbuf]

/-- The loop prints the lines that are complete, and stops at the start of the rest. -/
theorem linesLoop_eq (hpat : 0#8 ∉ pat) {fuel : Nat} (hfuel : s.length < fuel)
    (hls : ∀ l ∈ ls, Line l) (h : text ls = s ++ inp) (done junk out : List Byte) :
    ∃ done' s' ls' out',
      linesLoop (pat ++ [0#8]) fuel (done ++ (s ++ 0#8 :: junk)) done.length out =
        some (done' ++ (s' ++ 0#8 :: junk), done'.length, out') ∧
      done'.length + s'.length = done.length + s.length ∧ chr '\n' ∉ s' ∧
      (∀ l ∈ ls', Line l) ∧ text ls' = s' ++ inp ∧
      out' ++ selected pat ls' = out ++ selected pat ls := by
  induction fuel generalizing s done ls out with
  | zero => omega
  | succ fuel ih =>
    by_cases hn : chr '\n' ∈ s
    · obtain ⟨l, ls', s', rfl, rfl, htext⟩ := text_split hls h hn
      rw [append_assoc, cons_append]
      obtain ⟨y, hround⟩ :=
        linesLoop_line hpat (hls l mem_cons_self) fuel done (s' ++ 0#8 :: junk) out
      rw [hround]
      obtain ⟨done', s'', ls'', out', hrun, hlen, hn', hls', htext', hout⟩ :=
        ih (by simp at hfuel; omega) (fun l hl => hls l (mem_cons_of_mem _ hl)) htext
          (done ++ (l ++ [y])) (out ++ selected pat [l])
      refine ⟨done', s'', ls'', out', hrun, ?_, hn', hls', htext', ?_⟩
      · simp at hlen ⊢
        omega
      · rw [hout, append_assoc, ← selected_cons]
    · have hs : 0#8 ∉ s := fun h0 => nul_text hls (h ▸ mem_append_left _ h0)
      refine ⟨done, s, ls, out, ?_, rfl, hn, hls, h, rfl⟩
      rw [linesLoop, drop_left, strchr_append hs hn]
      rfl

/-! ## Reads -/

theorem offset_toNat {p : Nat} (hp : p < 2 ^ 64) :
    (base + ofNat 64 p - base).toNat = p := by
  rw [add_sub_cancel_left, BitVec.toNat_ofNat, Nat.mod_eq_of_lt hp]

theorem moveFront_take (hbase : base.toNat + BUFSIZE ≤ 2 ^ 64)
    (hlen : (done ++ (s ++ r)).length = BUFSIZE) :
    (moveFront base (done ++ (s ++ r)) done.length s.length).take s.length = s := by
  have hle : done.length + s.length ≤ BUFSIZE := by
    rw [← hlen, length_append, length_append]
    omega
  simp only [BUFSIZE] at hbase hle
  have hk : (ofNat 32 s.length).toInt.toNat = s.length := by
    rw [BitVec.toInt_eq_toNat_of_lt] <;> rw [BitVec.toNat_ofNat] <;> omega
  have hsrc : (base + ofNat 64 done.length).toNat + s.length ≤ 2 ^ 64 := by bv_omega
  refine ext_getElem (by simp [moveFront]; omega) fun i hi hs => ?_
  simp only [moveFront, getElem_take, getElem_map, getElem_range]
  rw [Str.Ulib.memmove_eq (by omega) (by rwa [hk]), Str.moved, hk, offset_toNat (by omega),
    if_pos hs, add_sub_cancel_left base (ofNat 64 i), add_assoc, ← BitVec.ofNat_add,
    offset_toNat (by omega)]
  simp [getElem?_append_right, getElem?_append_left hs, getElem?_eq_getElem hs]

/-- The rest of a line is shorter than the buffer, so the next `read` asks for at least a byte. -/
theorem rest_le (hls : ∀ l ∈ ls, Line l) (h : text ls = s ++ inp) (hn : chr '\n' ∉ s)
    (hinp : inp ≠ []) : s.length ≤ BUFSIZE - 2 := by
  cases ls with
  | nil => exact absurd (append_eq_nil_iff.mp h.symm).2 hinp
  | cons l ls =>
    refine le_trans ?_ (hls l mem_cons_self).length
    rw [text_cons] at h
    rcases append_eq_append_iff.mp h with ⟨_ | ⟨x, c⟩, hc, he⟩ | ⟨c, hc, -⟩
    · rw [hc, append_nil]
    · exact absurd (by simp [hc, (cons.inj he).1]) hn
    · simp [hc]

theorem rest_nil (h : text ls = s) (hn : chr '\n' ∉ s) : ls = [] := by
  cases ls with
  | nil => rfl
  | cons l ls =>
    rw [text_cons] at h
    exact absurd (h ▸ mem_append_right _ mem_cons_self) hn

/-- The start of a round: the front of the buffer is the rest of a line, and `ls` is still to be
looked at. -/
structure Ready (st : St) (inp : List Byte) (ls : List (List Byte)) (rest : List Byte) : Prop where
  length : st.buf.length = BUFSIZE
  front : st.buf.take st.m = rest
  m : st.m = rest.length
  newline : chr '\n' ∉ rest
  lines : ∀ l ∈ ls, Line l
  text : text ls = rest ++ inp
  asks : ∀ a ∈ st.asks, a.2 ≠ 0 → a.1 ≠ 0

theorem readLen_bounds {n k : Nat} (hn : n ≠ 0) (hinp : inp ≠ []) :
    0 < readLen n inp k ∧ readLen n inp k ≤ n ∧ readLen n inp k ≤ inp.length := by
  have := length_pos_of_ne_nil hinp
  rw [readLen, if_neg (by simp [hn, hinp])]
  omega

theorem grep_round {fuel n p : Nat} {pick : Nat → Nat} {st : St} {buf : List Byte}
    (hn : readLen (BUFSIZE - st.m - 1) inp (pick 0) = n) (hpos : 0 < n)
    {out : List Byte} (hrun : linesLoop pat BUFSIZE ((st.buf.take st.m ++ inp.take n ++
      st.buf.drop (st.m + n)).set (st.m + n) 0) 0 st.out = some (buf, p, out)) :
    grep pat base (fuel + 1) pick st inp = grep pat base fuel (fun i => pick (i + 1))
      ⟨moveFront base buf p (st.m + n - p), st.m + n - p, out,
        st.asks ++ [(BUFSIZE - st.m - 1, inp.length)]⟩ (inp.drop n) := by
  rw [grep, hn]
  simp only [if_neg hpos.ne', hrun, Option.bind_eq_bind, Option.bind_some,
    if_pos (Nat.add_pos_right st.m hpos)]

theorem Ready.grep (hpat : 0#8 ∉ pat) (hbase : base.toNat + BUFSIZE ≤ 2 ^ 64) {fuel : Nat}
    {pick : Nat → Nat} {st : St} {rest : List Byte} (hfuel : inp.length < fuel)
    (h : Ready st inp ls rest) :
    ∃ st', grep (pat ++ [0#8]) base fuel pick st inp = some st' ∧
      st'.out = st.out ++ selected pat ls ∧ ∀ a ∈ st'.asks, a.2 ≠ 0 → a.1 ≠ 0 := by
  induction fuel generalizing pick st inp ls rest with
  | zero => omega
  | succ fuel ih =>
    by_cases hinp : inp = []
    · subst hinp
      have hnil : ls = [] := rest_nil (h.text.trans (append_nil _)) h.newline
      have hzero : readLen (BUFSIZE - st.m - 1) [] (pick 0) = 0 := if_pos (.inr rfl)
      rw [grep, hzero]
      refine ⟨_, rfl, by simp [hnil, selected, Grep.text], ?_⟩
      exact forall_mem_append.mpr ⟨h.asks, by simp⟩
    have hle := rest_le h.lines h.text h.newline hinp
    have hm := h.m
    have hlen := h.length
    have hroom : BUFSIZE - st.m - 1 ≠ 0 := by
      simp only [BUFSIZE] at *
      omega
    obtain ⟨hpos, hask, hn⟩ := readLen_bounds (k := pick 0) hroom hinp
    generalize hread : readLen (BUFSIZE - st.m - 1) inp (pick 0) = n at *
    have hend : (rest ++ inp.take n).length = st.m + n := by
      rw [length_append, length_take]
      omega
    have hfit : st.m + n < BUFSIZE := by omega
    have htext : Grep.text ls = rest ++ inp.take n ++ inp.drop n := by
      rw [append_assoc, take_append_drop, h.text]
    have hbuf : (st.buf.take st.m ++ inp.take n ++ st.buf.drop (st.m + n)).set (st.m + n) 0 =
        [] ++ ((rest ++ inp.take n) ++ 0#8 :: st.buf.drop (st.m + n + 1)) := by
      rw [h.front, drop_eq_getElem_cons (by omega), set_append_right _ _ hend.le, hend,
        Nat.sub_self]
      rfl
    obtain ⟨done, s, ls', out, hrun, hlen', hn', hls', htext', hout⟩ :=
      linesLoop_eq hpat (hend ▸ hfit) h.lines htext [] (st.buf.drop (st.m + n + 1)) st.out
    rw [length_nil] at hlen'
    have htotal : (done ++ (s ++ 0#8 :: st.buf.drop (st.m + n + 1))).length = BUFSIZE := by
      simp only [length_append, length_cons, length_drop]
      omega
    have hready : Ready ⟨moveFront base (done ++ (s ++ 0#8 :: st.buf.drop (st.m + n + 1)))
        done.length s.length, s.length, out, st.asks ++ [(BUFSIZE - st.m - 1, inp.length)]⟩
        (inp.drop n) ls' s :=
      ⟨by rw [moveFront, length_map, length_range, htotal], moveFront_take hbase htotal, rfl, hn',
        hls', htext', forall_mem_append.mpr ⟨h.asks, by simp [hroom]⟩⟩
    rw [grep_round hread hpos (hbuf ▸ hrun), ← hout,
      show st.m + n - done.length = s.length by omega]
    exact ih (by rw [length_drop]; omega) hready

/-- However `read` cuts the input, `grep` prints the lines that match, and it asks for no empty read
before the end of the input. -/
theorem grep_chunks (hpat : 0#8 ∉ pat) (hls : ∀ l ∈ ls, Line l)
    (hbase : base.toNat + BUFSIZE ≤ 2 ^ 64) {buf : List Byte} (hbuf : buf.length = BUFSIZE)
    (pick : Nat → Nat) {fuel : Nat} (hfuel : (text ls).length < fuel) :
    ∃ st, grep (pat ++ [0#8]) base fuel pick { buf } (text ls) = some st ∧
      st.out = selected pat ls ∧ ∀ a ∈ st.asks, a.2 ≠ 0 → a.1 ≠ 0 := by
  have h : Ready { buf } (text ls) ls [] := ⟨hbuf, rfl, rfl, by simp, hls, rfl, by simp⟩
  exact h.grep hpat hbase hfuel

/-- Two lines, of which one matches, read byte by byte. -/
theorem grep_chunks_twoLines : ∃ st,
    grep ([chr 'a'] ++ [0#8]) 4096 9 (fun _ => 1) { buf := replicate 1024 0 }
      (text ["ba".toList.map chr, "c".toList.map chr]) = some st ∧
    st.out = "ba\n".toList.map chr ∧ ∀ a ∈ st.asks, a.2 ≠ 0 → a.1 ≠ 0 := by
  refine grep_chunks (by decide) (fun l hl => ?_) (by decide) length_replicate _ (by decide)
  simp only [mem_cons, not_mem_nil, or_false] at hl
  rcases hl with rfl | rfl <;> exact ⟨by decide, by decide, by decide⟩

end Xv6.Grep
