import Mathlib.Data.List.DropRight
import Xv6Rcu.Lib.Triple
import Xv6Rcu.Kernel.Types

/-!
# The parser of the shell

`sh.c`: `gettoken`, `peek` and the parse functions, over a cursor into the input. Pointers into the
input are offsets. The functions that call each other take a bound on the depth of the calls.

- `Cmd` are the commands as the parser builds them, with `argv` and `eargv` arrays; `Cmd.setArg` is
  the store to `cmd->argv[argc]`, where `cmd` is the `execcmd` that `ret` wraps.
- `nulterminate` writes the NULs, and `Cmd.tree` reads the command back with its strings.
- `tokens` is the token sequence of a string. `peek_eq`, `gettoken_word`, `gettoken_symbol`,
  `gettoken_end`: what the two functions do, in terms of the tokens that are left.
-/

namespace Xv6.Sh

open Lib List

def MAXARGS : Nat := 10

def O_RDONLY : Nat := 0x000

def O_WRONLY : Nat := 0x001

def O_CREATE : Nat := 0x200

def O_TRUNC : Nat := 0x400

/-! ## The cursor -/

/-- `*ps` as an offset, and the characters from there to `es`. -/
structure Cursor where
  pos : Nat
  rest : List Char

/-- Why the parser does not return. -/
inductive Stop where
  | panic (msg : String)
  /-- A store behind the end of `argv`. -/
  | overflow
  /-- The bound is used up. -/
  | spin
  deriving DecidableEq

abbrev ParseM := EStateM Stop Cursor

def whitespace : List Char := [' ', '\t', '\r', '\n', '\x0b']

def symbols : List Char := ['<', '|', '>', '&', ';', '(', ')']

def isSpace (c : Char) : Bool := whitespace.contains c

def isSymbol (c : Char) : Bool := symbols.contains c

/-- A character of a word. -/
def isWord (c : Char) : Bool := !isSpace c && !isSymbol c

/-- `while(s < es && p(*s)) s++`. -/
def Cursor.skipWhile (s : Cursor) (p : Char → Bool) : Cursor :=
  ⟨s.pos + (s.rest.takeWhile p).length, s.rest.dropWhile p⟩

def Cursor.advance (s : Cursor) (n : Nat) : Cursor := ⟨s.pos + n, s.rest.drop n⟩

/-- The `switch` of `gettoken`: the result, and `s` behind the token. -/
def Cursor.scan (s : Cursor) : Char × Cursor :=
  match s.rest with
  | [] => ('\x00', s)
  | c :: r =>
    if ['|', '(', ')', ';', '&', '<'].contains c then (c, s.advance 1)
    else if c = '>' then if r.head? = some '>' then ('+', s.advance 2) else ('>', s.advance 1)
    else ('a', s.skipWhile isWord)

/-- The result with `*q` and `*eq`. -/
def gettoken : ParseM (Char × Nat × Nat) := do
  let s := (← get).skipWhile isSpace
  set (s.scan.2.skipWhile isSpace)
  return (s.scan.1, s.pos, s.scan.2.pos)

def peek (toks : List Char) : ParseM Bool := do
  let s := (← get).skipWhile isSpace
  set s
  return s.rest.head?.any toks.contains

/-! ## Commands -/

inductive Cmd where
  | exec (argv eargv : List Ptr)
  | redir (cmd : Cmd) (file efile mode fd : Nat)
  | pipe (left right : Cmd)
  | list (left right : Cmd)
  | back (cmd : Cmd)

/-- `execcmd()`: `memset` clears the arrays. -/
def execcmd : Cmd := .exec (List.replicate MAXARGS none) (List.replicate MAXARGS none)

/-- The store to the arrays of the `execcmd` that the redirections wrap. -/
def Cmd.setArg (argc : Nat) (q eq : Ptr) : Cmd → Cmd
  | .exec argv eargv => .exec (argv.set argc q) (eargv.set argc eq)
  | .redir cmd file efile mode fd => .redir (cmd.setArg argc q eq) file efile mode fd
  | cmd => cmd

/-- `cmd->argv[argc] = q; cmd->eargv[argc] = eq;` -/
def storeArg (ret : Cmd) (argc : Nat) (q eq : Ptr) : ParseM Cmd :=
  if argc < MAXARGS then return ret.setArg argc q eq else throw .overflow

/-! ## The parse functions -/

/-- The `switch` of `parseredirs`. -/
def redirected (tok : Char) (cmd : Cmd) (q eq : Nat) : Cmd :=
  if tok = '<' then .redir cmd q eq O_RDONLY 0
  else if tok = '>' then .redir cmd q eq (O_WRONLY ||| O_CREATE ||| O_TRUNC) 1
  else if tok = '+' then .redir cmd q eq (O_WRONLY ||| O_CREATE) 1
  else cmd

def parseredirs : Nat → Cmd → ParseM Cmd
  | 0, _ => throw .spin
  | n + 1, cmd => do
    if ← peek ['<', '>'] then
      let (tok, _, _) ← gettoken
      let (t, q, eq) ← gettoken
      if t ≠ 'a' then throw (.panic "missing file for redirection")
      else parseredirs n (redirected tok cmd q eq)
    else return cmd

/-- The loop of `parseexec` over the words. -/
def parseargs : Nat → Nat → Cmd → ParseM Cmd
  | 0, _, _ => throw .spin
  | n + 1, argc, ret => do
    if ← peek ['|', ')', '&', ';'] then storeArg ret argc none none
    else
      let (tok, q, eq) ← gettoken
      if tok = '\x00' then storeArg ret argc none none
      else if tok ≠ 'a' then throw (.panic "syntax")
      else
        let ret ← storeArg ret argc (some q) (some eq)
        if argc + 1 ≥ MAXARGS then throw (.panic "too many args")
        else
          let ret ← parseredirs n ret
          parseargs n (argc + 1) ret

/-- The loop of `parseline` over the `&`. -/
def parsebacks : Nat → Cmd → ParseM Cmd
  | 0, _ => throw .spin
  | n + 1, cmd => do
    if ← peek ['&'] then
      let _ ← gettoken
      parsebacks n (.back cmd)
    else return cmd

mutual

def parseline : Nat → ParseM Cmd
  | 0 => throw .spin
  | n + 1 => do
    let cmd ← parsepipe n
    let cmd ← parsebacks n cmd
    if ← peek [';'] then
      let _ ← gettoken
      let right ← parseline n
      return .list cmd right
    else return cmd

def parsepipe : Nat → ParseM Cmd
  | 0 => throw .spin
  | n + 1 => do
    let cmd ← parseexec n
    if ← peek ['|'] then
      let _ ← gettoken
      let right ← parsepipe n
      return .pipe cmd right
    else return cmd

def parseblock : Nat → ParseM Cmd
  | 0 => throw .spin
  | n + 1 => do
    if !(← peek ['(']) then throw (.panic "parseblock")
    else
      let _ ← gettoken
      let cmd ← parseline n
      if !(← peek [')']) then throw (.panic "syntax - missing )")
      else
        let _ ← gettoken
        parseredirs n cmd

def parseexec : Nat → ParseM Cmd
  | 0 => throw .spin
  | n + 1 => do
    if ← peek ['('] then parseblock n
    else
      let ret ← parseredirs n execcmd
      parseargs n 0 ret

end

/-- `for(i=0; argv[i]; i++) *eargv[i] = 0`. -/
def terminateArgs : List (Ptr × Ptr) → List Char → List Char
  | (some _, some e) :: l, buf => terminateArgs l (buf.set e '\x00')
  | _, buf => buf

def nulterminate : Cmd → List Char → List Char
  | .exec argv eargv, buf => terminateArgs (argv.zip eargv) buf
  | .redir cmd _ efile _ _, buf => (nulterminate cmd buf).set efile '\x00'
  | .pipe left right, buf => nulterminate right (nulterminate left buf)
  | .list left right, buf => nulterminate right (nulterminate left buf)
  | .back cmd, buf => nulterminate cmd buf

/-- The command and the buffer behind `nulterminate`, for the string `s`. -/
def parsecmd (fuel : Nat) (s : List Char) : EStateM.Result Stop Cursor (Cmd × List Char) :=
  (do
    let cmd ← parseline fuel
    let _ ← peek []
    if (← get).pos ≠ s.length then throw (.panic "syntax")
    else return (cmd, nulterminate cmd (s ++ ['\x00'])) : ParseM (Cmd × List Char)) ⟨0, s⟩

/-! ## What a command says -/

/-- A command with the strings that its pointers point to. -/
inductive Tree where
  | exec (args : List (List Char))
  | redir (cmd : Tree) (file : List Char) (mode fd : Nat)
  | pipe (left right : Tree)
  | list (left right : Tree)
  | back (cmd : Tree)
  deriving DecidableEq

/-- The string at `q`. -/
def cstring (buf : List Char) (q : Nat) : List Char := (buf.drop q).takeWhile (· ≠ '\x00')

/-- The strings of `argv`, up to the `NULL`. -/
def args (buf : List Char) : List Ptr → List (List Char)
  | some q :: argv => cstring buf q :: args buf argv
  | _ => []

def Cmd.tree (buf : List Char) : Cmd → Tree
  | .exec argv _ => .exec (args buf argv)
  | .redir cmd file _ mode fd => .redir (cmd.tree buf) (cstring buf file) mode fd
  | .pipe left right => .pipe (left.tree buf) (right.tree buf)
  | .list left right => .list (left.tree buf) (right.tree buf)
  | .back cmd => .back (cmd.tree buf)

/-! ## Tokens -/

inductive Token where
  | word (w : List Char)
  | lt | gt | append | bar | amp | semi | lparen | rparen
  deriving DecidableEq

/-- The token of one symbol. -/
def symbol (c : Char) : Option Token :=
  if c = '<' then some .lt
  else if c = '>' then some .gt
  else if c = '|' then some .bar
  else if c = '&' then some .amp
  else if c = ';' then some .semi
  else if c = '(' then some .lparen
  else if c = ')' then some .rparen
  else none

/-- The first token of a string without a space in front, and what is behind it. -/
def nextToken : List Char → Option (Token × List Char)
  | [] => none
  | c :: r =>
    match symbol c with
    | some .gt => if r.head? = some '>' then some (.append, r.tail) else some (.gt, r)
    | some t => some (t, r)
    | none => some (.word (c :: r.takeWhile isWord), r.dropWhile isWord)

/-- At most `n` tokens. -/
def tokensN : Nat → List Char → List Token
  | 0, _ => []
  | n + 1, s =>
    match nextToken (s.dropWhile isSpace) with
    | none => []
    | some (t, r) => t :: tokensN n r

def tokens (s : List Char) : List Token := tokensN s.length s

theorem nextToken_length {s r : List Char} {t : Token} (h : nextToken s = some (t, r)) :
    r.length < s.length := by
  cases s with
  | nil => cases h
  | cons c s =>
    simp only [nextToken] at h
    split at h
    · split at h
      · cases h
        simp only [length_tail, length_cons]
        omega
      · cases h
        simp
    · cases h
      simp
    · cases h
      exact Nat.lt_succ_of_le (dropWhile_sublist isWord).length_le

theorem tokensN_eq {n m : Nat} {s : List Char} (hn : s.length ≤ n) (hm : s.length ≤ m) :
    tokensN n s = tokensN m s := by
  induction n generalizing m s with
  | zero =>
    obtain rfl := length_eq_zero_iff.mp (Nat.le_zero.mp hn)
    cases m <;> rfl
  | succ n ih =>
    cases m with
    | zero =>
      obtain rfl := length_eq_zero_iff.mp (Nat.le_zero.mp hm)
      rfl
    | succ m =>
      have hskip := (dropWhile_sublist isSpace (l := s)).length_le
      simp only [tokensN]
      split
      · rfl
      · rename_i t r h
        have hr := nextToken_length h
        rw [ih (m := m) (by omega) (by omega)]

/-- The tokens are read one by one. -/
theorem tokens_eq (s : List Char) : tokens s =
    match nextToken (s.dropWhile isSpace) with
    | none => []
    | some (t, r) => t :: tokens r := by
  cases s with
  | nil => rfl
  | cons c s =>
    have hskip := (dropWhile_sublist isSpace (l := c :: s)).length_le
    rw [tokens, length_cons, tokensN]
    split
    · rfl
    · rename_i t r h
      have hr := nextToken_length h
      rw [length_cons] at hskip
      rw [tokens, tokensN_eq (by omega) (le_refl _)]

theorem tokens_skip (s : List Char) : tokens (s.dropWhile isSpace) = tokens s := by
  rw [tokens_eq (s.dropWhile isSpace), tokens_eq s, dropWhile_idempotent]

/-! ## What `peek` and `gettoken` do -/

/-- What `gettoken` returns for a token. -/
def Token.code : Token → Char
  | .word _ => 'a'
  | .lt => '<'
  | .gt => '>'
  | .append => '+'
  | .bar => '|'
  | .amp => '&'
  | .semi => ';'
  | .lparen => '('
  | .rparen => ')'

/-- The first character of a symbol. -/
def Token.first : Token → Option Char
  | .word _ => none
  | .append => some '>'
  | t => some t.code

/-- The tokens that are left. -/
def Cursor.toks (s : Cursor) : List Token := tokens s.rest

/-- The cursor is in the string `buf`. -/
def Cursor.At (buf : List Char) (s : Cursor) : Prop :=
  ∃ before, buf = before ++ s.rest ∧ before.length = s.pos

/-- The word `w` is in `buf` from `q` to `eq`, and cannot be continued. -/
def Spans (buf : List Char) (q eq : Nat) (w : List Char) : Prop :=
  ∃ before after, buf = before ++ w ++ after ∧ before.length = q ∧ eq = q + w.length ∧
    (∀ c ∈ w, isWord c = true) ∧ ∀ c ∈ after.head?, isWord c = false

section Cursor
variable {buf : List Char} {s : Cursor} {p : Char → Bool} {t : Token} {ts : List Token} {c : Char}

theorem Cursor.At.skipWhile (h : s.At buf) : (s.skipWhile p).At buf := by
  obtain ⟨before, rfl, hpos⟩ := h
  refine ⟨before ++ s.rest.takeWhile p, ?_, ?_⟩
  · simp [skipWhile]
  · simp [skipWhile, hpos]

theorem Cursor.At.advance {n : Nat} (h : s.At buf) (hn : n ≤ s.rest.length) :
    (s.advance n).At buf := by
  obtain ⟨before, rfl, hpos⟩ := h
  refine ⟨before ++ s.rest.take n, ?_, ?_⟩
  · simp [advance]
  · simp [advance, hpos, hn]

theorem toks_skip : (s.skipWhile isSpace).toks = s.toks := tokens_skip s.rest

theorem symbol_code (h : symbol c = some t) : c = t.code ∧ t.first = some c := by
  unfold symbol at h
  split_ifs at h with h1 h2 h3 h4 h5 h6 h7 <;> cases h <;> exact ⟨‹_›, congrArg some (symm ‹_›)⟩

theorem symbol_eq_none : symbol c = none ↔ isSymbol c = false := by
  unfold symbol isSymbol symbols
  split_ifs <;> simp_all

theorem isWord_iff : isWord c = true ↔ isSpace c = false ∧ symbol c = none := by
  rw [symbol_eq_none]
  simp [isWord]

theorem head_dropWhile (p : Char → Bool) (l : List Char) :
    ∀ c ∈ (l.dropWhile p).head?, p c = false := by
  intro c hc
  have h := head?_dropWhile_not p l
  rwa [Option.mem_def.mp hc] at h

/-- A word that the cursor passes. -/
theorem Cursor.At.spans (h : s.At buf) :
    Spans buf s.pos (s.skipWhile isWord).pos (s.rest.takeWhile isWord) := by
  obtain ⟨before, rfl, hpos⟩ := h
  refine ⟨before, s.rest.dropWhile isWord, ?_, hpos, rfl, ?_, head_dropWhile isWord s.rest⟩
  · rw [append_assoc, takeWhile_append_dropWhile]
  · exact fun c hc => mem_takeWhile_imp hc

/-- The `switch` of `gettoken` reads the next token. -/
theorem scan_some (buf : List Char) {r : List Char} (hsp : ∀ c ∈ s.rest.head?, isSpace c = false)
    (h : nextToken s.rest = some (t, r)) : s.scan.1 = t.code ∧ s.scan.2.rest = r ∧
      (s.At buf → s.scan.2.At buf ∧ ∀ w, t = .word w → Spans buf s.pos s.scan.2.pos w) := by
  obtain ⟨pos, rest⟩ := s
  cases rest with
  | nil => cases h
  | cons c rest =>
    simp only [nextToken] at h
    cases hsym : symbol c with
    | none =>
      -- a word
      have hw : isWord c = true := isWord_iff.mpr ⟨hsp c rfl, hsym⟩
      have hsym' := hsym
      unfold symbol at hsym'
      split_ifs at hsym'
      have hscan : Cursor.scan ⟨pos, c :: rest⟩ =
          ('a', Cursor.skipWhile ⟨pos, c :: rest⟩ isWord) := by
        simp [Cursor.scan, *]
      rw [hsym] at h
      cases h
      rw [hscan]
      refine ⟨rfl, by simp [Cursor.skipWhile, hw], fun hat => ⟨hat.skipWhile, ?_⟩⟩
      rintro w ⟨⟩
      have hsp := hat.spans
      rwa [takeWhile_cons_of_pos hw] at hsp
    | some t' =>
      obtain ⟨hc, -⟩ := symbol_code hsym
      rw [hsym] at h
      cases t' with
      | word w => simp only [Token.code] at hc; subst hc; cases hsym
      | append => simp only [Token.code] at hc; subst hc; cases hsym
      | gt =>
        simp only [Token.code] at hc
        subst hc
        dsimp only at h
        split at h
        · rename_i hnext
          cases h
          have hscan : Cursor.scan ⟨pos, '>' :: rest⟩ =
              ('+', Cursor.advance ⟨pos, '>' :: rest⟩ 2) := by
            simp [Cursor.scan, hnext]
          rw [hscan]
          refine ⟨rfl, by simp [Cursor.advance], fun hat => ⟨hat.advance ?_, ?_⟩⟩
          · cases rest with
            | nil => cases hnext
            | cons d rest => simp
          · rintro w ⟨⟩
        · rename_i hnext
          cases h
          have hscan : Cursor.scan ⟨pos, '>' :: r⟩ =
              ('>', Cursor.advance ⟨pos, '>' :: r⟩ 1) := by
            simp [Cursor.scan, hnext]
          rw [hscan]
          refine ⟨rfl, rfl, fun hat => ⟨hat.advance (by simp), ?_⟩⟩
          rintro w ⟨⟩
      | lt | bar | amp | semi | lparen | rparen =>
        subst hc
        cases h
        refine ⟨rfl, rfl, fun hat => ⟨hat.advance (by simp), ?_⟩⟩
        rintro w ⟨⟩

theorem gettoken_eq : gettoken s = .ok
    ((s.skipWhile isSpace).scan.1, (s.skipWhile isSpace).pos, (s.skipWhile isSpace).scan.2.pos)
    ((s.skipWhile isSpace).scan.2.skipWhile isSpace) := rfl

/-- The next token is taken. -/
theorem gettoken_some (buf : List Char) (h : s.toks = t :: ts) :
    ∃ q eq s', gettoken s = .ok (t.code, q, eq) s' ∧ s'.toks = ts ∧
      (s.At buf → s'.At buf ∧ ∀ w, t = .word w → Spans buf q eq w) := by
  rw [Cursor.toks, tokens_eq] at h
  cases hnext : nextToken (s.rest.dropWhile isSpace) with
  | none => simp [hnext] at h
  | some tr =>
    rw [hnext] at h
    obtain ⟨rfl, rfl⟩ := cons.inj h
    have hsp : ∀ c ∈ (s.skipWhile isSpace).rest.head?, isSpace c = false :=
      head_dropWhile isSpace s.rest
    obtain ⟨hcode, hrest, hat⟩ := scan_some buf hsp hnext
    have hget := gettoken_eq (s := s)
    rw [hcode] at hget
    refine ⟨_, _, _, hget, ?_, fun hs => ⟨(hat hs.skipWhile).1.skipWhile, (hat hs.skipWhile).2⟩⟩
    rw [toks_skip, Cursor.toks, hrest]

theorem nextToken_ne_none (c : Char) (r : List Char) : nextToken (c :: r) ≠ none := by
  simp only [nextToken]
  split
  · split <;> simp
  · simp
  · simp

theorem toks_eq_nil (h : s.toks = []) : s.rest.dropWhile isSpace = [] := by
  rw [Cursor.toks, tokens_eq] at h
  cases hdrop : s.rest.dropWhile isSpace with
  | nil => rfl
  | cons c r =>
    cases hnext : nextToken (c :: r) with
    | none => exact absurd hnext (nextToken_ne_none c r)
    | some tr => simp [hdrop, hnext] at h

/-- There is no token left. -/
theorem gettoken_none (buf : List Char) (h : s.toks = []) :
    ∃ q eq s', gettoken s = .ok ('\x00', q, eq) s' ∧ s'.toks = [] ∧ (s.At buf → s'.At buf) := by
  have hscan : (s.skipWhile isSpace).scan = ('\x00', s.skipWhile isSpace) := by
    simp [Cursor.scan, Cursor.skipWhile, toks_eq_nil h]
  have hget := gettoken_eq (s := s)
  rw [hscan] at hget
  refine ⟨_, _, _, hget, ?_, fun hs => hs.skipWhile.skipWhile⟩
  rw [toks_skip, toks_skip, h]

/-- The first of the tokens starts with one of the symbols `cs`. -/
def startsWith (cs : List Char) (ts : List Token) : Bool :=
  ts.head?.any fun t => t.first.any cs.contains

theorem first_nextToken {r r' : List Char} (h : nextToken (c :: r) = some (t, r')) :
    t.first = if isSymbol c then some c else none := by
  simp only [nextToken] at h
  cases hsym : symbol c with
  | none =>
    rw [hsym] at h
    cases h
    rw [if_neg (by simp [symbol_eq_none.mp hsym])]
    rfl
  | some t' =>
    obtain ⟨hc, hfirst⟩ := symbol_code hsym
    have hs : isSymbol c = true := by
      rw [← Bool.not_eq_false, ← symbol_eq_none, hsym]
      simp
    rw [if_pos hs, ← hfirst]
    rw [hsym] at h
    cases t' with
    | gt =>
      dsimp only at h
      split at h <;> cases h <;> rfl
    | word | append | lt | bar | amp | semi | lparen | rparen =>
      cases h
      rfl

theorem peek_eq {cs : List Char} (hcs : ∀ c ∈ cs, isSymbol c = true) :
    peek cs s = .ok (startsWith cs s.toks) (s.skipWhile isSpace) := by
  have hpeek : peek cs s = .ok ((s.rest.dropWhile isSpace).head?.any cs.contains)
      (s.skipWhile isSpace) := rfl
  rw [hpeek, startsWith, Cursor.toks, tokens_eq]
  cases hdrop : s.rest.dropWhile isSpace with
  | nil => rfl
  | cons c r =>
    cases hnext : nextToken (c :: r) with
    | none => exact absurd hnext (nextToken_ne_none c r)
    | some tr =>
      have hfirst := first_nextToken hnext
      simp only [head?_cons, Option.any_some, hfirst]
      split
      · rfl
      · rename_i hc
        have hcs' : cs.contains c = false := by
          rw [← Bool.not_eq_true, contains_iff_mem]
          exact fun hm => hc (hcs c hm)
        rw [hcs']
        rfl

end Cursor

end Xv6.Sh
