import Mathlib.Data.List.ReduceOption
import Xv6Rcu.Sh.Parse

/-!
# The grammar of the shell

The commands as the derivations of a grammar over tokens:

    line  := pipe '&'* [';' line]
    pipe  := exec ['|' pipe]
    exec  := '(' line ')' redir* | redir* (word redir*)*
    redir := ('<' | '>' | '>>') word

- `Derives nt ts t`: the tokens `ts` are derived from the nonterminal `nt`, and mean the tree `t`.
- `parse_sound`, by induction on the bound: a parse function takes a derived sequence off the
  input, or it panics.
- `parse_complete`, by induction on the derivation: in front of a token that can follow the
  nonterminal (`Follow`), the derived sequence is taken off and the command denotes its tree.
- `tree_nulterminate`: the NULs are written behind words only, so every word is read back.
- `parsecmd_grammar`: `parsecmd` returns exactly for the lines of the grammar.
- `words_survive`: the strings of the tree are the words of the line, each read back whole.
-/

namespace Xv6.Sh

open Lib List

/-! ## The grammar -/

structure Redirection where
  file : List Char
  mode : Nat
  fd : Nat

def Tree.wrap (t : Tree) (r : Redirection) : Tree := .redir t r.file r.mode r.fd

/-- The mode and the descriptor of a redirection. -/
def redirection : Token → Option (Nat × Nat)
  | .lt => some (O_RDONLY, 0)
  | .gt => some (O_WRONLY ||| O_CREATE ||| O_TRUNC, 1)
  | .append => some (O_WRONLY ||| O_CREATE, 1)
  | _ => none

/-- `redir*`. -/
inductive Redirs : List Token → List Redirection → Prop
  | nil : Redirs [] []
  | cons {t : Token} {mode fd : Nat} {w : List Char} {ts : List Token} {fs : List Redirection} :
    redirection t = some (mode, fd) → Redirs ts fs →
    Redirs (t :: .word w :: ts) (⟨w, mode, fd⟩ :: fs)

/-- `(word redir*)*`: the words and the redirections. -/
inductive Words : List Token → List (List Char) → List Redirection → Prop
  | nil : Words [] [] []
  | cons {w : List Char} {rs ts : List Token} {ws : List (List Char)} {fs gs : List Redirection} :
    Redirs rs fs → Words ts ws gs → Words (.word w :: (rs ++ ts)) (w :: ws) (fs ++ gs)

inductive NonTerminal where
  | line | pipe | exec

/-- A derivation and the tree that it denotes. -/
inductive Derives : NonTerminal → List Token → Tree → Prop
  | line {ts : List Token} {t : Tree} (n : Nat) : Derives .pipe ts t →
    Derives .line (ts ++ List.replicate n .amp) (Tree.back^[n] t)
  | list {ts us : List Token} {t u : Tree} (n : Nat) : Derives .pipe ts t → Derives .line us u →
    Derives .line (ts ++ (List.replicate n .amp ++ .semi :: us)) (.list (Tree.back^[n] t) u)
  | single {ts : List Token} {t : Tree} : Derives .exec ts t → Derives .pipe ts t
  | pipe {ts us : List Token} {t u : Tree} : Derives .exec ts t → Derives .pipe us u →
    Derives .pipe (ts ++ .bar :: us) (.pipe t u)
  | block {ts rs : List Token} {t : Tree} {fs : List Redirection} : Derives .line ts t →
    Redirs rs fs → Derives .exec (.lparen :: (ts ++ .rparen :: rs)) (fs.foldl Tree.wrap t)
  | simple {rs ts : List Token} {ws : List (List Char)} {fs gs : List Redirection} :
    Redirs rs fs → Words ts ws gs → ws.length ≤ MAXARGS - 1 →
    Derives .exec (rs ++ ts) ((fs ++ gs).foldl Tree.wrap (.exec ws))

/-- The text of a word. -/
def Token.text : Token → Option (List Char)
  | .word w => some w
  | _ => none

/-- The words and the files of the redirections. -/
def Tree.words : Tree → List (List Char)
  | .exec args => args
  | .redir t file _ _ => t.words ++ [file]
  | .pipe t u => t.words ++ u.words
  | .list t u => t.words ++ u.words
  | .back t => t.words

/-- The parse function of a nonterminal. -/
def parse : NonTerminal → Nat → ParseM Cmd
  | .line, n => parseline n
  | .pipe, n => parsepipe n
  | .exec, n => parseexec n

/-- A bound that is enough for `k` tokens. -/
def need : NonTerminal → Nat → Nat
  | .line, k => 4 * k + 4
  | .pipe, k => 4 * k + 3
  | .exec, k => 4 * k + 2

theorem need_succ {X : NonTerminal} {k n : Nat} (hn : need X k ≤ n) : ∃ m, n = m + 1 := by
  refine ⟨n - 1, ?_⟩
  cases X <;> simp only [need] at hn <;> omega

/-! ## Steps of the parser -/

/-- The tokens `T` of the string `buf` are left. -/
structure Left (buf : List Char) (T : List Token) (s : Cursor) : Prop where
  toks : s.toks = T
  pos : s.At buf

section Steps
variable {buf : List Char} {T : List Token} {t : Token} {s : Cursor} {E : Stop → Prop} {β : Type}
  {Q : β → Cursor → Prop}

theorem Left.peek {cs : List Char} {f : Bool → ParseM β} (h : Left buf T s)
    (hcs : cs.all isSymbol = true)
    (hf : ∀ s', Left buf T s' → Ends E (f (startsWith cs T)) s' Q) :
    Ends E (Sh.peek cs >>= f) s Q := by
  have hp := peek_eq (s := s) (all_eq_true.mp hcs)
  rw [h.toks] at hp
  exact .bind_eq hp (hf _ ⟨toks_skip.trans h.toks, h.pos.skipWhile⟩)

theorem Left.gettoken {f : Char × Nat × Nat → ParseM β} (h : Left buf (t :: T) s)
    (hf : ∀ q eq s', Left buf T s' → (∀ w, t = .word w → Spans buf q eq w) →
      Ends E (f (t.code, q, eq)) s' Q) : Ends E (Sh.gettoken >>= f) s Q := by
  obtain ⟨q, eq, s', hg, ht, hs⟩ := gettoken_some buf h.toks
  obtain ⟨hat, hspans⟩ := hs h.pos
  exact .bind_eq hg (hf q eq s' ⟨ht, hat⟩ hspans)

theorem Left.gettoken_end {f : Char × Nat × Nat → ParseM β} (h : Left buf [] s)
    (hf : ∀ q eq s', Left buf [] s' → Ends E (f ('\x00', q, eq)) s' Q) :
    Ends E (Sh.gettoken >>= f) s Q := by
  obtain ⟨q, eq, s', hg, ht, hs⟩ := gettoken_none buf h.toks
  exact .bind_eq hg (hf q eq s' ⟨ht, hs h.pos⟩)

end Steps

/-! ## Soundness -/

/-- The parser calls `panic`. -/
def IsPanic : Stop → Prop
  | .panic _ => True
  | _ => False

section Sound
variable {buf : List Char} {T : List Token} {s : Cursor} {n : Nat} {cmd : Cmd}

theorem startsWith_cons {cs : List Char} {T : List Token} (h : startsWith cs T = true) :
    ∃ t T', T = t :: T' ∧ ∃ c ∈ t.first, c ∈ cs := by
  cases T with
  | nil => cases h
  | cons t T =>
    simp only [startsWith, head?_cons, Option.any_some, Option.any_eq_true] at h
    obtain ⟨c, hc, hm⟩ := h
    exact ⟨t, T, rfl, c, hc, by simpa using hm⟩

/-- The symbols that are no redirections. -/
def operators : List Token := [.bar, .amp, .semi, .lparen, .rparen]

theorem eq_of_first {t u : Token} (ht : t ∈ operators) (hu : u.first = some t.code) : u = t := by
  simp only [operators, mem_cons, not_mem_nil, or_false] at ht
  rcases ht with rfl | rfl | rfl | rfl | rfl <;> cases u <;>
    first | rfl | cases hu

theorem eq_of_startsWith {t : Token} {T : List Token} (ht : t ∈ operators)
    (h : startsWith [t.code] T = true) : ∃ T', T = t :: T' := by
  obtain ⟨u, T', rfl, c, hc, hm⟩ := startsWith_cons h
  obtain rfl := mem_singleton.mp hm
  exact ⟨T', by rw [eq_of_first ht hc]⟩

theorem redirection_of_startsWith (h : startsWith ['<', '>'] T = true) :
    ∃ t T' mode fd, T = t :: T' ∧ redirection t = some (mode, fd) := by
  obtain ⟨t, T', rfl, -⟩ := startsWith_cons h
  cases t with
  | lt | gt | append => exact ⟨_, T', _, _, rfl, rfl⟩
  | word | bar | amp | semi | lparen | rparen => cases h

theorem code_eq_a {t : Token} (h : t.code = 'a') : ∃ w, t = .word w := by
  cases t with
  | word w => exact ⟨w, rfl⟩
  | lt | gt | append | bar | amp | semi | lparen | rparen => cases h

theorem code_ne_zero (t : Token) : t.code ≠ '\x00' := by
  cases t <;> simp [Token.code]

theorem parseredirs_sound (h : Left buf T s) (hn : T.length < n) :
    Ends IsPanic (parseredirs n cmd) s fun _ s' =>
      ∃ rs fs T', T = rs ++ T' ∧ Redirs rs fs ∧ Left buf T' s' := by
  induction n generalizing T s cmd with
  | zero => exact absurd hn (Nat.not_lt_zero _)
  | succ n ih =>
    refine h.peek (by decide) fun s1 h1 => ?_
    cases hst : startsWith ['<', '>'] T with
    | false => exact .pure ⟨[], [], T, rfl, .nil, h1⟩
    | true =>
      obtain ⟨t, T1, mode, fd, rfl, hr⟩ := redirection_of_startsWith hst
      refine h1.gettoken fun _ _ s2 h2 _ => ?_
      cases T1 with
      | nil => exact h2.gettoken_end fun _ _ _ _ => .throw trivial
      | cons u T2 =>
        refine h2.gettoken fun q eq s3 h3 _ => ?_
        by_cases hu : u.code = 'a'
        · obtain ⟨w, rfl⟩ := code_eq_a hu
          have hn' : T2.length < n := by
            simp only [length_cons] at hn
            omega
          refine (ih h3 hn').mono ?_
          rintro _ s' ⟨rs, fs, T', rfl, hrs, h'⟩
          exact ⟨t :: .word w :: rs, _, T', rfl, .cons hr hrs, h'⟩
        · dsimp only
          rw [if_pos hu]
          exact .throw trivial

theorem storeArg_eq {argc : Nat} {q eq : Ptr} (h : argc < MAXARGS) :
    storeArg cmd argc q eq s = .ok (cmd.setArg argc q eq) s := congrFun (if_pos h) s

theorem parseargs_sound {argc : Nat} (h : Left buf T s) (hn : T.length < n) (ha : argc < MAXARGS) :
    Ends IsPanic (parseargs n argc cmd) s fun _ s' =>
      ∃ ts ws gs T', T = ts ++ T' ∧ Words ts ws gs ∧ argc + ws.length ≤ MAXARGS - 1 ∧
        Left buf T' s' := by
  induction n generalizing T s cmd argc with
  | zero => exact absurd hn (Nat.not_lt_zero _)
  | succ n ih =>
    have hend : ∀ T' s', Left buf T' s' → T = T' →
        ∃ ts ws gs T', T = ts ++ T' ∧ Words ts ws gs ∧ argc + ws.length ≤ MAXARGS - 1 ∧
          Left buf T' s' :=
      fun T' s' h' he => ⟨[], [], [], T', he, .nil, Nat.le_sub_one_of_lt ha, h'⟩
    refine h.peek (by decide) fun s1 h1 => ?_
    cases hst : startsWith ['|', ')', '&', ';'] T with
    | true => exact .inl ⟨_, s1, storeArg_eq ha, hend T s1 h1 rfl⟩
    | false =>
      cases T with
      | nil => exact h1.gettoken_end fun _ _ s2 h2 => .inl ⟨_, s2, storeArg_eq ha, hend _ s2 h2 rfl⟩
      | cons t T1 =>
        refine h1.gettoken fun q eq s2 h2 _ => ?_
        by_cases ht : t.code = 'a'
        · obtain ⟨w, rfl⟩ := code_eq_a ht
          refine .bind_eq (storeArg_eq ha) ?_
          by_cases hmax : argc + 1 ≥ MAXARGS
          · rw [if_pos hmax]
            exact .throw trivial
          · rw [if_neg hmax]
            simp only [length_cons] at hn
            refine .bind ((parseredirs_sound h2 (by omega)).mono ?_)
            rintro ret s3 ⟨rs, fs, T2, rfl, hrs, h3⟩
            rw [length_append] at hn
            refine (ih h3 (by omega) (Nat.lt_of_not_le hmax)).mono ?_
            rintro _ s' ⟨ts, ws, gs, T', rfl, hws, hlen, h'⟩
            refine ⟨.word w :: (rs ++ ts), w :: ws, fs ++ gs, T', by simp, .cons hrs hws, ?_, h'⟩
            rw [length_cons]
            omega
        · dsimp only
          rw [if_neg (code_ne_zero t), if_pos ht]
          exact .throw trivial

theorem parsebacks_sound {cmd : Cmd} (h : Left buf T s) (hn : T.length < n) :
    Ends IsPanic (parsebacks n cmd) s fun _ s' =>
      ∃ k T', T = List.replicate k .amp ++ T' ∧ Left buf T' s' := by
  induction n generalizing T s cmd with
  | zero => exact absurd hn (Nat.not_lt_zero _)
  | succ n ih =>
    refine h.peek (by decide) fun s1 h1 => ?_
    cases hst : startsWith ['&'] T with
    | false => exact .pure ⟨0, T, rfl, h1⟩
    | true =>
      obtain ⟨T1, rfl⟩ := eq_of_startsWith (t := .amp) (by decide) hst
      refine h1.gettoken fun _ _ s2 h2 _ => ?_
      refine (ih h2 (Nat.lt_of_succ_lt_succ hn)).mono ?_
      rintro _ s' ⟨k, T', rfl, h'⟩
      exact ⟨k + 1, T', rfl, h'⟩

/-- A parse function takes a derived sequence off the input, or it panics. -/
theorem parse_sound {nt : NonTerminal} (h : Left buf T s) (hn : need nt T.length ≤ n) :
    Ends IsPanic (parse nt n) s fun _ s' =>
      ∃ ts t T', T = ts ++ T' ∧ Derives nt ts t ∧ Left buf T' s' := by
  induction n using Nat.strong_induction_on generalizing T s nt with
  | _ n ih =>
    cases nt with
    | line =>
      obtain ⟨n, rfl⟩ := need_succ hn
      have hp : need .pipe T.length ≤ n := by
        simp only [need] at hn ⊢
        omega
      refine .bind ((ih n (Nat.lt_succ_self n) h hp).mono ?_)
      rintro cmd s1 ⟨ts, t, T1, rfl, ht, h1⟩
      simp only [need, length_append] at hn
      refine .bind ((parsebacks_sound h1 (by omega)).mono ?_)
      rintro cmd s2 ⟨k, T2, rfl, h2⟩
      refine h2.peek (by decide) fun s3 h3 => ?_
      cases hst : startsWith [';'] T2 with
      | false => exact .pure ⟨ts ++ replicate k .amp, _, T2, by simp, .line k ht, h3⟩
      | true =>
        obtain ⟨T3, rfl⟩ := eq_of_startsWith (t := .semi) (by decide) hst
        refine h3.gettoken fun _ _ s4 h4 _ => ?_
        have hl : need .line T3.length ≤ n := by
          simp only [need, length_append, length_cons] at hn ⊢
          omega
        refine .bind ((ih n (Nat.lt_succ_self n) h4 hl).mono ?_)
        rintro right s' ⟨us, u, T', rfl, hu, h'⟩
        exact .pure
          ⟨ts ++ (replicate k .amp ++ .semi :: us), _, T', by simp, .list k ht hu, h'⟩
    | pipe =>
      obtain ⟨n, rfl⟩ := need_succ hn
      have hx : need .exec T.length ≤ n := by
        simp only [need] at hn ⊢
        omega
      refine .bind ((ih n (Nat.lt_succ_self n) h hx).mono ?_)
      rintro cmd s1 ⟨ts, t, T1, rfl, ht, h1⟩
      refine h1.peek (by decide) fun s2 h2 => ?_
      cases hst : startsWith ['|'] T1 with
      | false => exact .pure ⟨ts, t, T1, rfl, .single ht, h2⟩
      | true =>
        obtain ⟨T2, rfl⟩ := eq_of_startsWith (t := .bar) (by decide) hst
        refine h2.gettoken fun _ _ s3 h3 _ => ?_
        have hp : need .pipe T2.length ≤ n := by
          simp only [need, length_append, length_cons] at hn ⊢
          omega
        refine .bind ((ih n (Nat.lt_succ_self n) h3 hp).mono ?_)
        rintro right s' ⟨us, u, T', rfl, hu, h'⟩
        exact .pure ⟨ts ++ .bar :: us, _, T', by simp, .pipe ht hu, h'⟩
    | exec =>
      -- `parseblock` is one call further down
      obtain ⟨n, rfl⟩ : ∃ m, n = m + 2 := ⟨n - 2, by simp only [need] at hn; omega⟩
      simp only [need] at hn
      refine h.peek (by decide) fun s1 h1 => ?_
      cases hst : startsWith ['('] T with
      | true =>
        obtain ⟨T1, rfl⟩ := eq_of_startsWith (t := .lparen) (by decide) hst
        refine h1.peek (by decide) fun s2 h2 => ?_
        refine h2.gettoken fun _ _ s3 h3 _ => ?_
        have hl : need .line T1.length ≤ n := by
          simp only [need, length_cons] at hn ⊢
          omega
        refine .bind ((ih n (by omega) h3 hl).mono ?_)
        rintro cmd s4 ⟨ts, t, T2, rfl, ht, h4⟩
        refine h4.peek (by decide) fun s5 h5 => ?_
        cases hst2 : startsWith [')'] T2 with
        | false => exact .throw trivial
        | true =>
          obtain ⟨T3, rfl⟩ := eq_of_startsWith (t := .rparen) (by decide) hst2
          refine h5.gettoken fun _ _ s6 h6 _ => ?_
          simp only [length_cons, length_append] at hn
          refine (parseredirs_sound h6 (by omega)).mono ?_
          rintro _ s' ⟨rs, fs, T', rfl, hrs, h'⟩
          exact ⟨.lparen :: (ts ++ .rparen :: rs), _, T', by simp, .block ht hrs, h'⟩
      | false =>
        refine .bind ((parseredirs_sound h1 (by omega)).mono ?_)
        rintro ret s2 ⟨rs, fs, T1, rfl, hrs, h2⟩
        rw [length_append] at hn
        refine (parseargs_sound h2 (by omega) (by decide)).mono ?_
        rintro _ s' ⟨ts, ws, gs, T', rfl, hws, hlen, h'⟩
        rw [zero_add] at hlen
        exact ⟨rs ++ ts, _, T', by simp, .simple hrs hws hlen, h'⟩

end Sound

/-! ## Commands that denote trees -/

/-- The arrays of an `execcmd` with the words `ws`, and `NULL`s behind them. -/
inductive Args (buf : List Char) : List Ptr → List Ptr → List (List Char) → Prop
  | nil (k : Nat) : Args buf (List.replicate (k + 1) none) (List.replicate (k + 1) none) []
  | cons {q eq : Nat} {w : List Char} {argv eargv : List Ptr} {ws : List (List Char)} :
    Spans buf q eq w → Args buf argv eargv ws →
    Args buf (some q :: argv) (some eq :: eargv) (w :: ws)

/-- The command, with its pointers into `buf`, denotes the tree. -/
inductive Denotes (buf : List Char) : Cmd → Tree → Prop
  | exec {argv eargv : List Ptr} {ws : List (List Char)} : argv.length = MAXARGS →
    Args buf argv eargv ws → Denotes buf (.exec argv eargv) (.exec ws)
  | redir {cmd : Cmd} {t : Tree} {q eq mode fd : Nat} {f : List Char} : Denotes buf cmd t →
    Spans buf q eq f → Denotes buf (.redir cmd q eq mode fd) (.redir t f mode fd)
  | pipe {left right : Cmd} {t u : Tree} : Denotes buf left t → Denotes buf right u →
    Denotes buf (.pipe left right) (.pipe t u)
  | list {left right : Cmd} {t u : Tree} : Denotes buf left t → Denotes buf right u →
    Denotes buf (.list left right) (.list t u)
  | back {cmd : Cmd} {t : Tree} : Denotes buf cmd t → Denotes buf (.back cmd) (.back t)

section Denotes
variable {buf : List Char} {cmd : Cmd} {t : Tree} {fs : List Redirection} {ws : List (List Char)}
  {argv eargv : List Ptr} {q eq : Nat} {w : List Char}

theorem denotes_execcmd : Denotes buf execcmd (.exec []) :=
  .exec (length_replicate ..) (.nil 9)

/-- The next word is stored. -/
theorem Args.set (h : Args buf argv eargv ws) (hlen : ws.length + 1 < argv.length)
    (hw : Spans buf q eq w) :
    Args buf (argv.set ws.length (some q)) (eargv.set ws.length (some eq)) (ws ++ [w]) := by
  induction h with
  | nil k =>
    obtain ⟨k, rfl⟩ : ∃ j, k = j + 1 := ⟨k - 1, by simp at hlen; omega⟩
    exact .cons hw (.nil k)
  | cons hw' _ ih => exact .cons hw' (ih (Nat.lt_of_succ_lt_succ hlen))

/-- The `NULL` behind the words is there already. -/
theorem Args.set_none (h : Args buf argv eargv ws) :
    argv.set ws.length none = argv ∧ eargv.set ws.length none = eargv := by
  induction h with
  | nil k => exact ⟨rfl, rfl⟩
  | cons _ _ ih =>
    simp [ih]

theorem foldl_wrap_snoc (f : Redirection) :
    (fs ++ [f]).foldl Tree.wrap t = .redir (fs.foldl Tree.wrap t) f.file f.mode f.fd := by
  simp [Tree.wrap]

theorem Denotes.setArg (h : Denotes buf cmd (fs.foldl Tree.wrap (.exec ws)))
    (hlen : ws.length + 1 < MAXARGS) (hw : Spans buf q eq w) :
    Denotes buf (cmd.setArg ws.length (some q) (some eq))
      (fs.foldl Tree.wrap (.exec (ws ++ [w]))) := by
  induction fs using reverseRecOn generalizing cmd with
  | nil =>
    cases h with
    | exec hl ha => exact .exec (by rw [length_set, hl]) (ha.set (by rw [hl]; exact hlen) hw)
  | append_singleton fs f ih =>
    rw [foldl_wrap_snoc] at h ⊢
    cases h with
    | redir h hf => exact .redir (ih h) hf

theorem Denotes.setArg_none (h : Denotes buf cmd (fs.foldl Tree.wrap (.exec ws))) :
    cmd.setArg ws.length none none = cmd := by
  induction fs using reverseRecOn generalizing cmd with
  | nil =>
    cases h with
    | exec hl ha => simp [Cmd.setArg, ha.set_none]
  | append_singleton fs f ih =>
    rw [foldl_wrap_snoc] at h
    cases h with
    | redir h hf => simp [Cmd.setArg, ih h]

end Denotes

/-! ## Completeness -/

/-- The symbols that can stand behind a nonterminal. -/
def followers : NonTerminal → List Char
  | .line => [')']
  | .pipe => [')', '&', ';']
  | .exec => [')', '&', ';', '|']

/-- The tokens `R` can stand behind a nonterminal. -/
def Follow (nt : NonTerminal) (R : List Token) : Prop :=
  R = [] ∨ startsWith (followers nt) R = true

/-- Never: what a program that is complete may stop with. -/
def Never : Stop → Prop := fun _ => False

section Complete
variable {buf : List Char} {s : Cursor} {n : Nat} {cmd : Cmd} {nt : NonTerminal} {t : Tree}
  {ts rs R : List Token} {fs gs : List Redirection} {ws : List (List Char)} {cs : List Char}

theorem Follow.startsWith (h : Follow nt R)
    (hcs : (followers nt).all (fun c => !cs.contains c) = true) : Sh.startsWith cs R = false := by
  rcases h with rfl | h
  · rfl
  · obtain ⟨t, T', rfl, c, hc, hm⟩ := startsWith_cons h
    rw [startsWith, head?_cons, Option.any_some, Option.mem_def.mp hc,
      ← Bool.not_eq_true']
    exact all_eq_true.mp hcs c hm

theorem startsWith_mono {ds : List Char} (h : startsWith cs R = true)
    (hsub : cs.all ds.contains = true) : startsWith ds R = true := by
  obtain ⟨t, T', rfl, c, hc, hm⟩ := startsWith_cons h
  rw [startsWith, head?_cons, Option.any_some, Option.mem_def.mp hc]
  exact all_eq_true.mp hsub c hm

theorem Follow.mono {nt' : NonTerminal} (h : Follow nt R)
    (hsub : (followers nt).all (followers nt').contains = true) : Follow nt' R :=
  h.imp_right fun h => startsWith_mono h hsub

theorem startsWith_redirection {T : List Token} {mode fd : Nat} {u : Token}
    (h : redirection u = some (mode, fd)) : startsWith ['<', '>'] (u :: T) = true := by
  cases u with
  | lt | gt | append => rfl
  | word | bar | amp | semi | lparen | rparen => cases h

theorem redirected_denotes {mode fd q eq : Nat} {u : Token} {w : List Char}
    (h : redirection u = some (mode, fd)) (hd : Denotes buf cmd t) (hw : Spans buf q eq w) :
    Denotes buf (redirected u.code cmd q eq) (t.wrap ⟨w, mode, fd⟩) := by
  cases u with
  | lt | gt | append =>
    cases h
    exact .redir hd hw
  | word | bar | amp | semi | lparen | rparen => cases h

theorem parseredirs_complete (hr : Redirs rs fs) (h : Left buf (rs ++ R) s)
    (hR : startsWith ['<', '>'] R = false) (hn : rs.length < n) (hd : Denotes buf cmd t) :
    Ends Never (parseredirs n cmd) s fun cmd' s' =>
      Left buf R s' ∧ Denotes buf cmd' (fs.foldl Tree.wrap t) := by
  induction hr generalizing n s cmd t with
  | nil =>
    obtain ⟨n, rfl⟩ := Nat.exists_eq_succ_of_ne_zero (ne_of_gt hn)
    refine h.peek (by decide) fun s1 h1 => ?_
    rw [nil_append, hR]
    exact .pure ⟨h1, hd⟩
  | cons hred _ ih =>
    obtain ⟨n, rfl⟩ := Nat.exists_eq_succ_of_ne_zero (Nat.ne_zero_of_lt hn)
    refine h.peek (by decide) fun s1 h1 => ?_
    rw [cons_append, startsWith_redirection hred]
    refine h1.gettoken fun _ _ s2 h2 _ => h2.gettoken fun q eq s3 h3 hw => ?_
    simp only [length_cons] at hn
    exact ih h3 (by omega) (redirected_denotes hred hd (hw _ rfl))

/-- Words, and what follows an `exec`, start with no redirection. -/
theorem Words.no_redir (hw : Words ts ws gs) (hR : Follow .exec R) :
    Sh.startsWith ['<', '>'] (ts ++ R) = false := by
  cases hw with
  | nil => exact hR.startsWith (by decide)
  | cons _ _ => rfl

theorem parseargs_complete {ws0 : List (List Char)} {gs0 : List Redirection} (hw : Words ts ws gs)
    (h : Left buf (ts ++ R) s) (hR : Follow .exec R) (hn : ts.length < n)
    (hlen : ws0.length + ws.length ≤ MAXARGS - 1)
    (hd : Denotes buf cmd (gs0.foldl Tree.wrap (.exec ws0))) :
    Ends Never (parseargs n ws0.length cmd) s fun cmd' s' =>
      Left buf R s' ∧ Denotes buf cmd' ((gs0 ++ gs).foldl Tree.wrap (.exec (ws0 ++ ws))) := by
  have hmax : ws0.length < MAXARGS := by
    simp only [MAXARGS] at hlen ⊢
    omega
  induction hw generalizing n s cmd ws0 gs0 with
  | nil =>
    obtain ⟨n, rfl⟩ := Nat.exists_eq_succ_of_ne_zero (ne_of_gt hn)
    rw [append_nil, append_nil]
    have hend : ∀ s', Left buf R s' → Ends Never (storeArg cmd ws0.length none none) s'
        fun cmd' s' => Left buf R s' ∧ Denotes buf cmd' (gs0.foldl Tree.wrap (.exec ws0)) := by
      intro s' h'
      refine .inl ⟨_, s', storeArg_eq hmax, h', ?_⟩
      rw [hd.setArg_none]
      exact hd
    refine h.peek (by decide) fun s1 h1 => ?_
    rcases hR with rfl | hR
    · exact h1.gettoken_end fun _ _ s2 h2 => hend s2 h2
    · have hst : startsWith ['|', ')', '&', ';'] R = true := startsWith_mono hR (by decide)
      rw [nil_append, hst]
      exact hend s1 h1
  | @cons w rs ts ws fs gs hrs hws ih =>
    obtain ⟨n, rfl⟩ := Nat.exists_eq_succ_of_ne_zero (Nat.ne_zero_of_lt hn)
    simp only [length_cons, length_append, MAXARGS] at hn hlen
    have hnext : ws0.length + 1 < MAXARGS := by
      simp only [MAXARGS]
      omega
    simp only [cons_append, append_assoc] at h ⊢
    refine h.peek (by decide) fun s1 h1 => ?_
    refine h1.gettoken fun q eq s2 h2 hspans => ?_
    refine .bind_eq (storeArg_eq hmax) ?_
    rw [if_neg (not_le.mpr hnext)]
    refine .bind ((parseredirs_complete hrs h2 (hws.no_redir hR) (by omega)
      (hd.setArg hnext (hspans _ rfl))).mono ?_)
    rintro ret s3 ⟨h3, hd3⟩
    rw [← foldl_append] at hd3
    have hlen' : (ws0 ++ [w]).length + ws.length ≤ MAXARGS - 1 := by
      simp only [length_append, length_singleton, MAXARGS]
      omega
    have hrest := @ih s3 n ret (ws0 ++ [w]) (gs0 ++ fs) h3 (by omega) hlen' hd3
      (by simpa using hnext)
    simpa only [length_append, length_singleton, append_assoc,
      singleton_append] using hrest

theorem parsebacks_complete {k : Nat} (h : Left buf (List.replicate k .amp ++ R) s)
    (hR : startsWith ['&'] R = false) (hn : k < n) (hd : Denotes buf cmd t) :
    Ends Never (parsebacks n cmd) s fun cmd' s' =>
      Left buf R s' ∧ Denotes buf cmd' (Tree.back^[k] t) := by
  induction k generalizing n s cmd t with
  | zero =>
    obtain ⟨n, rfl⟩ := Nat.exists_eq_succ_of_ne_zero (ne_of_gt hn)
    refine h.peek (by decide) fun s1 h1 => ?_
    rw [replicate_zero, nil_append, hR]
    exact .pure ⟨h1, hd⟩
  | succ k ih =>
    obtain ⟨n, rfl⟩ := Nat.exists_eq_succ_of_ne_zero (Nat.ne_zero_of_lt hn)
    refine h.peek (by decide) fun s1 h1 => ?_
    refine h1.gettoken fun _ _ s2 h2 _ => ?_
    exact ih h2 (Nat.lt_of_succ_lt_succ hn) (.back hd)

/-- Amps, and what follows a line, can follow a pipe. -/
theorem follow_amps {k : Nat} (hR : Follow .pipe R) :
    Follow .pipe (List.replicate k .amp ++ R) := by
  cases k with
  | zero => exact hR
  | succ k => exact .inr rfl

theorem Redirs.no_lparen (hr : Redirs rs fs) (hR : startsWith ['('] R = false) :
    startsWith ['('] (rs ++ R) = false := by
  cases hr with
  | nil => exact hR
  | @cons u _ _ _ _ _ hred _ =>
    cases u with
    | lt | gt | append => rfl
    | word | bar | amp | semi | lparen | rparen => cases hred

theorem Words.no_lparen (hw : Words ts ws gs) (hR : startsWith ['('] R = false) :
    Sh.startsWith ['('] (ts ++ R) = false := by
  cases hw with
  | nil => exact hR
  | cons _ _ => rfl

/-- In front of what can follow, a derived sequence is taken off, and the command denotes its
tree. -/
theorem parse_complete (hder : Derives nt ts t) (h : Left buf (ts ++ R) s) (hR : Follow nt R)
    (hn : need nt (ts ++ R).length ≤ n) :
    Ends Never (parse nt n) s fun cmd s' => Left buf R s' ∧ Denotes buf cmd t := by
  induction hder generalizing n s R with
  | @line ts t k _ ih =>
    obtain ⟨n, rfl⟩ := need_succ hn
    simp only [append_assoc] at h hn
    simp only [need, length_append, length_replicate] at hn
    have hp : need .pipe (ts ++ (replicate k Token.amp ++ R)).length ≤ n := by
      simp only [need, length_append, length_replicate]
      omega
    have hfollow : Follow .pipe (replicate k .amp ++ R) := follow_amps (hR.mono (by decide))
    refine .bind ((ih h hfollow hp).mono ?_)
    rintro cmd s1 ⟨h1, hd1⟩
    refine .bind ((parsebacks_complete h1 (hR.startsWith (by decide)) (by omega) hd1).mono ?_)
    rintro cmd' s2 ⟨h2, hd2⟩
    refine h2.peek (by decide) fun s3 h3 => ?_
    rw [hR.startsWith (by decide)]
    exact .pure ⟨h3, hd2⟩
  | @list ts us t u k _ _ ih1 ih2 =>
    obtain ⟨n, rfl⟩ := need_succ hn
    simp only [append_assoc, cons_append] at h hn
    simp only [need, length_append, length_replicate, length_cons] at hn
    have hp : need .pipe
        (ts ++ (replicate k Token.amp ++ Token.semi :: (us ++ R))).length ≤ n := by
      simp only [need, length_append, length_replicate, length_cons]
      omega
    have hl : need .line (us ++ R).length ≤ n := by
      simp only [need, length_append]
      omega
    have hfollow : Follow .pipe (replicate k .amp ++ .semi :: (us ++ R)) :=
      follow_amps (.inr rfl)
    refine .bind ((ih1 h hfollow hp).mono ?_)
    rintro cmd s1 ⟨h1, hd1⟩
    refine .bind ((parsebacks_complete h1 rfl (by omega) hd1).mono ?_)
    rintro cmd' s2 ⟨h2, hd2⟩
    refine h2.peek (by decide) fun s3 h3 => ?_
    refine h3.gettoken fun _ _ s4 h4 _ => ?_
    refine .bind ((ih2 h4 hR hl).mono ?_)
    rintro right s' ⟨h', hd'⟩
    exact .pure ⟨h', .list hd2 hd'⟩
  | @single ts t _ ih =>
    obtain ⟨n, rfl⟩ := need_succ hn
    have hx : need .exec (ts ++ R).length ≤ n := by
      simp only [need] at hn ⊢
      omega
    refine .bind ((ih h (hR.mono (by decide)) hx).mono ?_)
    rintro cmd s1 ⟨h1, hd1⟩
    refine h1.peek (by decide) fun s2 h2 => ?_
    rw [hR.startsWith (by decide)]
    exact .pure ⟨h2, hd1⟩
  | @pipe ts us t u _ _ ih1 ih2 =>
    obtain ⟨n, rfl⟩ := need_succ hn
    simp only [append_assoc, cons_append] at h hn
    simp only [need, length_append, length_cons] at hn
    have hx : need .exec (ts ++ .bar :: (us ++ R)).length ≤ n := by
      simp only [need, length_append, length_cons]
      omega
    have hp : need .pipe (us ++ R).length ≤ n := by
      simp only [need, length_append]
      omega
    refine .bind ((ih1 h (.inr rfl) hx).mono ?_)
    rintro cmd s1 ⟨h1, hd1⟩
    refine h1.peek (by decide) fun s2 h2 => ?_
    refine h2.gettoken fun _ _ s3 h3 _ => ?_
    refine .bind ((ih2 h3 hR hp).mono ?_)
    rintro right s' ⟨h', hd'⟩
    exact .pure ⟨h', .pipe hd1 hd'⟩
  | @block ts rs t fs _ hrs ih =>
    obtain ⟨n, rfl⟩ : ∃ m, n = m + 2 := ⟨n - 2, by simp only [need] at hn; omega⟩
    simp only [append_assoc, cons_append] at h hn
    simp only [need, length_append, length_cons] at hn
    have hl : need .line (ts ++ .rparen :: (rs ++ R)).length ≤ n := by
      simp only [need, length_append, length_cons]
      omega
    refine h.peek (by decide) fun s1 h1 => ?_
    refine h1.peek (by decide) fun s2 h2 => ?_
    refine h2.gettoken fun _ _ s3 h3 _ => ?_
    refine .bind ((ih h3 (.inr rfl) hl).mono ?_)
    rintro cmd s4 ⟨h4, hd4⟩
    refine h4.peek (by decide) fun s5 h5 => ?_
    refine h5.gettoken fun _ _ s6 h6 _ => ?_
    exact parseredirs_complete hrs h6 (hR.startsWith (by decide)) (by omega) hd4
  | @simple rs ts ws fs gs hrs hws hlen =>
    obtain ⟨n, rfl⟩ := need_succ hn
    simp only [append_assoc] at h hn
    simp only [need, length_append] at hn
    have hnp : startsWith ['('] (rs ++ (ts ++ R)) = false :=
      hrs.no_lparen (hws.no_lparen (hR.startsWith (by decide)))
    refine h.peek (by decide) fun s1 h1 => ?_
    rw [hnp]
    refine .bind ((parseredirs_complete hrs h1 (hws.no_redir hR) (by omega)
      denotes_execcmd).mono ?_)
    rintro ret s2 ⟨h2, hd2⟩
    have hts : ts.length < n := by omega
    have hmax : ([] : List (List Char)).length + ws.length ≤ MAXARGS - 1 := by simpa using hlen
    exact parseargs_complete hws h2 hR hts hmax hd2

end Complete

/-! ## The strings behind `nulterminate` -/

/-- The buffer has the words of the input. -/
structure Intact (buf b : List Char) : Prop where
  length : b.length = buf.length + 1
  word : ∀ (i : Nat) (c : Char), buf[i]? = some c → isWord c = true → b[i]? = some c

/-- From `b` to `b'`, NULs were written behind words, at least at `es`. -/
structure Terminated (buf b b' : List Char) (es : List Nat) : Prop where
  intact : Intact buf b'
  keeps : ∀ i : Nat, b[i]? = some '\x00' → b'[i]? = some '\x00'
  ends : ∀ e ∈ es, b'[e]? = some '\x00'

/-- Where `nulterminate` writes. -/
def Cmd.ends : Cmd → List Nat
  | .exec _ eargv => eargv.reduceOption
  | .redir cmd _ efile _ _ => cmd.ends ++ [efile]
  | .pipe left right => left.ends ++ right.ends
  | .list left right => left.ends ++ right.ends
  | .back cmd => cmd.ends

section Strings
variable {buf b b' b'' : List Char} {cmd : Cmd} {t : Tree} {q eq : Nat} {w : List Char}
  {ws : List (List Char)} {argv eargv : List Ptr} {es es' : List Nat}

theorem Spans.end_le (h : Spans buf q eq w) : eq ≤ buf.length := by
  obtain ⟨before, after, rfl, rfl, rfl, -⟩ := h
  simp

theorem Spans.end_boundary (h : Spans buf q eq w) :
    ∀ c, buf[eq]? = some c → isWord c = false := by
  obtain ⟨before, after, rfl, rfl, rfl, -, hafter⟩ := h
  intro c hc
  refine hafter c ?_
  rwa [← length_append, getElem?_append_right (le_refl _), Nat.sub_self,
    ← head?_eq_getElem?] at hc

theorem Intact.set (hb : Intact buf b) (h : Spans buf q eq w) :
    Terminated buf b (b.set eq '\x00') [eq] := by
  have hlt : eq < b.length := by
    rw [hb.length]
    exact Nat.lt_succ_of_le h.end_le
  have hself : (b.set eq '\x00')[eq]? = some '\x00' := getElem?_set_self hlt
  refine ⟨⟨by rw [length_set, hb.length], fun i c hc hw => ?_⟩, fun i hi => ?_, ?_⟩
  · have hne : eq ≠ i := by
      rintro rfl
      rw [h.end_boundary c hc] at hw
      cases hw
    rw [getElem?_set_ne hne]
    exact hb.word i c hc hw
  · rcases decEq eq i with hne | rfl
    · rwa [getElem?_set_ne hne]
    · exact hself
  · intro e he
    obtain rfl := mem_singleton.mp he
    exact hself

theorem Terminated.trans (h1 : Terminated buf b b' es) (h2 : Terminated buf b' b'' es') :
    Terminated buf b b'' (es ++ es') := by
  refine ⟨h2.intact, fun i hi => h2.keeps i (h1.keeps i hi), fun e he => ?_⟩
  rcases mem_append.mp he with he | he
  · exact h2.keeps e (h1.ends e he)
  · exact h2.ends e he

theorem terminateArgs_spec (h : Args buf argv eargv ws) (hb : Intact buf b) :
    Terminated buf b (terminateArgs (argv.zip eargv) b) eargv.reduceOption := by
  induction h generalizing b with
  | nil k =>
    exact ⟨hb, fun _ => id, by simp⟩
  | cons hw _ ih =>
    have hset := hb.set hw
    exact hset.trans (ih hset.intact)

theorem nulterminate_spec (h : Denotes buf cmd t) (hb : Intact buf b) :
    Terminated buf b (nulterminate cmd b) cmd.ends := by
  induction h generalizing b with
  | exec _ ha => exact terminateArgs_spec ha hb
  | redir _ hf ih =>
    have h1 := ih hb
    exact h1.trans (h1.intact.set hf)
  | pipe _ _ ih1 ih2 | list _ _ ih1 ih2 =>
    have h1 := ih1 hb
    exact h1.trans (ih2 h1.intact)
  | back _ ih => exact ih hb

/-- A word with a NUL behind it is read back. -/
theorem cstring_eq (h : Spans buf q eq w) (hb : Intact buf b) (h0 : b[eq]? = some '\x00')
    (hnul : '\x00' ∉ buf) : cstring b q = w := by
  obtain ⟨before, after, rfl, rfl, rfl, hw, -⟩ := h
  have hdrop : b.drop before.length =
      w ++ '\x00' :: b.drop (before.length + w.length + 1) := by
    refine ext_getElem? fun i => ?_
    rw [getElem?_drop]
    rcases lt_trichotomy i w.length with hi | rfl | hi
    · have hc : (before ++ w ++ after)[before.length + i]? = some w[i] := by
        rw [append_assoc, getElem?_append_right (Nat.le_add_right _ _),
          Nat.add_sub_cancel_left, getElem?_append_left hi, getElem?_eq_getElem hi]
      rw [hb.word _ _ hc (hw _ (getElem_mem hi)), getElem?_append_left hi,
        getElem?_eq_getElem hi]
    · rw [h0, getElem?_append_right (le_refl _), Nat.sub_self]
      rfl
    · rw [getElem?_append_right (le_of_lt hi)]
      obtain ⟨k, rfl⟩ := Nat.exists_eq_add_of_lt hi
      rw [show w.length + k + 1 - w.length = k + 1 by omega, getElem?_cons_succ,
        getElem?_drop]
      congr 1
      omega
  have hne : ∀ c ∈ w, decide (c ≠ '\x00') = true := by
    intro c hc
    refine decide_eq_true ?_
    rintro rfl
    exact hnul (by simp [hc])
  rw [cstring, hdrop, takeWhile_append_of_pos hne]
  simp

theorem args_eq (h : Args buf argv eargv ws) (hb : Intact buf b)
    (h0 : ∀ e ∈ eargv.reduceOption, b[e]? = some '\x00') (hnul : '\x00' ∉ buf) :
    args b argv = ws := by
  induction h with
  | nil k => rfl
  | cons hw _ ih =>
    rw [args, cstring_eq hw hb (h0 _ (by simp)) hnul, ih fun e he => h0 e (by simp [he])]

theorem tree_eq (h : Denotes buf cmd t) (hb : Intact buf b)
    (h0 : ∀ e ∈ cmd.ends, b[e]? = some '\x00') (hnul : '\x00' ∉ buf) : cmd.tree b = t := by
  induction h with
  | exec _ ha => rw [Cmd.tree, args_eq ha hb h0 hnul]
  | redir _ hf ih =>
    simp only [Cmd.ends, forall_mem_append] at h0
    rw [Cmd.tree, ih h0.1, cstring_eq hf hb (h0.2 _ (by simp)) hnul]
  | pipe _ _ ih1 ih2 | list _ _ ih1 ih2 =>
    simp only [Cmd.ends, forall_mem_append] at h0
    rw [Cmd.tree, ih1 h0.1, ih2 h0.2]
  | back _ ih => rw [Cmd.tree, ih h0]

theorem nulterminate_line (h : Denotes buf cmd t) :
    Terminated buf (buf ++ ['\x00']) (nulterminate cmd (buf ++ ['\x00'])) cmd.ends := by
  refine nulterminate_spec h ⟨by simp, fun i c hc _ => ?_⟩
  rw [getElem?_append_left (List.getElem?_eq_some_iff.mp hc).1, hc]

/-- Behind `nulterminate`, the command is the tree that it denotes. -/
theorem tree_nulterminate (h : Denotes buf cmd t) (hnul : '\x00' ∉ buf) :
    cmd.tree (nulterminate cmd (buf ++ ['\x00'])) = t :=
  tree_eq h (nulterminate_line h).intact (nulterminate_line h).ends hnul

/-- Where the words and the files of the redirections are: their starts and ends. -/
def Cmd.slices : Cmd → List (Nat × Nat)
  | .exec argv eargv => (argv.zip eargv).filterMap fun (q, e) => return (← q, ← e)
  | .redir cmd file efile _ _ => cmd.slices ++ [(file, efile)]
  | .pipe left right => left.slices ++ right.slices
  | .list left right => left.slices ++ right.slices
  | .back cmd => cmd.slices

theorem Args.slices (h : Args buf argv eargv ws) : ∀ x ∈ (Cmd.exec argv eargv).slices,
    (∃ w, Spans buf x.1 x.2 w) ∧ x.2 ∈ eargv.reduceOption := by
  induction h with
  | nil k => simp [Cmd.slices]
  | cons hw _ ih =>
    intro x hx
    rcases mem_cons.mp hx with rfl | hx
    · exact ⟨⟨_, hw⟩, by simp⟩
    · exact ⟨(ih x hx).1, by simp [(ih x hx).2]⟩

/-- Each of them is a word of the input, and `nulterminate` writes behind it. -/
theorem Denotes.slices (h : Denotes buf cmd t) :
    ∀ x ∈ cmd.slices, (∃ w, Spans buf x.1 x.2 w) ∧ x.2 ∈ cmd.ends := by
  induction h with
  | exec _ ha => exact ha.slices
  | redir _ hf ih =>
    refine forall_mem_append.mpr ⟨fun x hx => ⟨(ih x hx).1, mem_append_left _ (ih x hx).2⟩, ?_⟩
    simpa [Cmd.ends] using ⟨_, hf⟩
  | pipe _ _ ih1 ih2 | list _ _ ih1 ih2 =>
    exact forall_mem_append.mpr ⟨fun x hx => ⟨(ih1 x hx).1, mem_append_left _ (ih1 x hx).2⟩,
      fun x hx => ⟨(ih2 x hx).1, mem_append_right _ (ih2 x hx).2⟩⟩
  | back _ ih => exact ih

theorem Args.words (h : Args buf argv eargv ws) (b : List Char) :
    args b argv = (Cmd.exec argv eargv).slices.map fun x => cstring b x.1 := by
  induction h with
  | nil k => simp [args, Cmd.slices, replicate_succ]
  | cons _ _ ih => exact congrArg (cstring b _ :: ·) ih

/-- The words of the command are read at its slices. -/
theorem Denotes.words (h : Denotes buf cmd t) (b : List Char) :
    (cmd.tree b).words = cmd.slices.map fun x => cstring b x.1 := by
  induction h with
  | exec _ ha => exact ha.words b
  | redir _ _ ih => simp [Cmd.tree, Tree.words, Cmd.slices, ih]
  | pipe _ _ ih1 ih2 | list _ _ ih1 ih2 => simp [Cmd.tree, Tree.words, Cmd.slices, ih1, ih2]
  | back _ ih => exact ih

/-- The end of a word is not in another one. -/
theorem Spans.end_outside {q' eq' : Nat} {w' : List Char} (h : Spans buf q eq w)
    (h' : Spans buf q' eq' w') : ¬ (q ≤ eq' ∧ eq' < eq) := by
  rintro ⟨hle, hlt⟩
  have hend := h'.end_boundary
  obtain ⟨before, after, rfl, rfl, rfl, hw, -⟩ := h
  have hi : eq' - before.length < w.length := by omega
  have hc : (before ++ w ++ after)[eq']? = some w[eq' - before.length] := by
    rw [append_assoc, getElem?_append_right hle, getElem?_append_left hi, getElem?_eq_getElem hi]
  exact absurd (hw _ (getElem_mem hi)) (by simp [hend _ hc])

end Strings

/-! ## The words of a derivation -/

section Derivation
variable {ts : List Token} {ws : List (List Char)} {fs : List Redirection} {t : Tree}

theorem words_wrap (fs : List Redirection) (t : Tree) :
    (fs.foldl Tree.wrap t).words = t.words ++ fs.map Redirection.file := by
  induction fs generalizing t with
  | nil => simp
  | cons f fs ih => simp [ih, Tree.wrap, Tree.words]

theorem words_back (n : Nat) (t : Tree) : (Tree.back^[n] t).words = t.words := by
  induction n generalizing t with
  | zero => rfl
  | succ n ih => exact ih t.back

theorem Redirs.words (h : Redirs ts fs) :
    ts.filterMap Token.text = fs.map Redirection.file := by
  induction h with
  | nil => rfl
  | @cons t _ _ _ _ _ ht _ ih => cases t <;> simp_all [redirection, Token.text, filterMap_cons]

theorem Words.words {gs : List Redirection} (h : Words ts ws gs) :
    (ws ++ gs.map Redirection.file).Perm (ts.filterMap Token.text) := by
  induction h with
  | nil => exact .refl _
  | cons hr _ ih =>
    simp only [filterMap_cons, Token.text, filterMap_append, hr.words, cons_append, map_append]
    exact .cons _ (perm_append_comm_assoc _ _ _ |>.trans (ih.append_left _))

/-- A derivation keeps every word, and has no other. -/
theorem Derives.words {nt : NonTerminal} (h : Derives nt ts t) :
    t.words.Perm (ts.filterMap Token.text) := by
  have hamp : ∀ n, (replicate n Token.amp).filterMap Token.text = [] := by
    intro n
    induction n with
    | zero => rfl
    | succ n ih => exact ih
  induction h with
  | line n _ ih => simpa [words_back, hamp] using ih
  | list n _ _ ih1 ih2 =>
    simpa [Tree.words, words_back, hamp, Token.text, filterMap_cons] using ih1.append ih2
  | single _ ih => exact ih
  | pipe _ _ ih1 ih2 => simpa [Tree.words, Token.text, filterMap_cons] using ih1.append ih2
  | block _ hr ih =>
    simpa [words_wrap, Token.text, filterMap_cons, hr.words] using ih.append_right _
  | simple hr hw _ =>
    simp only [words_wrap, Tree.words, map_append, filterMap_append, hr.words]
    exact (perm_append_comm_assoc _ _ _).trans (hw.words.append_left _)

theorem symbol_text {c : Char} {u : Token} (h : symbol c = some u) : u.text = none := by
  unfold symbol at h
  split_ifs at h <;> cases h <;> rfl

/-- A word is not empty. -/
theorem nextToken_text {l r : List Char} {u : Token} (h : nextToken l = some (u, r)) :
    u.text ≠ some [] := by
  intro hu
  cases l with
  | nil => cases h
  | cons c l =>
    simp only [nextToken] at h
    split at h
    · split at h <;> cases h <;> cases hu
    · next hsym =>
      cases h
      cases (symbol_text hsym).symm.trans hu
    · cases h
      cases hu

theorem text_ne_nil {s w : List Char} (h : w ∈ (tokens s).filterMap Token.text) : w ≠ [] := by
  have hN : ∀ n (l : List Char), ∀ u ∈ tokensN n l, u.text ≠ some [] := by
    intro n
    induction n with
    | zero => simp [tokensN]
    | succ n ih =>
      intro l
      rw [tokensN]
      split
      · simp
      · next hnext => exact forall_mem_cons.mpr ⟨nextToken_text hnext, ih _⟩
  obtain ⟨u, hu, hw⟩ := mem_filterMap.mp h
  rintro rfl
  exact hN _ _ u hu hw

end Derivation

/-! ## `parsecmd` -/

section Main
variable {s : List Char} {fuel : Nat} {c : Cursor}

theorem tokens_length (s : List Char) : (tokens s).length ≤ s.length := by
  have h : ∀ n (l : List Char), (tokensN n l).length ≤ n := by
    intro n
    induction n with
    | zero => exact fun _ => le_refl _
    | succ n ih =>
      intro l
      rw [tokensN]
      split
      · exact Nat.zero_le _
      · exact Nat.succ_le_succ (ih _)
  exact h _ s

theorem left_start (s : List Char) : Left s (tokens s) ⟨0, s⟩ := ⟨rfl, [], rfl, rfl⟩

/-- At the end of the tokens, `peek` leaves the cursor at the end of the string. -/
theorem pos_of_end (h : Left s [] c) : (c.skipWhile isSpace).pos = s.length := by
  obtain ⟨before, hbuf, hpos⟩ := h.pos.skipWhile
  have hrest : (c.skipWhile isSpace).rest = [] := toks_eq_nil h.toks
  rw [hrest, append_nil] at hbuf
  rw [hbuf, hpos]

/-- Behind the string there is no token. -/
theorem toks_of_pos {T : List Token} (h : Left s T c) (hpos : (c.skipWhile isSpace).pos = s.length)
    :
    T = [] := by
  obtain ⟨before, hbuf, hlen⟩ := h.pos.skipWhile (p := isSpace)
  have hrest : (c.skipWhile isSpace).rest = [] := by
    have := congrArg length hbuf
    rw [length_append] at this
    exact length_eq_zero_iff.mp (by omega)
  rw [← h.toks, ← toks_skip, Cursor.toks, hrest]
  rfl

theorem parsecmd_ok {cmd : Cmd} (h : parseline fuel ⟨0, s⟩ = .ok cmd c)
    (hpos : (c.skipWhile isSpace).pos = s.length) :
    parsecmd fuel s = .ok (cmd, nulterminate cmd (s ++ ['\x00'])) (c.skipWhile isSpace) := by
  refine (bind_of_ok h).trans ((bind_of_ok (peek_eq (by simp))).trans ((bind_of_ok rfl).trans ?_))
  exact congrFun (if_neg (not_not.mpr hpos)) _

theorem parsecmd_leftovers {cmd : Cmd} (h : parseline fuel ⟨0, s⟩ = .ok cmd c)
    (hpos : (c.skipWhile isSpace).pos ≠ s.length) :
    parsecmd fuel s = .error (.panic "syntax") (c.skipWhile isSpace) := by
  refine (bind_of_ok h).trans ((bind_of_ok (peek_eq (by simp))).trans ((bind_of_ok rfl).trans ?_))
  exact congrFun (if_pos hpos) _

section
variable (hfuel : 4 * s.length + 4 ≤ fuel)
include hfuel

theorem need_line : need .line (tokens s).length ≤ fuel := by
  have := tokens_length s
  simp only [need]
  omega

/-- A string that is no line is not accepted. -/
theorem parsecmd_sound :
    (∃ r c, parsecmd fuel s = .ok r c ∧ ∃ t, Derives .line (tokens s) t) ∨
      ∃ msg c, parsecmd fuel s = .error (.panic msg) c := by
  rcases parse_sound (left_start s) (need_line hfuel) with
    ⟨cmd, c, hrun, ts, t, T, hT, hder, hleft⟩ | ⟨e, c, hrun, he⟩
  · by_cases hpos : (c.skipWhile isSpace).pos = s.length
    · obtain rfl := toks_of_pos hleft hpos
      rw [append_nil] at hT
      exact .inl ⟨_, _, parsecmd_ok hrun hpos, t, hT ▸ hder⟩
    · exact .inr ⟨_, _, parsecmd_leftovers hrun hpos⟩
  · cases e with
    | panic msg =>
      have hrun : parseline fuel ⟨0, s⟩ = .error (.panic msg) c := hrun
      simp [parsecmd, bind, EStateM.bind, hrun]
    | overflow => cases he
    | spin => cases he

theorem parsecmd_complete {t : Tree} (hder : Derives .line (tokens s) t) : ∃ cmd c,
      parsecmd fuel s = .ok (cmd, nulterminate cmd (s ++ ['\x00'])) c ∧ Denotes s cmd t := by
  have hleft : Left s (tokens s ++ []) ⟨0, s⟩ := by
    rw [append_nil]
    exact left_start s
  have hneed : need .line (tokens s ++ []).length ≤ fuel := by
    rw [append_nil]
    exact need_line hfuel
  obtain ⟨cmd, c, hrun, hend, hden⟩ := (parse_complete hder hleft (.inl rfl) hneed).returns
  exact ⟨cmd, _, parsecmd_ok hrun (pos_of_end hend), hden⟩

end

/-- `parsecmd` returns for the lines of the grammar and no other strings, with the tree that the
derivation denotes; otherwise it panics. -/
theorem parsecmd_grammar (hnul : '\x00' ∉ s) (hfuel : 4 * s.length + 4 ≤ fuel) :
    ((∃ r c, parsecmd fuel s = .ok r c) ↔ ∃ t, Derives .line (tokens s) t) ∧
    ((∃ r c, parsecmd fuel s = .ok r c) ∨ ∃ msg c, parsecmd fuel s = .error (.panic msg) c) ∧
    ∀ t, Derives .line (tokens s) t →
      ∃ cmd buf c, parsecmd fuel s = .ok (cmd, buf) c ∧ cmd.tree buf = t := by
  have hcomplete : ∀ t, Derives .line (tokens s) t →
      ∃ cmd buf c, parsecmd fuel s = .ok (cmd, buf) c ∧ cmd.tree buf = t := fun t hder => by
    obtain ⟨cmd, c, hrun, hden⟩ := parsecmd_complete hfuel hder
    exact ⟨cmd, _, c, hrun, tree_nulterminate hden hnul⟩
  refine ⟨⟨?_, ?_⟩, ?_, hcomplete⟩
  · rintro ⟨r, c, hrun⟩
    rcases parsecmd_sound hfuel with ⟨_, _, _, hder⟩ | ⟨msg, c', hstop⟩
    · exact hder
    · cases hrun.symm.trans hstop
  · rintro ⟨t, hder⟩
    obtain ⟨cmd, buf, c, hrun, -⟩ := hcomplete t hder
    exact ⟨_, c, hrun⟩
  · exact (parsecmd_sound hfuel).imp_left fun ⟨r, c, hrun, _⟩ => ⟨r, c, hrun⟩

/-- Behind `nulterminate`, the words and the files of the redirections are the word tokens of the
line, and each is the text of its token: no NUL is written into another token, or behind the
buffer. -/
theorem words_survive {cmd : Cmd} {buf : List Char} {c : Cursor} (hnul : '\x00' ∉ s)
    (hfuel : 4 * s.length + 4 ≤ fuel) (h : parsecmd fuel s = .ok (cmd, buf) c) :
    (cmd.slices.map fun x => cstring buf x.1).Perm ((tokens s).filterMap Token.text) ∧
    ∀ x ∈ cmd.slices, ∃ w, cstring buf x.1 = w ∧ w ≠ [] ∧ Spans s x.1 x.2 w ∧ x.2 ≤ s.length ∧
      ∀ y ∈ cmd.slices, ¬ (x.1 ≤ y.2 ∧ y.2 < x.2) := by
  obtain ⟨-, -, -, t, hder⟩ | ⟨msg, c', hstop⟩ := parsecmd_sound hfuel
  · obtain ⟨cmd', c', hrun, hden⟩ := parsecmd_complete hfuel hder
    cases h.symm.trans hrun
    have hperm : (cmd.slices.map fun x => cstring (nulterminate cmd (s ++ ['\x00'])) x.1).Perm
        ((tokens s).filterMap Token.text) := by
      rw [← hden.words, tree_nulterminate hden hnul]
      exact hder.words
    refine ⟨hperm, fun x hx => ?_⟩
    obtain ⟨⟨w, hw⟩, hend⟩ := hden.slices x hx
    have hterm := nulterminate_line hden
    have hread := cstring_eq hw hterm.intact (hterm.ends _ hend) hnul
    refine ⟨w, hread, text_ne_nil (hread ▸ hperm.subset (mem_map_of_mem hx)), hw, hw.end_le,
      fun y hy => ?_⟩
    obtain ⟨⟨w', hw'⟩, -⟩ := hden.slices y hy
    exact hw.end_outside hw'
  · cases h.symm.trans hstop

end Main

/-- `ls | wc &`. -/
theorem parsecmd_grammar_pipe : ∃ cmd buf c,
    parsecmd 44 ['l', 's', ' ', '|', ' ', 'w', 'c', ' ', '&'] = .ok (cmd, buf) c ∧
      cmd.tree buf = .back (.pipe (.exec [['l', 's']]) (.exec [['w', 'c']])) := by
  have hword : ∀ w, Derives .exec [.word w] (.exec [w]) := fun w =>
    Derives.simple Redirs.nil (Words.cons Redirs.nil Words.nil) (by simp [MAXARGS])
  refine (parsecmd_grammar (by decide) (by decide)).2.2 _ ?_
  exact .line 1 (.pipe (hword ['l', 's']) (.single (hword ['w', 'c'])))

/-- `a>b`: the NUL behind `a` is written over the operator. -/
theorem words_survive_adjacent : ∃ cmd buf c, parsecmd 16 ['a', '>', 'b'] = .ok (cmd, buf) c ∧
    cmd.slices = [(0, 1), (2, 3)] ∧ cstring buf 0 = ['a'] ∧ cstring buf 2 = ['b'] ∧
    ∀ x ∈ cmd.slices, ∃ w, cstring buf x.1 = w ∧ w ≠ [] ∧ Spans ['a', '>', 'b'] x.1 x.2 w ∧
      x.2 ≤ 3 ∧ ∀ y ∈ cmd.slices, ¬ (x.1 ≤ y.2 ∧ y.2 < x.2) := by
  refine ⟨.redir (.exec (some 0 :: replicate 9 none) (some 1 :: replicate 9 none)) 2 3
    (O_WRONLY ||| O_CREATE ||| O_TRUNC) 1, ['a', '\x00', 'b', '\x00'], ⟨3, []⟩, ?_, ?_⟩
  · rfl
  · exact ⟨rfl, rfl, rfl, (words_survive (by decide) (by decide : 4 * 3 + 4 ≤ 16) rfl).2⟩

end Xv6.Sh
