import Xv6Rcu.Fs.File
import Xv6Rcu.Lib.Owner

/-!
# Reference counts of open files

- `slots`: how many descriptors of all processes hold a file.
- `Objs`: the pages of pipes and the references to inodes are those that the files hold.
- `Inv`: the state in the middle of a call, which may have references of its own. Each function of
  `file.c` and `pipe.c` has one lemma that says what it does to them.
-/

namespace Xv6.Files

open Lib Function

/-! ## References -/

section Refs
variable {P : Type} [Fintype P] {ofile : P × Fd → Option Fid} {q : P × Fd} {f g : Fid}

/-- The number of descriptors of all processes that hold `f`. -/
def slots (ofile : P × Fd → Option Fid) (f : Fid) : Nat :=
  ∑ q, if ofile q = some f then 1 else 0

theorem slots_pos (h : ofile q = some f) : 0 < slots ofile f := by
  have := le_sum_parties (fun x => if x = some f then 1 else 0) ofile q
  rwa [if_pos h] at this

variable [DecidableEq P]

theorem slots_set (ofile : P × Fd → Option Fid) (q : P × Fd) (x : Option Fid) (f : Fid) :
    slots (update ofile q x) f + (if ofile q = some f then 1 else 0) =
      slots ofile f + (if x = some f then 1 else 0) :=
  sum_move (fun x => if x = some f then 1 else 0) ofile q x

/-- The function `e` with `k` more at `f`. -/
def bump (e : Fid → Int) (f : Fid) (k : Int) : Fid → Int := Function.update e f (e f + k)

section
variable (e : Fid → Int)
include e

theorem bump_self (f : Fid) (k : Int) : bump e f k f = e f + k :=
  update_self ..

theorem bump_of_ne (k : Int) (h : g ≠ f) : bump e f k g = e g :=
  update_of_ne h ..

theorem bump_bump (f : Fid) (j k : Int) : bump (bump e f j) f k = bump e f (j + k) := by
  funext g
  by_cases h : g = f
  · rw [h, bump_self, bump_self, bump_self, add_assoc]
  · rw [bump_of_ne _ _ h, bump_of_ne _ _ h, bump_of_ne _ _ h]

theorem bump_zero (f : Fid) : bump e f 0 = e := by
  rw [bump, add_zero, update_eq_self]

theorem bump_cancel (f : Fid) (k : Int) : bump (bump e f k) f (-k) = e := by
  rw [bump_bump, Int.add_right_neg, bump_zero]

theorem bump_comm (h : f ≠ g) (j k : Int) : bump (bump e f j) g k = bump (bump e g k) f j := by
  rw [bump, bump_of_ne _ _ h.symm, bump, bump, bump_of_ne _ _ h]
  exact update_comm h ..

end

end Refs

/-! ## What the files hold -/

inductive Obj (I : Type) where
  | pipe (pi : Nat) (writable : Bool)
  | inode (ip : I)
  deriving DecidableEq

/-- The end of a pipe or the reference to an inode that a file holds. -/
def File.obj {I : Type} (x : File I) : Option (Obj I) :=
  match x.type with
  | .none => none
  | .pipe => x.pipe.map (.pipe · x.writable)
  | .inode | .device => x.ip.map .inode

def Pipe.isOpen (x : Pipe) (writable : Bool) : Bool := if writable then x.writeopen else x.readopen

section Objs
variable {I : Type} [DecidableEq I]

/-- The pages of pipes and the references to inodes are those of the files; `hold` are the
references that the running call has besides. -/
structure Objs (obj : Fid → Option (Obj I)) (page : Nat → Bool) (pipe : Nat → Pipe) (iref : I → Nat)
    (hold : I → Nat) : Prop where
  paged : ∀ pi, page pi = true ↔ ∃ f w, obj f = some (.pipe pi w)
  opened : ∀ pi w, page pi = true →
    ((pipe pi).isOpen w = true ↔ ∃ f, obj f = some (.pipe pi w))
  unique : ∀ f g pi w, obj f = some (.pipe pi w) → obj g = some (.pipe pi w) → f = g
  counted : ∀ ip, iref ip = (∑ f, if obj f = some (.inode ip) then 1 else 0) + hold ip

variable {obj : Fid → Option (Obj I)} {page : Nat → Bool} {pipe : Nat → Pipe} {iref hold : I → Nat}
  {f f0 f1 : Fid} {pi : Nat} {w : Bool} {ip : I}

theorem inodes_set (obj : Fid → Option (Obj I)) (f : Fid) (x : Option (Obj I)) (ip : I) :
    (∑ g, if update obj f x g = some (.inode ip) then 1 else 0) +
      (if obj f = some (.inode ip) then 1 else 0) =
    (∑ g, if obj g = some (.inode ip) then 1 else 0) + (if x = some (.inode ip) then 1 else 0) :=
  sum_move (fun x : Option (Obj I) => if x = some (.inode ip) then 1 else 0) obj f x

section
variable (h : Objs obj page pipe iref hold)
include h

theorem Objs.hold_inode (ip : I) :
    Objs obj page pipe (update iref ip (iref ip + 1))
      (update hold ip (hold ip + 1)) := by
  refine ⟨h.paged, h.opened, h.unique, fun ip' => ?_⟩
  by_cases he : ip' = ip
  · rw [he, update_self, update_self, h.counted, add_assoc]
  · rw [update_of_ne he, update_of_ne he, h.counted]

theorem Objs.put_inode (hpos : 0 < hold ip) :
    0 < iref ip ∧ Objs obj page pipe (update iref ip (iref ip - 1))
      (update hold ip (hold ip - 1)) := by
  have hi := h.counted ip
  refine ⟨by omega, h.paged, h.opened, h.unique, fun ip' => ?_⟩
  by_cases he : ip' = ip
  · rw [he, update_self, update_self]
    omega
  · rw [update_of_ne he, update_of_ne he, h.counted]

/-- The file `f` gets the object `x`, and neither `x` nor the object before is a pipe. -/
theorem Objs.set {x : Option (Obj I)} {iref' hold' : I → Nat}
    (hf : ∀ pi w, obj f ≠ some (.pipe pi w)) (hx : ∀ pi w, x ≠ some (.pipe pi w))
    (hc : ∀ ip, iref' ip + hold ip + (if obj f = some (.inode ip) then 1 else 0) =
      iref ip + hold' ip + (if x = some (.inode ip) then 1 else 0)) :
    Objs (update obj f x) page pipe iref' hold' := by
  have hpipe : ∀ g pi w, update obj f x g = some (.pipe pi w) ↔ obj g = some (.pipe pi w) := by
    intro g pi w
    by_cases hg : g = f
    · rw [hg, update_self]
      exact iff_of_false (hx pi w) (hf pi w)
    · rw [update_of_ne hg]
  refine ⟨?_, ?_, ?_, fun ip => ?_⟩
  · simpa only [hpipe] using h.paged
  · simpa only [hpipe] using h.opened
  · simpa only [hpipe] using h.unique
  · have hs := inodes_set obj f x ip
    have hi := h.counted ip
    have hc := hc ip
    omega

/-- The file `f` takes the reference of the call. -/
theorem Objs.open_inode (hf : obj f = none) (hpos : 0 < hold ip) :
    Objs (update obj f (some (.inode ip))) page pipe iref (update hold ip (hold ip - 1)) := by
  refine h.set (by simp [hf]) (by simp) fun ip' => ?_
  by_cases he : ip' = ip
  · simp only [he, hf, update_self, reduceCtorEq, if_false, if_true]
    omega
  · simp [hf, he, Ne.symm he]

/-- The file `f` gives its reference up. -/
theorem Objs.close_inode (hf : obj f = some (.inode ip)) :
    0 < iref ip ∧ Objs (update obj f none) page pipe (update iref ip (iref ip - 1)) hold := by
  have hpos : 0 < iref ip := by
    have hle := le_sum_parties (fun x => if x = some (.inode ip) then 1 else 0) obj f
    rw [if_pos hf] at hle
    exact (h.counted ip).symm ▸ Nat.add_pos_left hle _
  refine ⟨hpos, h.set (by simp [hf]) (by simp) fun ip' => ?_⟩
  by_cases he : ip' = ip
  · simp only [he, hf, update_self, reduceCtorEq, if_false, if_true]
    omega
  · simp [hf, he, Ne.symm he]

/-- A new pipe. -/
theorem Objs.open_pipe (h0 : obj f0 = none) (h1 : obj f1 = none) (hne : f0 ≠ f1)
    (hpg : page pi = false) :
    Objs (update (update obj f0 (some (.pipe pi false))) f1
      (some (.pipe pi true))) (update page pi true)
      (update pipe pi ⟨true, true⟩) iref hold := by
  have hnone : ∀ f w, obj f ≠ some (.pipe pi w) := fun f w hf => by
    rw [(h.paged pi).mpr ⟨f, w, hf⟩] at hpg
    cases hpg
  have hsome : ∀ x : Obj I, (none : Option (Obj I)) ≠ some x := fun x =>
    (Option.some_ne_none x).symm
  -- the two ends are the only objects with the page `pi`
  have hnew : ∀ g w, update (update obj f0 (some (.pipe pi false))) f1
      (some (.pipe pi true)) g = some (.pipe pi w) ↔ g = if w then f1 else f0 := by
    intro g w
    by_cases hg1 : g = f1
    · rw [hg1]
      cases w <;> simp [hne.symm]
    · rw [update_of_ne hg1]
      by_cases hg0 : g = f0
      · rw [hg0]
        cases w <;> simp [hne]
      · rw [update_of_ne hg0]
        refine iff_of_false (hnone g w) ?_
        cases w
        · exact hg0
        · exact hg1
  have hold : ∀ g pj w, pj ≠ pi → (update (update obj f0
      (some (.pipe pi false))) f1 (some (.pipe pi true)) g = some (.pipe pj w) ↔
      obj g = some (.pipe pj w)) := by
    intro g pj w hpj
    by_cases hg1 : g = f1
    · rw [hg1, update_self, h1]
      exact iff_of_false (fun h => hpj (by cases h; rfl)) (hsome _)
    · rw [update_of_ne hg1]
      by_cases hg0 : g = f0
      · rw [hg0, update_self, h0]
        exact iff_of_false (fun h => hpj (by cases h; rfl)) (hsome _)
      · rw [update_of_ne hg0]
  refine ⟨fun pj => ?_, fun pj w hpj => ?_, fun f g pj w hf hg => ?_, fun ip => ?_⟩
  · by_cases he : pj = pi
    · rw [he, update_self]
      exact iff_of_true rfl ⟨f0, false, (hnew f0 false).mpr rfl⟩
    · rw [update_of_ne he, h.paged pj]
      simp [hold _ pj _ he]
  · by_cases he : pj = pi
    · rw [he, update_self]
      refine iff_of_true ?_ ⟨_, (hnew _ w).mpr rfl⟩
      cases w <;> rfl
    · rw [update_of_ne he] at hpj ⊢
      rw [h.opened pj w hpj]
      simp [hold _ pj _ he]
  · by_cases he : pj = pi
    · subst he
      rw [(hnew f w).mp hf, (hnew g w).mp hg]
    · exact h.unique f g pj w ((hold f pj w he).mp hf) ((hold g pj w he).mp hg)
  · have hs0 := inodes_set obj f0 (some (.pipe pi false)) ip
    have hs1 := inodes_set (update obj f0 (some (.pipe pi false))) f1
      (some (.pipe pi true)) ip
    rw [update_of_ne hne.symm, h1, if_neg (hsome _), if_neg nofun] at hs1
    rw [h0, if_neg (hsome _), if_neg nofun] at hs0
    rw [h.counted]
    omega

end

theorem Pipe.shut_isOpen (x : Pipe) (w w' : Bool) :
    (x.shut w).isOpen w' = if w' = w then false else x.isOpen w' := by
  cases w <;> cases w' <;> rfl

theorem Pipe.closed_iff (x : Pipe) (w : Bool) :
    ((x.shut w).readopen = false ∧ (x.shut w).writeopen = false) ↔ x.isOpen (!w) = false := by
  cases w <;> simp [shut, isOpen]

/-- The file `f` closes its end of a pipe, and the other end is open or not. -/
theorem Objs.close_pipe (h : Objs obj page pipe iref hold) (hf : obj f = some (.pipe pi w)) :
    page pi = true ∧
      ((pipe pi).isOpen (!w) = true → Objs (update obj f none) page
        (update pipe pi ((pipe pi).shut w)) iref hold) ∧
      ((pipe pi).isOpen (!w) = false → Objs (update obj f none)
        (update page pi false) (update pipe pi ((pipe pi).shut w)) iref
        hold) := by
  have hpg : page pi = true := (h.paged pi).mpr ⟨f, w, hf⟩
  have hobj : ∀ g pj w', update obj f none g = some (.pipe pj w') ↔
      obj g = some (.pipe pj w') ∧ ¬ (pj = pi ∧ w' = w) := by
    intro g pj w'
    by_cases hg : g = f
    · rw [hg, update_self, hf]
      refine iff_of_false nofun ?_
      rintro ⟨he, hne⟩
      cases he
      exact hne ⟨rfl, rfl⟩
    · rw [update_of_ne hg, iff_self_and]
      rintro hg' ⟨rfl, rfl⟩
      exact hg (h.unique g f pj w' hg' hf)
  have hunique : ∀ g g' pj w', update obj f none g = some (.pipe pj w') →
      update obj f none g' = some (.pipe pj w') → g = g' := fun g g' pj w' hg hg' =>
    h.unique g g' pj w' ((hobj g pj w').mp hg).1 ((hobj g' pj w').mp hg').1
  have hcount : ∀ ip, iref ip =
      (∑ g, if update obj f none g = some (.inode ip) then 1 else 0) + hold ip := by
    intro ip
    have hs := inodes_set obj f none ip
    rw [hf, if_neg nofun, if_neg nofun] at hs
    rw [h.counted]
    omega
  have hopen : ∀ pj w', page pj = true →
      ((update pipe pi ((pipe pi).shut w) pj).isOpen w' = true ↔
        ∃ g, update obj f none g = some (.pipe pj w')) := by
    intro pj w' hpj
    simp only [hobj]
    by_cases he : pj = pi
    · rw [he, update_self, Pipe.shut_isOpen]
      by_cases hw : w' = w
      · rw [if_pos hw]
        exact iff_of_false Bool.false_ne_true fun ⟨_, _, hn⟩ => hn ⟨rfl, hw⟩
      · rw [if_neg hw, h.opened pi w' hpg]
        simp [hw]
    · rw [update_of_ne he, h.opened pj w' hpj]
      simp [he]
  refine ⟨hpg, fun ho => ⟨fun pj => ?_, hopen, hunique, hcount⟩,
    fun ho => ⟨fun pj => ?_, fun pj w' hpj => ?_, hunique, hcount⟩⟩
  · simp only [hobj]
    by_cases he : pj = pi
    · obtain ⟨g, hg⟩ := (h.opened pi (!w) hpg).mp ho
      rw [he]
      exact iff_of_true hpg ⟨g, !w, hg, fun hn => by cases w <;> cases hn.2⟩
    · rw [h.paged pj]
      simp [he]
  · simp only [hobj]
    by_cases he : pj = pi
    · rw [he, update_self]
      refine iff_of_false Bool.false_ne_true ?_
      rintro ⟨g, w', hg, hn⟩
      have hw : w' = !w := by
        cases w <;> cases w' <;> simp_all
      rw [hw] at hg
      rw [(h.opened pi (!w) hpg).mpr ⟨g, hg⟩] at ho
      cases ho
    · rw [update_of_ne he, h.paged pj]
      simp [he]
  · by_cases he : pj = pi
    · rw [he, update_self] at hpj
      cases hpj
    · rw [update_of_ne he] at hpj
      exact hopen pj w' hpj

end Objs

/-! ## The invariant -/

section Cases
variable {P I : Type}

theorem fdalloc_cases [DecidableEq P] (s : St P I) (p : P) (f : Fid) : fdalloc s p f = none ∨
    ∃ fd, fdalloc s p f = some (fd, s.setFd p fd (some f)) ∧ s.ofile (p, fd) = none := by
  unfold fdalloc
  cases hf : (List.finRange NOFILE).find? fun fd => s.ofile (p, fd) = none with
  | none => exact .inl rfl
  | some fd =>
    have := List.find?_some hf
    exact .inr ⟨fd, rfl, by simpa using this⟩

variable {s : St P I} {pi : Nat} {w : Bool}

theorem pipeclose_open (ho : (s.pipe pi).isOpen (!w) = true) :
    pipeclose s pi w = some { s with pipe := update s.pipe pi ((s.pipe pi).shut w) } := by
  rw [pipeclose, if_neg]
  rw [Pipe.closed_iff, ho]
  exact nofun

theorem pipeclose_last (ho : (s.pipe pi).isOpen (!w) = false) (hp : s.page pi = true) :
    pipeclose s pi w = some { s with
      pipe := update s.pipe pi ((s.pipe pi).shut w)
      page := update s.page pi false } := by
  rw [pipeclose, if_pos ((Pipe.closed_iff _ _).mpr ho), kfree, if_pos hp]

theorem closeObj_eq [DecidableEq I] {ff : File I} (h : ff.type ≠ .none → ff.obj ≠ none) :
    closeObj s ff = match ff.obj with
      | none => some s
      | some (.pipe pi w) => pipeclose s pi w
      | some (.inode ip) => iput s ip := by
  obtain ⟨type, ref, readable, writable, pipe, ip, off, major⟩ := ff
  cases type with
  | none => rfl
  | pipe =>
    cases pipe with
    | none => exact absurd rfl (h nofun)
    | some pi => rfl
  | inode | device =>
    cases ip with
    | none => exact absurd rfl (h nofun)
    | some ip => rfl

end Cases

section Inv
variable {P I : Type} [Fintype P] [DecidableEq I]

/-- The state in the middle of a call: `extra` are the references of the call to the files, and
`hold` those to the inodes. -/
structure Inv (extra : Fid → Int) (hold : I → Nat) (s : St P I) : Prop where
  count : ∀ f, (s.file f).ref = slots s.ofile f + extra f
  dead : ∀ p fd, s.live p = false → s.ofile (p, fd) = none
  typed : ∀ f, (s.file f).ref = 0 → (s.file f).type = .none
  obj : ∀ f, (s.file f).type ≠ .none → (s.file f).obj ≠ none
  objs : Objs (fun f => (s.file f).obj) s.page s.pipe s.iref hold

variable {extra : Fid → Int} {hold : I → Nat} {s s' : St P I} {p : P} {f f0 f1 : Fid} {fd : Fd}
  {x : File I} {ip : I}

/-! ### Counts -/

section
variable (h : Inv extra hold s)
include h

/-- The file `f` is changed and gets `k` more. -/
theorem Inv.setFile {hold' : I → Nat} {k : Int} (hfile : s'.file = update s.file f x)
    (hofile : s'.ofile = s.ofile) (hlive : s'.live = s.live) (hk : x.ref = (s.file f).ref + k)
    (ht : x.ref = 0 → x.type = .none) (hx : x.type ≠ .none → x.obj ≠ none)
    (ho : Objs (update (fun g => (s.file g).obj) f x.obj) s'.page s'.pipe s'.iref hold') :
    Inv (bump extra f k) hold' s' := by
  have hself : s'.file f = x := by rw [hfile, update_self]
  have hother : ∀ g, g ≠ f → s'.file g = s.file g := fun g hg => by
    rw [hfile, update_of_ne hg]
  have hobj : (fun g => (s'.file g).obj) = update (fun g => (s.file g).obj) f x.obj := by
    funext g
    by_cases hg : g = f
    · rw [hg, update_self, hself]
    · rw [update_of_ne hg, hother g hg]
  refine ⟨fun g => ?_, ?_, fun g hg => ?_, fun g hg => ?_, hobj ▸ ho⟩
  · rw [hofile]
    by_cases hgf : g = f
    · rw [hgf, hself, bump_self, hk, h.count f]
      exact add_assoc ..
    · rw [bump_of_ne _ _ hgf, hother g hgf]
      exact h.count g
  · rw [hofile, hlive]
    exact h.dead
  · by_cases hgf : g = f
    · rw [hgf, hself] at hg ⊢
      exact ht hg
    · rw [hother g hgf] at hg ⊢
      exact h.typed g hg
  · by_cases hgf : g = f
    · rw [hgf, hself] at hg ⊢
      exact hx hg
    · rw [hother g hgf] at hg ⊢
      exact h.obj g hg

/-- The file `f` gets another count that is not 0. -/
theorem Inv.setRef {r k : Int} (hk : r = (s.file f).ref + k) (hr : r ≠ 0) :
    Inv (bump extra f k) hold (s.setFile f { s.file f with ref := r }) := by
  refine h.setFile rfl rfl rfl hk (fun h0 => absurd h0 hr) (h.obj f) ?_
  have : ({ s.file f with ref := r } : File I).obj = (s.file f).obj := rfl
  rw [this, update_eq_self]
  exact h.objs

/-- What `filealloc` returns: a file that was not in use, with a reference for the call. -/
structure Fresh (s : St P I) (f : Fid) (extra : Fid → Int) (hold : I → Nat) (s' : St P I) :
    Prop where
  inv : Inv (bump extra f 1) hold s'
  unused : (s.file f).ref = 0
  self : s'.file f = { s.file f with ref := 1 }
  file : ∀ g, g ≠ f → s'.file g = s.file g
  ofile : s'.ofile = s.ofile
  live : s'.live = s.live
  page : s'.page = s.page

theorem Inv.filealloc :
    filealloc s = none ∨ ∃ f s', filealloc s = some (f, s') ∧ Fresh s f extra hold s' := by
  unfold Files.filealloc
  cases hf : (List.finRange NFILE).find? fun f => (s.file f).ref = 0 with
  | none => exact .inl rfl
  | some f =>
    have hf : (s.file f).ref = 0 := by simpa using List.find?_some hf
    exact .inr ⟨f, _, rfl, h.setRef (by rw [hf]; rfl) (by decide), hf, update_self ..,
      fun g hg => update_of_ne hg .., rfl, rfl, rfl⟩

theorem Inv.filedup (hf : 1 ≤ (s.file f).ref) :
    ∃ s', filedup s f = some s' ∧ Inv (bump extra f 1) hold s' ∧ s'.ofile = s.ofile ∧
      s'.live = s.live := by
  refine ⟨s.setFile f { s.file f with ref := (s.file f).ref + 1 }, ?_, h.setRef rfl (by omega), rfl,
    rfl⟩
  rw [Files.filedup, if_neg (by omega)]

end

section Fd
variable [DecidableEq P]

theorem Inv.setFd (h : Inv extra hold s) {y : Option Fid} {extra' : Fid → Int}
    (hd : s.live p = false → y = none)
    (he : ∀ f, (if y = some f then 1 else 0) + extra' f =
      (if s.ofile (p, fd) = some f then 1 else 0) + extra f) :
    Inv extra' hold (s.setFd p fd y) := by
  refine ⟨fun g => ?_, fun q fd' hq => ?_, h.typed, h.obj, h.objs⟩
  · have hs := slots_set s.ofile (p, fd) y g
    have hg := h.count g
    have he := he g
    show (s.file g).ref = slots (update s.ofile (p, fd) y) g + extra' g
    split at hs <;> split at hs <;> simp_all <;> omega
  · show update s.ofile (p, fd) y (q, fd') = none
    by_cases hqp : (q, fd') = (p, fd)
    · rw [hqp, update_self]
      exact hd (by cases hqp; exact hq)
    · rw [update_of_ne hqp]
      exact h.dead q fd' hq

theorem bump_some (e : Fid → Int) (f g : Fid) (k : Int) :
    bump e f k g = (if some f = some g then k else 0) + e g := by
  by_cases hg : g = f
  · rw [hg, if_pos rfl, bump_self, add_comm]
  · rw [if_neg fun h => hg (Option.some.inj h).symm, bump_of_ne _ _ hg, zero_add]

/-- A reference of the call goes to a free descriptor. -/
theorem Inv.install (h : Inv extra hold s) (hl : s.live p = true) (hfd : s.ofile (p, fd) = none) :
    Inv (bump extra f (-1)) hold (s.setFd p fd (some f)) := by
  refine h.setFd (fun h' => by rw [hl] at h'; cases h') fun g => ?_
  rw [hfd, bump_some, if_neg (Option.some_ne_none _).symm]
  split <;> omega

/-- A reference of a descriptor goes to the call. -/
theorem Inv.uninstall (h : Inv extra hold s) (hfd : s.ofile (p, fd) = some f) :
    Inv (bump extra f 1) hold (s.setFd p fd none) := by
  refine h.setFd (fun _ => rfl) fun g => ?_
  rw [hfd, bump_some, if_neg nofun]
  split <;> omega

end Fd

/-! ### Objects -/

section
variable (h : Inv extra hold s)
include h

theorem Inv.iget (ip : I) : Inv extra (update hold ip (hold ip + 1)) (iget s ip) :=
  ⟨h.count, h.dead, h.typed, h.obj, h.objs.hold_inode ip⟩

theorem Inv.iput (hpos : 0 < hold ip) :
    iput s ip = some { s with iref := update s.iref ip (s.iref ip - 1) } ∧
      Inv extra (update hold ip (hold ip - 1))
        { s with iref := update s.iref ip (s.iref ip - 1) } := by
  obtain ⟨hi, ho⟩ := h.objs.put_inode hpos
  refine ⟨?_, h.count, h.dead, h.typed, h.obj, ho⟩
  rw [Files.iput, if_neg (by omega)]

/-- What `fileclose` does: it takes one reference, and it changes no other file. -/
structure Closed (s : St P I) (f : Fid) (extra : Fid → Int) (hold : I → Nat) (s' : St P I) :
    Prop where
  inv : Inv (bump extra f (-1)) hold s'
  ofile : s'.ofile = s.ofile
  live : s'.live = s.live
  file : ∀ g, g ≠ f → s'.file g = s.file g

/-- The last reference goes, with the object. -/
theorem Closed.of_last (hf : (s.file f).ref = 1)
    (hfile : s'.file = update s.file f { s.file f with ref := 0, type := .none })
    (hofile : s'.ofile = s.ofile) (hlive : s'.live = s.live)
    (ho : Objs (update (fun g => (s.file g).obj) f none) s'.page s'.pipe s'.iref hold) :
    Closed s f extra hold s' :=
  ⟨h.setFile hfile hofile hlive (by rw [hf]; rfl) (fun _ => rfl) (fun hn => absurd rfl hn) ho,
    hofile, hlive, fun g hg => by rw [hfile, update_of_ne hg]⟩

theorem Inv.fileclose (hf : 1 ≤ (s.file f).ref) :
    ∃ s', fileclose s f = some s' ∧ Closed s f extra hold s' := by
  unfold Files.fileclose
  rw [if_neg (by omega)]
  by_cases hlast : 0 < (s.file f).ref - 1
  · rw [if_pos hlast]
    exact ⟨_, rfl, h.setRef rfl (by omega), rfl, rfl, fun g hg => update_of_ne hg ..⟩
  rw [if_neg hlast]
  have hone : (s.file f).ref = 1 := by omega
  rw [closeObj_eq (h.obj f)]
  cases hobj : (s.file f).obj with
  | none =>
    refine ⟨_, rfl, .of_last h hone rfl rfl rfl ?_⟩
    rw [← hobj, update_eq_self]
    exact h.objs
  | some o =>
    cases o with
    | pipe pi w =>
      obtain ⟨hpage, hopen, hclosed⟩ := h.objs.close_pipe hobj
      cases ho : (s.pipe pi).isOpen (!w) with
      | true => exact ⟨_, pipeclose_open ho, .of_last h hone rfl rfl rfl (hopen ho)⟩
      | false => exact ⟨_, pipeclose_last ho hpage, .of_last h hone rfl rfl rfl (hclosed ho)⟩
    | inode ip =>
      obtain ⟨hpos, ho⟩ := h.objs.close_inode hobj
      exact ⟨_, if_neg (pos_iff_ne_zero.mp hpos), .of_last h hone rfl rfl rfl ho⟩

end

end Inv

end Xv6.Files
