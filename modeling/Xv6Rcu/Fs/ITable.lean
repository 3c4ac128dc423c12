import Xv6Rcu.Lib.Machine
import Xv6Rcu.Lib.Owner

/-!
# The inode table

`ialloc`, `iget`, `idup`, `ilock`, `iupdate`, `iunlock` and `iput` of `fs.c` by any number of
processes in any interleaving. A step is a section under `itable.lock` or under the sleep lock of an
inode. `iput` has up to three: the test under `itable.lock`, which takes the sleep lock; the freeing
of the inode under the sleep lock; and the last `ref--`. `ialloc` has two: the mark on the disk, and
`iget`.

- An inode is named by a pair of a device and a number, of any type `K`. Its content (size, blocks,
  major and minor number) is of any type `C`; `default` is the content without blocks.
- The lock holder changes the content, `nlink++` and `nlink--` as it likes, and calls `iupdate`
  after its changes, as the comment of `iupdate` asks for.
- A panic (`iget: no inodes`, `ilock: no type`) and a process that waits for a lock do not move.
-/

namespace Xv6.ITable

open Lib Function
open Option (ite_none_right_eq_some)

def NINODE : Nat := 50

abbrev Ent := Fin NINODE

/-- `struct dinode`. -/
structure Dinode (C : Type) where
  type : Nat
  nlink : Nat
  content : C
  deriving DecidableEq

/-- `struct inode`: the copy of the disk inode is `mem`. -/
structure Inode (P K C : Type) where
  key : K
  ref : Nat := 0
  lock : Option P := none
  valid : Bool := false
  mem : Dinode C

/-- Where a process is. -/
inductive Pc (K : Type) where
  | idle
  /-- In `ialloc`, after the mark on the disk. -/
  | marked (k : K)
  /-- In `create`, before `ilock`. -/
  | fresh (e : Ent)
  /-- In `create`, before `ip->nlink = 1` and `iupdate`. -/
  | init (e : Ent)
  /-- In `iput`, with the sleep lock. -/
  | trunc (e : Ent)
  /-- In `iput`, before `ref--`. -/
  | drop (e : Ent)
  deriving DecidableEq

structure St (P K C : Type) where
  table : Ent → Inode P K C
  disk : K → Dinode C
  pc : P → Pc K := fun _ => .idle
  /-- The references that each process has got and not put. -/
  held : Ent → P → Nat := fun _ _ => 0
  /-- The lock holder has changed the copy since the last `iupdate`. -/
  changed : Ent → Bool := fun _ => false

inductive Act (P K C : Type) where
  /-- `iget` for a path. -/
  | iget (k : K)
  /-- `idup`, for the process `q`. -/
  | idup (q : P) (e : Ent)
  | ilock (e : Ent)
  /-- The lock holder changes the content. -/
  | write (e : Ent) (c : C)
  /-- `ip->nlink++`, of a `short` that does not wrap. -/
  | link (e : Ent)
  /-- `ip->nlink--`. -/
  | unlink (e : Ent)
  | iupdate (e : Ent)
  | iunlock (e : Ent)
  | iput (e : Ent)
  | ialloc (k : K) (type : Nat)
  /-- The next section of the call that the process is in. -/
  | step
  deriving DecidableEq

structure Lbl (P K C : Type) where
  p : P
  act : Act P K C

section Code
variable {P K C : Type} [DecidableEq P] [DecidableEq K] [Inhabited C]

/-- The entry `e` becomes `x`, the process `p` has `n` references to it and goes to `pc`. -/
def St.touch (s : St P K C) (p : P) (pc : Pc K) (e : Ent) (x : Inode P K C) (n : Nat) : St P K C :=
  { s with
    table := update s.table e x
    pc := update s.pc p pc
    held := update s.held e (update (s.held e) p n) }

/-- The lock holder changes the copy. -/
def St.change (s : St P K C) (e : Ent) (d : Dinode C) : St P K C :=
  { s with
    table := update s.table e { s.table e with mem := d }
    changed := update s.changed e true }

/-- `iupdate`. -/
def St.iupdate (s : St P K C) (e : Ent) : St P K C :=
  { s with
    disk := update s.disk (s.table e).key (s.table e).mem
    changed := update s.changed e false }

/-- The entry that `iget` returns, with its new state. -/
def find (s : St P K C) (k : K) : Option (Ent × Inode P K C) :=
  match (List.finRange NINODE).find? fun e => 0 < (s.table e).ref ∧ (s.table e).key = k with
  | some e => some (e, { s.table e with ref := (s.table e).ref + 1 })
  | none =>
    ((List.finRange NINODE).find? fun e => (s.table e).ref = 0).map fun e =>
      (e, { s.table e with key := k, ref := 1, valid := false })

def iget (s : St P K C) (p : P) (k : K) (pc : Ent → Pc K) : Option (St P K C) :=
  (find s k).map fun x => s.touch p (pc x.1) x.1 x.2 (s.held x.1 p + 1)

def ilock (s : St P K C) (p : P) (e : Ent) (pc : Pc K) : Option (St P K C) :=
  let x := s.table e
  if x.lock = none then
    if x.valid then some (s.touch p pc e { x with lock := some p } (s.held e p))
    else if (s.disk x.key).type = 0 then none
    else some (s.touch p pc e
      { x with lock := some p, valid := true, mem := s.disk x.key } (s.held e p))
  else none

/-- `ref--`, and the end of `iput`. -/
def unref (s : St P K C) (p : P) (e : Ent) : St P K C :=
  s.touch p .idle e { s.table e with ref := (s.table e).ref - 1 } (s.held e p - 1)

/-- The first section of `iput`. -/
def iput (s : St P K C) (p : P) (e : Ent) : Option (St P K C) :=
  let x := s.table e
  if x.ref = 1 ∧ x.valid = true ∧ x.mem.nlink = 0 then
    if x.lock = none then some (s.touch p (.trunc e) e { x with lock := some p } (s.held e p))
    else none
  else some (unref s p e)

/-- The second section of `iput`: `itrunc`, `ip->type = 0`, `iupdate` and `ip->valid = 0`. -/
def truncate (s : St P K C) (p : P) (e : Ent) : St P K C :=
  let x := s.table e
  let d : Dinode C := { x.mem with type := 0, content := default }
  { s.touch p (.drop e) e { x with lock := none, valid := false, mem := d } (s.held e p) with
    disk := update s.disk x.key d }

/-- `ip->nlink = 1` and `iupdate` of `create`. -/
def initialise (s : St P K C) (p : P) (e : Ent) : St P K C :=
  { (s.change e { (s.table e).mem with nlink := 1 }).iupdate e with
    pc := update s.pc p .idle }

def ialloc (s : St P K C) (p : P) (k : K) (type : Nat) : St P K C :=
  { s with
    disk := update s.disk k ⟨type, 0, default⟩
    pc := update s.pc p (.marked k) }

def step (s : St P K C) (p : P) : Pc K → Act P K C → Option (St P K C)
  | .idle, .iget k => iget s p k fun _ => .idle
  | .idle, .idup q e =>
    if 0 < s.held e p then
      some (s.touch q (s.pc q) e { s.table e with ref := (s.table e).ref + 1 } (s.held e q + 1))
    else none
  | .idle, .ilock e => if 0 < s.held e p then ilock s p e .idle else none
  | .idle, .write e c =>
    if (s.table e).lock = some p then some (s.change e { (s.table e).mem with content := c })
    else none
  | .idle, .link e =>
    if (s.table e).lock = some p ∧ (s.table e).mem.nlink < 2 ^ 15 - 1 then
      some (s.change e { (s.table e).mem with nlink := (s.table e).mem.nlink + 1 })
    else none
  | .idle, .unlink e =>
    if (s.table e).lock = some p ∧ 1 ≤ (s.table e).mem.nlink then
      some (s.change e { (s.table e).mem with nlink := (s.table e).mem.nlink - 1 })
    else none
  | .idle, .iupdate e => if (s.table e).lock = some p then some (s.iupdate e) else none
  | .idle, .iunlock e =>
    if (s.table e).lock = some p ∧ s.changed e = false then
      some (s.touch p .idle e { s.table e with lock := none } (s.held e p))
    else none
  | .idle, .iput e =>
    if 0 < s.held e p ∧ (s.table e).lock ≠ some p then iput s p e else none
  | .idle, .ialloc k type =>
    if (s.disk k).type = 0 ∧ type ≠ 0 then some (ialloc s p k type) else none
  | .marked k, .step => iget s p k .fresh
  | .fresh e, .step => ilock s p e (.init e)
  | .init e, .step => some (initialise s p e)
  | .trunc e, .step => some (truncate s p e)
  | .drop e, .step => some (unref s p e)
  | _, _ => none

def machine : Machine (St P K C) (Lbl P K C) where
  next s l := step s l.p (s.pc l.p) l.act

end Code

/-! ## What a step does -/

section Steps
variable {P K C : Type} [DecidableEq P] [DecidableEq K] [Inhabited C]

/-- `iget k` for a path or in `ialloc`, and where the process is after it. -/
inductive Gets (s : St P K C) (p : P) : Act P K C → K → (Ent → Pc K) → Prop where
  | path {k : K} : s.pc p = .idle → Gets s p (.iget k) k fun _ => .idle
  | alloc {k : K} : s.pc p = .marked k → Gets s p .step k .fresh

/-- `ilock`, and where the process is after it. -/
inductive Locks (s : St P K C) (p : P) (e : Ent) : Act P K C → Pc K → Prop where
  | use : s.pc p = .idle → 0 < s.held e p → Locks s p e (.ilock e) .idle
  | create : s.pc p = .fresh e → Locks s p e .step (.init e)

inductive Did (s : St P K C) (p : P) : Act P K C → St P K C → Prop where
  | hit {a : Act P K C} {k : K} {f : Ent → Pc K} {e : Ent} :
    Gets s p a k f → 0 < (s.table e).ref → (s.table e).key = k →
    Did s p a (s.touch p (f e) e { s.table e with ref := (s.table e).ref + 1 } (s.held e p + 1))
  | recycle {a : Act P K C} {k : K} {f : Ent → Pc K} {e : Ent} :
    Gets s p a k f → (s.table e).ref = 0 →
    (∀ e', 0 < (s.table e').ref → (s.table e').key ≠ k) →
    Did s p a (s.touch p (f e) e { s.table e with key := k, ref := 1, valid := false }
      (s.held e p + 1))
  | idup {q : P} {e : Ent} : s.pc p = .idle → 0 < s.held e p →
    Did s p (.idup q e)
      (s.touch q (s.pc q) e { s.table e with ref := (s.table e).ref + 1 } (s.held e q + 1))
  | ilock {a : Act P K C} {e : Ent} {pc : Pc K} {d : Dinode C} :
    Locks s p e a pc → (s.table e).lock = none →
    ((s.table e).valid = true ∧ d = (s.table e).mem ∨
      d = s.disk (s.table e).key ∧ d.type ≠ 0 ∧ (s.table e).valid = false) →
    Did s p a (s.touch p pc e { s.table e with lock := some p, valid := true, mem := d }
      (s.held e p))
  | change {a : Act P K C} {e : Ent} {d : Dinode C} : s.pc p = .idle →
    (s.table e).lock = some p → d.type = (s.table e).mem.type → Did s p a (s.change e d)
  | iupdate {e : Ent} : s.pc p = .idle → (s.table e).lock = some p →
    Did s p (.iupdate e) (s.iupdate e)
  | iunlock {e : Ent} : s.pc p = .idle → (s.table e).lock = some p → s.changed e = false →
    Did s p (.iunlock e) (s.touch p .idle e { s.table e with lock := none } (s.held e p))
  | check {e : Ent} : s.pc p = .idle → 0 < s.held e p → (s.table e).lock = none →
    (s.table e).ref = 1 → (s.table e).valid = true → (s.table e).mem.nlink = 0 →
    Did s p (.iput e) (s.touch p (.trunc e) e { s.table e with lock := some p } (s.held e p))
  | unref {e : Ent} : s.pc p = .idle → 0 < s.held e p → (s.table e).lock ≠ some p →
    ¬ ((s.table e).ref = 1 ∧ (s.table e).valid = true ∧ (s.table e).mem.nlink = 0) →
    Did s p (.iput e) (ITable.unref s p e)
  | drop {e : Ent} : s.pc p = .drop e → Did s p .step (ITable.unref s p e)
  | truncate {e : Ent} : s.pc p = .trunc e → Did s p .step (truncate s p e)
  | ialloc {k : K} {type : Nat} : s.pc p = .idle → (s.disk k).type = 0 → type ≠ 0 →
    Did s p (.ialloc k type) (ialloc s p k type)
  | initialise {e : Ent} : s.pc p = .init e → Did s p .step (initialise s p e)

variable {s s' : St P K C} {p : P} {a : Act P K C} {k : K} {e : Ent}

theorem did_of_iget {f : Ent → Pc K} (hg : Gets s p a k f) (h : iget s p k f = some s') :
    Did s p a s' := by
  obtain ⟨x, hx, rfl⟩ := Option.map_eq_some_iff.mp h
  unfold find at hx
  split at hx
  · rename_i e he
    have hf := List.find?_some he
    obtain ⟨hr, hk⟩ := of_decide_eq_true hf
    cases hx
    exact .hit hg hr hk
  · rename_i hn
    obtain ⟨e, he, rfl⟩ := Option.map_eq_some_iff.mp hx
    have hf := List.find?_some he
    refine .recycle hg (of_decide_eq_true hf) fun e' hr hk => ?_
    exact List.find?_eq_none.mp hn e' (List.mem_finRange e') (decide_eq_true ⟨hr, hk⟩)

theorem did_of_ilock {pc : Pc K} (hl : Locks s p e a pc) (h : ilock s p e pc = some s') :
    Did s p a s' := by
  simp only [ilock] at h
  split at h
  · rename_i hlock
    split at h
    · rename_i hv
      cases h
      have := Did.ilock hl hlock (.inl ⟨hv, rfl⟩)
      rwa [← hv] at this
    · rename_i hv
      split at h
      · cases h
      · rename_i ht
        cases h
        exact .ilock hl hlock (.inr ⟨rfl, ht, Bool.eq_false_iff.mpr hv⟩)
  · cases h

theorem did_of_iput (hi : s.pc p = .idle) (hh : 0 < s.held e p) (hl : (s.table e).lock ≠ some p)
    (h : iput s p e = some s') : Did s p (.iput e) s' := by
  simp only [iput] at h
  split at h
  · rename_i hc
    split at h
    · rename_i hlock
      cases h
      exact .check hi hh hlock hc.1 hc.2.1 hc.2.2
    · cases h
  · rename_i hc
    cases h
    exact .unref hi hh hl hc

theorem did_of_step (h : step s p (s.pc p) a = some s') : Did s p a s' := by
  cases hpc : s.pc p with
  | idle =>
    rw [hpc] at h
    cases a with
    | iget k => exact did_of_iget (.path hpc) h
    | idup q e =>
      obtain ⟨hh, h⟩ := ite_none_right_eq_some.mp h
      cases h
      exact .idup hpc hh
    | ilock e =>
      obtain ⟨hh, h⟩ := ite_none_right_eq_some.mp h
      exact did_of_ilock (.use hpc hh) h
    | write e c =>
      obtain ⟨hl, h⟩ := ite_none_right_eq_some.mp h
      cases h
      exact .change hpc hl rfl
    | link e =>
      obtain ⟨hl, h⟩ := ite_none_right_eq_some.mp h
      cases h
      exact .change hpc hl.1 rfl
    | unlink e =>
      obtain ⟨hl, h⟩ := ite_none_right_eq_some.mp h
      cases h
      exact .change hpc hl.1 rfl
    | iupdate e =>
      obtain ⟨hl, h⟩ := ite_none_right_eq_some.mp h
      cases h
      exact .iupdate hpc hl
    | iunlock e =>
      obtain ⟨hl, h⟩ := ite_none_right_eq_some.mp h
      cases h
      exact .iunlock hpc hl.1 hl.2
    | iput e =>
      obtain ⟨hh, h⟩ := ite_none_right_eq_some.mp h
      exact did_of_iput hpc hh.1 hh.2 h
    | ialloc k type =>
      obtain ⟨ht, h⟩ := ite_none_right_eq_some.mp h
      cases h
      exact .ialloc hpc ht.1 ht.2
    | step => cases h
  | marked k =>
    rw [hpc] at h
    cases a with
    | step => exact did_of_iget (.alloc hpc) h
    | _ => cases h
  | fresh e =>
    rw [hpc] at h
    cases a with
    | step => exact did_of_ilock (.create hpc) h
    | _ => cases h
  | init e =>
    rw [hpc] at h
    cases a with
    | step => cases h; exact .initialise hpc
    | _ => cases h
  | trunc e =>
    rw [hpc] at h
    cases a with
    | step => cases h; exact .truncate hpc
    | _ => cases h
  | drop e =>
    rw [hpc] at h
    cases a with
    | step => cases h; exact .drop hpc
    | _ => cases h

omit [Inhabited C] in
theorem initialise_disk (s : St P K C) (p : P) (e : Ent) :
    (initialise s p e).disk =
      update s.disk (s.table e).key { (s.table e).mem with nlink := 1 } := by
  simp only [initialise, St.iupdate, St.change, update_self]

end Steps

end Xv6.ITable
