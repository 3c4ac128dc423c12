import Xv6Rcu.Lib.Machine
import Mathlib.Data.List.FinRange

/-!
# Open files

The file table of `file.c` and the system calls of `sysfile.c` that open and close descriptors, with
the copying of the descriptors in `fork` and their closing in `exit`. A call runs to its end before
the next one starts. What the paths, the page allocator and the copies to the user memory give is
part of the call, so every step of a call may fail.

- `filealloc`, `filedup`, `fileclose`, `fdalloc`, `pipealloc`, `pipeclose`: a panic, a second
  `kfree` of a page and an `iput` without a reference are `none`.
- `sysOpen`, `sysPipe`, `sysDup`, `sysClose`, `fork`, `closeFile`: the calls.
- `machine`: a run of calls by any number of processes.
-/

namespace Xv6.Files

open Lib Function

def NFILE : Nat := 100
def NOFILE : Nat := 16
def NDEV : Nat := 10

instance : NeZero NFILE := ⟨by decide⟩

instance : NeZero NOFILE := ⟨by decide⟩

abbrev Fid := Fin NFILE
abbrev Fd := Fin NOFILE

inductive FdType where
  | none | pipe | inode | device
  deriving DecidableEq

/-- `struct file`. A pipe is named by its page. -/
structure File (I : Type) where
  type : FdType := .none
  ref : Int := 0
  readable : Bool := false
  writable : Bool := false
  pipe : Option Nat := none
  ip : Option I := none
  off : BitVec 32 := 0
  major : Int := 0

/-- The two flags of `struct pipe`. -/
structure Pipe where
  readopen : Bool
  writeopen : Bool

/-- One end is closed. -/
def Pipe.shut (x : Pipe) (writable : Bool) : Pipe :=
  if writable then { x with writeopen := false } else { x with readopen := false }

structure St (P I : Type) where
  file : Fid → File I := fun _ => {}
  /-- `p->ofile[fd]`. -/
  ofile : P × Fd → Option Fid := fun _ => none
  live : P → Bool
  pipe : Nat → Pipe := fun _ => ⟨false, false⟩
  /-- The pages of pipes that `kalloc` has returned and that were not freed since. -/
  page : Nat → Bool := fun _ => false
  /-- The references to an inode that `namei` and `create` have returned to `sys_open` and that were
  not put since. -/
  iref : I → Nat := fun _ => 0

section Code
variable {P I : Type} [DecidableEq P] [DecidableEq I]

def St.setFile (s : St P I) (f : Fid) (x : File I) : St P I :=
  { s with file := update s.file f x }

def St.setFd (s : St P I) (p : P) (fd : Fd) (x : Option Fid) : St P I :=
  { s with ofile := update s.ofile (p, fd) x }

/-! ## Files and pipes -/

def filealloc (s : St P I) : Option (Fid × St P I) :=
  ((List.finRange NFILE).find? fun f => (s.file f).ref = 0).map fun f =>
    (f, s.setFile f { s.file f with ref := 1 })

def filedup (s : St P I) (f : Fid) : Option (St P I) :=
  if (s.file f).ref < 1 then none
  else some (s.setFile f { s.file f with ref := (s.file f).ref + 1 })

def kfree (s : St P I) (pi : Nat) : Option (St P I) :=
  if s.page pi then some { s with page := update s.page pi false } else none

def pipeclose (s : St P I) (pi : Nat) (writable : Bool) : Option (St P I) :=
  let x := (s.pipe pi).shut writable
  let s := { s with pipe := update s.pipe pi x }
  if x.readopen = false ∧ x.writeopen = false then kfree s pi else some s

def iget (s : St P I) (ip : I) : St P I :=
  { s with iref := update s.iref ip (s.iref ip + 1) }

def iput (s : St P I) (ip : I) : Option (St P I) :=
  if s.iref ip = 0 then none
  else some { s with iref := update s.iref ip (s.iref ip - 1) }

/-- The end of `fileclose`, after it has dropped the lock, with the copy `ff` of the file. -/
def closeObj (s : St P I) (ff : File I) : Option (St P I) :=
  match ff.type with
  | .pipe => ff.pipe.bind fun pi => pipeclose s pi ff.writable
  | .inode | .device => ff.ip.bind fun ip => iput s ip
  | .none => some s

def fileclose (s : St P I) (f : Fid) : Option (St P I) :=
  let ff := s.file f
  if ff.ref < 1 then none
  else if 0 < ff.ref - 1 then some (s.setFile f { ff with ref := ff.ref - 1 })
  else closeObj (s.setFile f { ff with ref := 0, type := .none }) ff

def argfd (s : St P I) (p : P) (fd : Int) : Option (Fd × Fid) :=
  if fd < 0 ∨ NOFILE ≤ fd then none
  else (s.ofile (p, Fin.ofNat NOFILE fd.toNat)).map fun f => (Fin.ofNat NOFILE fd.toNat, f)

def fdalloc (s : St P I) (p : P) (f : Fid) : Option (Fd × St P I) :=
  ((List.finRange NOFILE).find? fun fd => s.ofile (p, fd) = none).map fun fd =>
    (fd, s.setFd p fd (some f))

/-- `pipealloc`, where `kalloc` returns `pg`. -/
def pipealloc (s : St P I) (pg : Option Nat) : Option (Option (Fid × Fid) × St P I) :=
  match filealloc s with
  | none => some (none, s)
  | some (f0, s) =>
    match filealloc s with
    | none => (fileclose s f0).map (none, ·)
    | some (f1, s) =>
      match pg with
      | none => (fileclose s f0).bind fun s => (fileclose s f1).map (none, ·)
      | some pi =>
        let x0 : File I :=
          { s.file f0 with type := .pipe, readable := true, writable := false, pipe := some pi }
        let x1 : File I :=
          { s.file f1 with type := .pipe, readable := false, writable := true, pipe := some pi }
        some (some (f0, f1), { s with
          page := update s.page pi true
          pipe := update s.pipe pi ⟨true, true⟩
          file := update (update s.file f0 x0) f1 x1 })

/-! ## System calls -/

inductive InodeType where
  | dir | file | device
  deriving DecidableEq

/-- What `namei` or `create` has found. -/
structure Inode (I : Type) where
  ip : I
  type : InodeType
  major : Int

/-- The arguments of `sys_open`, `none` if they cannot be read, and what the path leads to. -/
structure OpenArgs (I : Type) where
  omode : Option (BitVec 32)
  found : Option (Inode I)

def O_WRONLY : BitVec 32 := 0x001
def O_RDWR : BitVec 32 := 0x002
def O_CREATE : BitVec 32 := 0x200

def sysOpen (s : St P I) (p : P) (a : OpenArgs I) : Option (Int × St P I) :=
  match a.omode, a.found with
  | none, _ => some (-1, s)
  | some _, none => some (-1, s)
  | some omode, some n =>
    let s := iget s n.ip
    if omode &&& O_CREATE = 0 ∧ n.type = .dir ∧ omode ≠ 0 then (iput s n.ip).map (-1, ·)
    else if n.type = .device ∧ (n.major < 0 ∨ NDEV ≤ n.major) then (iput s n.ip).map (-1, ·)
    else
      match filealloc s with
      | none => (iput s n.ip).map (-1, ·)
      | some (f, s) =>
        match fdalloc s p f with
        | none => (fileclose s f).bind fun s => (iput s n.ip).map (-1, ·)
        | some (fd, s) =>
          let x : File I := if n.type = .device
            then { s.file f with type := .device, major := n.major }
            else { s.file f with type := .inode, off := 0 }
          some (fd, s.setFile f { x with
            ip := some n.ip
            readable := omode &&& O_WRONLY = 0
            writable := omode &&& O_WRONLY ≠ 0 ∨ omode &&& O_RDWR ≠ 0 })

/-- What the steps of `sys_pipe` give: whether its argument can be read, the page from `kalloc`, and
whether the two copies succeed. -/
structure PipeArgs where
  arg : Bool
  page : Option Nat
  copy0 : Bool
  copy1 : Bool

def sysPipe (s : St P I) (p : P) (a : PipeArgs) : Option (Int × St P I) :=
  if a.arg = false then some (-1, s)
  else
    (pipealloc s a.page).bind fun r =>
      match r with
      | (none, s) => some (-1, s)
      | (some (rf, wf), s) =>
        match fdalloc s p rf with
        | none => (fileclose s rf).bind fun s => (fileclose s wf).map (-1, ·)
        | some (fd0, s) =>
          match fdalloc s p wf with
          | none =>
            (fileclose (s.setFd p fd0 none) rf).bind fun s => (fileclose s wf).map (-1, ·)
          | some (fd1, s) =>
            if a.copy0 = false ∨ a.copy1 = false then
              let s := (s.setFd p fd0 none).setFd p fd1 none
              (fileclose s rf).bind fun s => (fileclose s wf).map (-1, ·)
            else some (0, s)

def sysDup (s : St P I) (p : P) (fd : Int) : Option (Int × St P I) :=
  match argfd s p fd with
  | none => some (-1, s)
  | some (_, f) =>
    match fdalloc s p f with
    | none => some (-1, s)
    | some (fd, s) => (filedup s f).map (fd, ·)

def sysClose (s : St P I) (p : P) (fd : Int) : Option (Int × St P I) :=
  match argfd s p fd with
  | none => some (-1, s)
  | some (fd, f) => (fileclose (s.setFd p fd none) f).map (0, ·)

/-- A round of the loop of `fork` over the descriptors. -/
def copyFd (p np : P) (s : St P I) (i : Fd) : Option (St P I) :=
  match s.ofile (p, i) with
  | none => some s
  | some f => (filedup s f).map fun s => s.setFd np i (some f)

/-- `fork`: the process `np` gets the descriptors of `p`. It fails before that if `allocproc` or
`uvmcopy` fails. -/
def fork (s : St P I) (p np : P) (pid : Nat) (ok : Bool) : Option (Int × St P I) :=
  if ok = false then some (-1, s)
  else
    ((List.finRange NOFILE).foldlM (copyFd p np)
      { s with live := update s.live np true }).map ((pid : Int), ·)

/-- A round of the loop of `closeFile`. -/
def closeFd (p : P) (s : St P I) (fd : Fd) : Option (St P I) :=
  match s.ofile (p, fd) with
  | none => some s
  | some f => (fileclose s f).map fun s => s.setFd p fd none

/-- `closeFile` closes the descriptors of the process that exits. -/
def closeFile (s : St P I) (p : P) : Option (Int × St P I) :=
  ((List.finRange NOFILE).foldlM (closeFd p) s).map fun s =>
    (0, { s with live := update s.live p false })

inductive Call (P I : Type) where
  | open (a : OpenArgs I)
  | pipe (a : PipeArgs)
  | dup (fd : Int)
  | close (fd : Int)
  | fork (np : P) (pid : Nat) (ok : Bool)
  | exit

def exec (s : St P I) (p : P) : Call P I → Option (Int × St P I)
  | .open a => sysOpen s p a
  | .pipe a => sysPipe s p a
  | .dup fd => sysDup s p fd
  | .close fd => sysClose s p fd
  | .fork np pid ok => fork s p np pid ok
  | .exit => closeFile s p

/-- A running process makes the call. `kalloc` returns a page that is free, and `fork` makes a
process that is new. -/
def Enabled (s : St P I) (p : P) : Call P I → Prop
  | .pipe a => s.live p = true ∧ ∀ pi ∈ a.page, s.page pi = false
  | .fork np _ _ => s.live p = true ∧ s.live np = false
  | _ => s.live p = true

instance (s : St P I) (p : P) : ∀ c, Decidable (Enabled s p c)
  | .pipe _ | .fork _ _ _ => inferInstanceAs (Decidable (_ ∧ _))
  | .open _ | .dup _ | .close _ | .exit => inferInstanceAs (Decidable (_ = _))

/-- The state, and whether the kernel has panicked. -/
structure Sys (P I : Type) where
  st : St P I
  panic : Bool := false

structure Lbl (P I : Type) where
  p : P
  call : Call P I

def machine : Machine (Sys P I) (Lbl P I) where
  next s l :=
    if s.panic = false ∧ Enabled s.st l.p l.call then
      match exec s.st l.p l.call with
      | none => some { s with panic := true }
      | some (_, s') => some { s with st := s' }
    else none

end Code

end Xv6.Files
