import Mathlib.Data.Fintype.Pi

/-!
# The kernel's types

`param.h`, `spinlock.h`, `proc.h` and `list_proc.h`: the constants and the structs that the models
of the process code share. A pointer is an `Option` of an address, `none` is `NULL`. A struct that
`memset` clears is the struct with its default field values: the defaults are the zero bytes.
-/

namespace Xv6

/-! ## `param.h` -/

/-- Maximum number of processes. -/
def NPROC : Nat := 64

/-- Maximum number of CPUs. -/
def NCPU : Nat := 2

/-- Open files per process. -/
def NOFILE : Nat := 16

/-- The most blocks that an FS operation writes. -/
def MAXOPBLOCKS : Nat := 10

/-- The most data blocks in the on-disk log. -/
def LOGSIZE : Nat := MAXOPBLOCKS * 3

/-! ## Pointers -/

/-- The address of a kernel object. -/
abbrev Addr := Nat

/-- A pointer; `none` is `NULL`. -/
abbrev Ptr := Option Addr

/-- A CPU's number (`cpuid()`). -/
abbrev CpuId := Nat

/-- What `sleep` and `wakeup` take as `void *chan`: an address, or a `uid` cast to a pointer. -/
abbrev Chan := Int

/-! ## `proc.h` and `spinlock.h` -/

/-- The registers that `swtch` saves, in the order of `struct context`. -/
inductive Reg where
  | ra | sp | s0 | s1 | s2 | s3 | s4 | s5 | s6 | s7 | s8 | s9 | s10 | s11
  deriving DecidableEq

/-- `swtch.S` stores the registers in this order. -/
def Reg.all : List Reg :=
  [.ra, .sp, .s0, .s1, .s2, .s3, .s4, .s5, .s6, .s7, .s8, .s9, .s10, .s11]

theorem Reg.mem_all (r : Reg) : r ∈ Reg.all := by cases r <;> decide

instance : Fintype Reg := Fintype.ofList Reg.all Reg.mem_all

/-- `struct context`: one 64-bit word for each register. -/
abbrev Context := Reg → BitVec 64

/-- `struct spinlock`, without the name (only printed). -/
structure Spinlock where
  locked : Bool := false
  cpu : Option CpuId := none
  deriving DecidableEq

/-- `enum procstate`. -/
inductive ProcState where
  | unused | used | sleeping | runnable | running | zombie
  deriving DecidableEq

/-- `struct proc`. -/
structure Proc where
  lock : Spinlock := {}
  state : ProcState := .unused
  chan : Chan := 0
  killed : Int := 0
  xstate : Int := 0
  nKStack : Int := 0
  pid : Int := 0
  uid : Int := 0
  pUid : Int := 0
  parent : Ptr := none
  kstack : Nat := 0
  sz : Nat := 0
  pagetable : Ptr := none
  trapframe : Ptr := none
  context : Context := fun _ => 0
  ofile : Vector Ptr NOFILE := Vector.replicate NOFILE none
  cwd : Ptr := none
  name : String := ""
  deriving DecidableEq

end Xv6
