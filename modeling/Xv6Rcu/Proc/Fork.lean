import Xv6Rcu.Mem.Uvm
import Xv6Rcu.Proc.Exit

/-!
# `fork`, with the memory

`allocproc` and `fork` of `proc.c` over the process list, the physical memory and the reference
counts of files and inodes, one call at a time. `Seq.fork` takes what the functions of `vm.c` return
as an input; here they are run.

- `knmalloc` either has room, or takes a page from `kalloc`: `knmorecore` does not test for `NULL`,
  and writes to the page. Which of the two, and what becomes of the memory, is an input (`Grant`).
- **The defect** (`fork_fails`): with all kernel stacks taken `allocproc` panics. With a stack left
  it marks it, and no failure of `fork` clears the mark. Where `proc_pagetable` fails, the trapframe
  is lost too; where `uvmcopy` fails, the trapframe, the page table and the `struct proc` are
  (`freeproc(np, 0)` only clears the struct).
- **What holds** (`fork_unclean`): no `fork` fails cleanly.
-/

namespace Xv6.Seq
namespace Fork

open Lib Function

/-- The processes, the memory, and the `ref` fields of files and inodes. -/
structure Sys where
  kernel : Kernel
  vm : Vm.St
  fref : Addr → Int
  iref : Addr → Int

/-- The end of the kernel, and the addresses of `trampoline.S` and of `forkret`. -/
structure Boot where
  kend : Nat
  trampoline : BitVec 64
  forkret : BitVec 64

abbrev SysM := EStateM Stop Sys

variable {α β : Type}

def inKernel (m : KernelM α) : SysM α := fun s =>
  match m s.kernel with
  | .ok a kernel => .ok a { s with kernel }
  | .error e kernel => .error e { s with kernel }

def inVm (f : Vm.St → Except String (α × Vm.St)) : SysM α := fun s =>
  match f s.vm with
  | .ok (a, vm) => .ok a { s with vm }
  | .error msg => .error (.panic msg) s

def kalloc : SysM (BitVec 64) := inVm fun v => .ok (Vm.kalloc v)

/-- How the heap serves a call of `knmalloc`: whether it must grow by a page, and what its headers
and the block do to the physical memory. They lie in the 64 KiB that `knmorecore` records for a page
(`Mem/Kmalloc`), which can be pages of a process or of the free list. -/
structure Grant where
  grow : Bool
  effect : Vm.St → Vm.St

def knmalloc (g : Grant) : SysM Addr := do
  if g.grow then
    let pa ← kalloc
    if pa = 0 then throw .fault
  modify fun s => { s with vm := g.effect s.vm }
  inKernel Seq.knmalloc

def filedup (f : Addr) : SysM Unit := do
  if (← get).fref f < 1 then throw (.panic "filedup")
  modify fun s => { s with fref := update s.fref f (s.fref f + 1) }

def idup (ip : Ptr) : SysM Unit := do
  let ip ← inKernel (deref ip)
  modify fun s => { s with iref := update s.iref ip (s.iref ip + 1) }

/-- The pointer to a physical address. -/
def ptr (pa : BitVec 64) : Ptr := if pa = 0 then none else some pa.toNat

def addr (p : Ptr) : BitVec 64 := BitVec.ofNat 64 (p.getD 0)

/-- `sizeof(struct trapframe)`. -/
def TRAPFRAME_SIZE : BitVec 64 := 288

/-- The offset of `a0` in `struct trapframe`. -/
def A0 : BitVec 64 := 112

/-- `*dst = *src` of two trapframes. -/
def copyTrapframe (mem : BitVec 64 → BitVec 64) (dst src : BitVec 64) : BitVec 64 → BitVec 64 :=
  fun a => if a - dst < TRAPFRAME_SIZE then mem (src + (a - dst)) else mem a

/-- The end of `allocproc`: the trapframe and the page table of the process `p`, which has the
kernel stack `n`. -/
def allocMemory (b : Boot) (p : Addr) (n : Nat) : SysM (Option Addr) := do
  let trapframe ← kalloc
  if trapframe = 0 then
    inKernel (knfree p)
    return none
  inKernel (modifyProc p fun v => { v with trapframe := ptr trapframe })
  let pagetable ← inVm (Vm.procPagetable b.kend b.trampoline trapframe)
  inKernel (modifyProc p fun v => { v with pagetable := ptr pagetable })
  if pagetable = 0 then
    inKernel (knfree p)
    return none
  inKernel (modifyProc p fun v => { v with
    context := fun
      | .ra => b.forkret
      | .sp => BitVec.ofNat 64 (KSTACK n + PGSIZE)
      | _ => 0
    ofile := Vector.replicate NOFILE none
    killed := 0
    chan := 0
    parent := none
    xstate := 0
    cwd := none })
  return some p

def allocproc (b : Boot) (g : Grant) : SysM (Option Addr) := do
  let p ← knmalloc g
  let pid ← inKernel allocpid
  inKernel (modifyProc p fun v => { v with pid, state := .used })
  let uid ← inKernel (modifyGet fun k => (k.uniqueId, { k with uniqueId := k.uniqueId + 1 }))
  inKernel (modifyProc p fun v => { v with uid, pUid := -1 })
  let n ← inKernel allocKStack
  inKernel (modifyProc p fun v => { v with nKStack := n, lock := {}, kstack := KSTACK n })
  allocMemory b p n

/-- The loop of `fork` over the descriptors `is`. -/
def dupFiles (process : Proc) (np : Addr) : List (Fin NOFILE) → SysM Unit
  | [] => return
  | i :: is => do
    if let some f := process.ofile[i] then
      filedup f
      inKernel (modifyProc np fun v => { v with ofile := v.ofile.set i (some f) })
    dupFiles process np is

/-- `fork` behind `uvmcopy`; the current process `p` was copied to `process`. -/
def inherit (g : Grant) (p : Addr) (process : Proc) (np : Addr) : SysM Int := do
  inKernel (modifyProc np fun v => { v with sz := process.sz })
  let src ← inKernel (deref process.trapframe)
  let v ← inKernel (load np)
  let dst ← inKernel (deref v.trapframe)
  modify fun s => { s with vm := { s.vm with
    mem := copyTrapframe s.vm.mem (BitVec.ofNat 64 dst) (BitVec.ofNat 64 src) } }
  modify fun s => { s with vm := s.vm.write (BitVec.ofNat 64 dst + A0) 0 }
  dupFiles process np (List.finRange NOFILE)
  idup process.cwd
  inKernel (modifyProc np fun v => { v with cwd := process.cwd, name := process.name })
  let child ← inKernel (load np)
  let parent ← inKernel (load p)
  inKernel (modifyProc np fun v => { v with parent := some p, pUid := parent.uid })
  inKernel (modifyProc np fun v => { v with state := .runnable })
  let node ← knmalloc g
  inKernel (setProcess node np)
  inKernel (listAddRcu node)
  return child.pid

/-- The grants are for the two calls of `knmalloc`. -/
def fork (b : Boot) (g : Grant × Grant) (c : CpuId) : SysM Int := do
  let p ← inKernel (do deref (← myproc c))
  let process ← inKernel (load p)
  let some np ← allocproc b g.1
    | return -1
  let v ← inKernel (load np)
  let r ← inVm (Vm.uvmcopy b.kend (addr process.pagetable) (addr v.pagetable)
    (BitVec.ofNat 64 process.sz))
  if r < 0 then
    inKernel (freeproc np false)
    return -1
  inherit g.2 p process np

/-! ## Failures -/

/-- The list, the stacks, the pages, the blocks and the reference counts are as before. -/
structure Clean (s s' : Sys) : Prop where
  list : s'.kernel.list = s.kernel.list
  nodes : ∀ a ∈ s.kernel.list, s'.kernel.process a = s.kernel.process a ∧
    s'.kernel.proc a = s.kernel.proc a
  bitmap : s'.kernel.bitmap = s.kernel.bitmap
  free : s'.vm.free.Perm s.vm.free
  live : s'.kernel.live.Perm s.kernel.live
  fref : s'.fref = s.fref
  iref : s'.iref = s.iref

/-- `fork` returns -1, and all is as before. -/
def FailsCleanly (b : Boot) (g : Grant × Grant) (c : CpuId) (s : Sys) : Prop :=
  ∃ s', fork b g c s = .ok (-1) s' ∧ Clean s s'

/-- One process, which forks. -/
def oneProcess (bitmap : Int → Bool) (free : List (BitVec 64)) : Sys where
  kernel := {
    list := [0]
    process := fun _ => some 1
    procs := fun _ => { pid := 1, state := .running, pagetable := some 0x80101000,
                        trapframe := some 0x80100000, cwd := some 5 }
    cpuProc := fun _ => some 1
    initproc := some 1
    nextpid := 2
    bitmap
    fresh := 2
    live := [1, 0] }
  vm := ⟨fun _ => 0, free⟩
  fref := fun _ => 0
  iref := fun _ => 1

def boot : Boot := ⟨0x80100000, 0x80007000, 0x80002000⟩

/-- A heap with room, in memory of its own. -/
def room : Grant := ⟨false, id⟩

/-- With all stacks taken `fork` panics; with a stack left and no page, it loses the stack. -/
theorem fork_fails :
    (∃ s', fork boot (room, room) 0 (oneProcess (fun _ => true) []) =
      .error (.panic "kernelstack overflow") s') ∧
    ∃ s', fork boot (room, room) 0 (oneProcess (fun n => n = 0) []) = .ok (-1) s' ∧
      s'.kernel.bitmap 1 = true ∧ ¬ Clean (oneProcess (fun n => n = 0) []) s' := by
  refine ⟨⟨_, rfl⟩, _, rfl, rfl, fun h => ?_⟩
  exact absurd (congrFun h.bitmap 1) (by decide)

/-! ## The marks of the kernel stacks -/

/-- The marks of the kernel stacks. -/
def Sys.bitmap (s : Sys) : Int → Bool := s.kernel.bitmap

theorem leaves_inKernel {m : KernelM α} (h : Leaves Kernel.bitmap m) :
    Leaves Sys.bitmap (inKernel m) := by
  intro s a s' hs
  rw [inKernel] at hs
  split at hs
  · next hm =>
    cases hs
    exact h _ _ _ hm
  · cases hs

theorem leaves_inVm (f : Vm.St → Except String (α × Vm.St)) : Leaves Sys.bitmap (inVm f) := by
  intro s a s' hs
  rw [inVm] at hs
  split at hs
  · cases hs
    rfl
  · cases hs

/-- `inKernel` of an update that is not of the marks. -/
theorem leaves_modifyProc (p : Addr) (f : Proc → Proc) :
    Leaves Sys.bitmap (inKernel (modifyProc p f)) :=
  leaves_inKernel (.bind (.bind .get fun _ => .pure _) fun _ => .modify fun _ => rfl)

theorem leaves_load (p : Addr) : Leaves Sys.bitmap (inKernel (load p)) :=
  leaves_inKernel (.bind .get fun _ => .pure _)

theorem leaves_deref (p : Ptr) : Leaves Sys.bitmap (inKernel (deref p)) := by
  cases p with
  | none => exact leaves_inKernel (.throw _)
  | some a => exact leaves_inKernel (.pure a)

theorem leaves_knfree (p : Addr) : Leaves Sys.bitmap (inKernel (knfree p)) :=
  leaves_inKernel (.modify fun _ => rfl)

theorem leaves_knmalloc (g : Grant) : Leaves Sys.bitmap (knmalloc g) := by
  have hblock : Leaves Sys.bitmap (do
      modify fun s : Sys => { s with vm := g.effect s.vm }
      inKernel Seq.knmalloc : SysM Addr) :=
    .bind (.modify fun _ => rfl) fun _ => leaves_inKernel (.modifyGet fun _ => rfl)
  refine .ite (.bind (leaves_inVm _) fun pa => ?_) hblock
  exact .ite (.bind (.throw _) fun _ => hblock) hblock

theorem leaves_dupFiles (process : Proc) (np : Addr) (is : List (Fin NOFILE)) :
    Leaves Sys.bitmap (dupFiles process np is) := by
  induction is with
  | nil => exact .pure _
  | cons i is ih =>
    rw [dupFiles]
    cases process.ofile[i] with
    | none => exact ih
    | some f =>
      refine .bind (.bind .get fun s => .ite (.bind (.throw _) fun _ => ?_) ?_) fun _ =>
        .bind (leaves_modifyProc np _) fun _ => ih
      · exact .modify fun _ => rfl
      · exact .modify fun _ => rfl

theorem leaves_inherit (g : Grant) (p : Addr) (process : Proc) (np : Addr) :
    Leaves Sys.bitmap (inherit g p process np) := by
  refine .bind (leaves_modifyProc np _) fun _ => .bind (leaves_deref _) fun src =>
    .bind (leaves_load np) fun v => .bind (leaves_deref _) fun dst =>
    .bind (.modify fun _ => rfl) fun _ => .bind (.modify fun _ => rfl) fun _ =>
    .bind (leaves_dupFiles process np _) fun _ =>
    .bind (.bind (leaves_deref _) fun _ => .modify fun _ => rfl) fun _ =>
    .bind (leaves_modifyProc np _) fun _ => .bind (leaves_load np) fun _ =>
    .bind (leaves_load p) fun _ => .bind (leaves_modifyProc np _) fun _ =>
    .bind (leaves_modifyProc np _) fun _ => .bind (leaves_knmalloc g) fun node =>
    .bind (leaves_inKernel (.modify fun _ => rfl)) fun _ =>
    .bind (leaves_inKernel (.modify fun _ => rfl)) fun _ => .pure _

theorem leaves_allocMemory (b : Boot) (p : Addr) (n : Nat) :
    Leaves Sys.bitmap (allocMemory b p n) := by
  have hend : Leaves Sys.bitmap (do inKernel (knfree p); pure none : SysM (Option Addr)) :=
    .bind (leaves_knfree p) fun _ => .pure _
  refine .bind (leaves_inVm _) fun trapframe => .ite hend ?_
  refine .bind (leaves_modifyProc p _) fun _ => .bind (leaves_inVm _) fun pagetable =>
    .bind (leaves_modifyProc p _) fun _ => .ite hend ?_
  exact .bind (leaves_modifyProc p _) fun _ => .pure _

theorem allocKStack_eq {k : Kernel} {n : Nat}
    (hn : (List.range NPROC).find? (fun n : Nat => !k.bitmap n) = some n) :
    allocKStack k = .ok n { k with bitmap := update k.bitmap n true } := by
  refine (bind_of_ok rfl).trans ?_
  rw [hn]
  rfl

theorem allocKStack_full {k : Kernel}
    (hn : (List.range NPROC).find? (fun n : Nat => !k.bitmap n) = none) :
    allocKStack k = .error (.panic "kernelstack overflow") k := by
  refine (bind_of_ok rfl).trans ?_
  rw [hn]
  rfl

/-- A stack that was free is marked. -/
def Marks (β β' : Int → Bool) : Prop := ∃ n : Nat, β n = false ∧ β' n = true

theorem allocKStack_marks (β : Int → Bool) :
    Triple (fun s => s.bitmap = β) (inKernel allocKStack) fun _ s => Marks β s.bitmap := by
  intro s n s' hs hm
  cases hfind : (List.range NPROC).find? fun n : Nat => !s.kernel.bitmap n with
  | none =>
    rw [inKernel, allocKStack_full hfind] at hm
    cases hm
  | some m =>
    rw [inKernel, allocKStack_eq hfind] at hm
    cases hm
    refine ⟨n, ?_, update_self _ _ _⟩
    rw [← hs]
    simpa [Sys.bitmap] using List.find?_some hfind

/-- `allocproc` marks a stack, whatever it returns. -/
theorem allocproc_marks (b : Boot) (g : Grant) (β : Int → Bool) :
    Triple (fun s => s.bitmap = β) (allocproc b g) fun _ s => Marks β s.bitmap := by
  refine .bind ((leaves_knmalloc g).keeps (· = β)) fun p => ?_
  refine .bind ((leaves_inKernel (.modifyGet fun _ => rfl)).keeps (· = β)) fun pid => ?_
  refine .bind ((leaves_modifyProc p _).keeps (· = β)) fun _ => ?_
  refine .bind ((leaves_inKernel (.modifyGet fun _ => rfl)).keeps (· = β)) fun uid => ?_
  refine .bind ((leaves_modifyProc p _).keeps (· = β)) fun _ => ?_
  refine .bind (allocKStack_marks β) fun n => Leaves.keeps ?_ (Marks β)
  exact .bind (leaves_modifyProc p _) fun _ => leaves_allocMemory b p n

theorem fork_marks (b : Boot) (g : Grant × Grant) (c : CpuId) (β : Int → Bool) :
    Triple (fun s => s.bitmap = β) (fork b g c) fun _ s => Marks β s.bitmap := by
  refine .bind (Leaves.keeps ?_ (· = β)) fun p => .bind ((leaves_load p).keeps (· = β)) fun v => ?_
  · exact leaves_inKernel (.bind (.bind .get fun _ => .pure _) fun q => by
      cases q with
      | none => exact .throw _
      | some a => exact .pure a)
  · refine .bind (allocproc_marks b g.1 β) fun r => ?_
    cases r with
    | none => exact .pure fun _ => id
    | some np =>
      refine Leaves.keeps (.bind (leaves_load np) fun _ => .bind (leaves_inVm _) fun r =>
        .ite ?_ (leaves_inherit g.2 p v np)) (Marks β)
      exact .bind (leaves_inKernel (.bind (.bind .get fun _ => .pure _) fun _ =>
        .modify fun _ => rfl)) fun _ => .pure _

/-- No `fork` fails cleanly. -/
theorem fork_unclean (b : Boot) (g : Grant × Grant) (c : CpuId) (s : Sys) :
    ¬ FailsCleanly b g c s := by
  rintro ⟨s', hs', hclean⟩
  obtain ⟨n, hfree, hmark⟩ := fork_marks b g c s.bitmap s (-1) s' rfl hs'
  rw [show s'.bitmap = s.bitmap from hclean.bitmap, hfree] at hmark
  cases hmark

end Fork
end Xv6.Seq
