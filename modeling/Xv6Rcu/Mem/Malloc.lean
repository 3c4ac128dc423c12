import Xv6Rcu.Mem.Kmalloc
import Xv6Rcu.Lib.Prog
import Xv6Rcu.Lib.Blocks
import Mathlib.Data.Option.Basic

/-!
# The allocator as a program of memory accesses

`knfree`, `knmorecore` and `knmalloc` of `kmalloc.c` and `free`, `morecore` and `malloc` of
`umalloc.c` are the same text: they differ in their names, the `printf` calls and the request for
memory, which is `kalloc()` in the kernel and `sbrk(nu * sizeof(Header))` in a process. Here they
are programs of single accesses, one for each expression of the source that reads or writes a header
or `freep`.

- `runKernel_free`, `runKernel_malloc`: with the memory of the kernel and `kalloc`, and without
  preemption, the programs are the functions of `Mem/Kmalloc`.
- `Window`, `Arena`, `access`: any memory with fewer than `2 ^ 32` units, the kernel's RAM or that
  of a process; the answers to requests for memory are those of the environment.
-/

namespace Xv6.Malloc

open Lib Mem Function
open Option (bind_map)

/-! ## Accesses -/

inductive Op where
  | freep
  | setFreep (v : Nat)
  /-- `h->s.ptr`. -/
  | ptr (h : Nat)
  | setPtr (h v : Nat)
  /-- `h->s.size`. -/
  | size (h : Nat)
  | setSize (h v : Nat)
  /-- `kalloc()` or `sbrk(nu * sizeof(Header))`. -/
  | core (nu : Nat)

@[reducible] def Op.Res : Op → Type
  | .freep | .ptr _ | .size _ | .core _ => Nat
  | .setFreep _ | .setPtr _ _ | .setSize _ _ => Unit

abbrev M := Prog Op.Res

def freep : M Nat := .act .freep .ret
def setFreep (v : Nat) : M Unit := .act (.setFreep v) .ret
def ptr (h : Nat) : M Nat := .act (.ptr h) .ret
def setPtr (h v : Nat) : M Unit := .act (.setPtr h v) .ret
def size (h : Nat) : M Nat := .act (.size h) .ret
def setSize (h v : Nat) : M Unit := .act (.setSize h v) .ret
def core (nu : Nat) : M Nat := .act (.core nu) .ret

/-! ## The programs -/

/-- `bp > p && bp < p->s.ptr`. -/
def between (bp p : Nat) : M Bool :=
  if p < bp then do return decide (bp < (← ptr p)) else return false

/-- `p >= p->s.ptr && (bp > p || bp < p->s.ptr)`. -/
def atEnd (bp p : Nat) : M Bool := do
  if (← ptr p) ≤ p then
    if p < bp then return true else return decide (bp < (← ptr p))
  else return false

/-- The search loop of `free`. -/
def scan (bp : Nat) : Nat → Nat → M Nat
  | 0, _ => .fail
  | fuel + 1, p => do
    if (← between bp p) then return p
    if (← atEnd bp p) then return p
    scan bp fuel (← ptr p)

/-- The first `if` of `free`. -/
def joinNext (bp p : Nat) : M Unit := do
  let q ← ptr p
  let n ← size bp
  if bp + n * HEADER = q then
    let m ← size (← ptr p)
    setSize bp ((← size bp) + m)
    setPtr bp (← ptr (← ptr p))
  else setPtr bp (← ptr p)

/-- The second `if` of `free`. -/
def joinPrev (bp p : Nat) : M Unit := do
  let n ← size p
  if p + n * HEADER = bp then
    let m ← size bp
    setSize p ((← size p) + m)
    setPtr p (← ptr bp)
  else setPtr p bp

def free (fuel ap : Nat) : M Unit := do
  let bp := ap - HEADER
  let p ← scan bp fuel (← freep)
  joinNext bp p
  joinPrev bp p
  setFreep p

def morecore (fuel nu : Nat) : M Nat := do
  let nu := if nu < 4096 then 4096 else nu
  let p ← core nu
  if p = 2 ^ 64 - 1 then return 0
  setSize p nu
  free fuel (p + HEADER)
  freep

/-- `malloc` has found a block `p` of at least `nunits` units. The size is a `uint`. -/
def carve (nunits prevp p : Nat) : M Nat := do
  if (← size p) = nunits then
    setPtr prevp (← ptr p)
    setFreep prevp
    return p + HEADER
  else
    setSize p ((← size p) + 2 ^ 32 - nunits)
    let p := p + (← size p) * HEADER
    setSize p nunits
    setFreep prevp
    return p + HEADER

/-- The loop of `malloc`. -/
def mallocLoop (bound nunits : Nat) : Nat → Nat → Nat → M Nat
  | 0, _, _ => .fail
  | fuel + 1, prevp, p => do
    if nunits ≤ (← size p) then carve nunits prevp p
    else if p = (← freep) then
      let p ← morecore bound nunits
      if p = 0 then return 0
      mallocLoop bound nunits fuel p (← ptr p)
    else mallocLoop bound nunits fuel p (← ptr p)

/-- The first `if` of `malloc`; the result is `prevp`. -/
def initFreep (base : Nat) : M Nat := do
  let prevp ← freep
  if prevp = 0 then
    setFreep base
    setPtr base base
    setSize base 0
    return base
  else return prevp

def malloc (base fuel nbytes : Nat) : M Nat := do
  let prevp ← initFreep base
  mallocLoop fuel (units nbytes) fuel prevp (← ptr prevp)

/-! ## The kernel without preemption -/

/-- The accesses of the kernel, with `kalloc`. -/
def kernelAccess : Prog.Handler Op.Res Unit Heap
  | .freep, _, s => some (s.freep, s)
  | .setFreep v, _, s => some ((), { s with freep := v })
  | .ptr h, _, s => (s.ptr h).map fun v => (v, s)
  | .setPtr h v, _, s => (s.setPtr h v).map fun s => ((), s)
  | .size h, _, s => (s.size h).map fun v => (v, s)
  | .setSize h v, _, s => (s.setSize h v).map fun s => ((), s)
  | .core _, _, s => (kalloc s.toPhys).map fun r =>
    (r.1, { s with toPhys := r.2, core := r.1 :: s.core })

def runKernel {α : Type} (m : M α) (s : Heap) : Option (α × Heap) :=
  m.exec kernelAccess (fun _ _ => ()) s

section Kernel
variable {α β : Type} {s : Heap} {h v nu : Nat}

@[simp] theorem runKernel_pure (a : α) : runKernel (pure a) s = some (a, s) := rfl

@[simp] theorem runKernel_bind (m : M α) (f : α → M β) (s : Heap) :
    runKernel (m >>= f) s = (runKernel m s).bind fun r => runKernel (f r.1) r.2 :=
  Prog.exec_bind ..

/-- One access. -/
theorem runKernel_act (o : Op) : runKernel (.act o .ret) s = kernelAccess o () s :=
  Option.bind_fun_some _

@[simp] theorem runKernel_freep : runKernel freep s = some (s.freep, s) := rfl

@[simp] theorem runKernel_setFreep : runKernel (setFreep v) s = some ((), { s with freep := v }) :=
  rfl

@[simp] theorem runKernel_ptr : runKernel (ptr h) s = (s.ptr h).map fun v => (v, s) :=
  runKernel_act _

@[simp] theorem runKernel_setPtr :
    runKernel (setPtr h v) s = (s.setPtr h v).map fun s => ((), s) := runKernel_act _

@[simp] theorem runKernel_size : runKernel (size h) s = (s.size h).map fun v => (v, s) :=
  runKernel_act _

@[simp] theorem runKernel_setSize :
    runKernel (setSize h v) s = (s.setSize h v).map fun s => ((), s) := runKernel_act _

@[simp] theorem runKernel_core :
    runKernel (core nu) s = (kalloc s.toPhys).map fun r =>
      (r.1, { s with toPhys := r.2, core := r.1 :: s.core }) := runKernel_act _

theorem runKernel_scan (bp fuel p : Nat) :
    runKernel (scan bp fuel p) s = (knfreeScan s bp fuel p).map fun v => (v, s) := by
  induction fuel generalizing p with
  | zero => rfl
  | succ fuel ih =>
    cases hq : s.ptr p with
    | none =>
      by_cases hp : p < bp <;> simp [scan, between, atEnd, knfreeScan, hq, hp]
    | some q =>
      by_cases hp : p < bp <;> by_cases hb : bp < q <;> by_cases hqp : q ≤ p <;>
        simp [scan, between, atEnd, knfreeScan, hq, hp, hb, hqp, ih]

theorem runKernel_joinNext (bp p : Nat) :
    runKernel (joinNext bp p) s = (Mem.joinNext s bp p).map fun s => ((), s) := by
  unfold joinNext Mem.joinNext
  cases hq : s.ptr p with
  | none => simp [hq]
  | some q =>
    cases hn : s.size bp with
    | none => simp [hn]
    | some n =>
      by_cases he : bp + n * HEADER = q
      · simp [hq, hn, he, bind_map]
      · simp [hq, hn, he]

theorem runKernel_joinPrev (bp p : Nat) :
    runKernel (joinPrev bp p) s = (Mem.joinPrev s bp p).map fun s => ((), s) := by
  unfold joinPrev Mem.joinPrev
  cases hn : s.size p with
  | none => simp [hn]
  | some n =>
    by_cases he : p + n * HEADER = bp
    · simp [hn, he, bind_map]
    · simp [hn, he]

theorem runKernel_free (fuel ap : Nat) :
    runKernel (free fuel ap) s = (knfree fuel s ap).map fun s => ((), s) := by
  simp [free, knfree, runKernel_scan, runKernel_joinNext, runKernel_joinPrev, bind_map]

theorem runKernel_morecore (fuel nu : Nat) :
    runKernel (morecore fuel nu) s = knmorecore fuel s nu := by
  simp only [morecore, knmorecore, runKernel_bind, runKernel_core, bind_map, comp_def]
  refine Option.bind_congr fun r _ => ?_
  by_cases hp : r.1 = 2 ^ 64 - 1
  · rw [if_pos hp, if_pos hp]
    rfl
  · rw [if_neg hp, if_neg hp]
    simp [runKernel_free, bind_map]

theorem runKernel_carve {n : Nat} (nunits prevp p : Nat) (hn : s.size p = some n)
    (hle : nunits ≤ n) :
    runKernel (carve nunits prevp p) s = Mem.carve s nunits prevp p n := by
  unfold carve Mem.carve
  by_cases he : n = nunits
  · simp [hn, he, bind_map]
  · have hset : s.setSize p (n + 2 ^ 32 - nunits) = s.setSize p (n - nunits) := by
      simp only [Heap.setSize, show (n + 2 ^ 32 - nunits) % 2 ^ 32 = (n - nunits) % 2 ^ 32 by omega]
    simp [hn, he, ← hset, bind_map]

theorem runKernel_mallocLoop (bound nunits fuel prevp p : Nat) :
    runKernel (mallocLoop bound nunits fuel prevp p) s =
      knmallocLoop bound nunits fuel s prevp p := by
  induction fuel generalizing s prevp p with
  | zero => rfl
  | succ fuel ih =>
    rw [mallocLoop, knmallocLoop]
    cases hn : s.size p with
    | none => simp [hn]
    | some n =>
      by_cases hle : nunits ≤ n
      · simp [hn, hle, runKernel_carve]
      · by_cases hf : p = s.freep
        · simp only [runKernel_bind, runKernel_size, runKernel_freep, hn, hle, ← hf,
            runKernel_morecore, Option.map_some, Option.bind_some, if_true, if_false,
            Option.bind_eq_bind]
          refine Option.bind_congr fun r _ => ?_
          by_cases hr : r.1 = 0
          · simp [hr]
          · simp [hr, ih, bind_map]
        · simp [hn, hle, hf, ih, bind_map]

theorem runKernel_initFreep (lay : Layout) :
    runKernel (initFreep lay.base) s = (Mem.initFreep lay s).map fun s => (s.freep, s) := by
  unfold initFreep Mem.initFreep
  obtain ⟨hm1, hm2⟩ := lay.mapped_base
  by_cases hf : s.freep = 0
  · simp [hf, Heap.setPtr, Heap.store_eq hm1, Heap.setSize_eq hm2]
  · simp [hf]

theorem runKernel_malloc (lay : Layout) (fuel nbytes : Nat) :
    runKernel (malloc lay.base fuel nbytes) s = knmalloc lay fuel s nbytes := by
  simp [malloc, knmalloc, runKernel_initFreep, runKernel_mallocLoop,
    bind_map]

end Kernel

/-! ## Any memory -/

/-- The memory from `lo` to `hi` that an allocator can get, RAM of the machine, and the address of
`base`. -/
structure Window where
  base : Nat
  lo : Nat
  hi : Nat
  base_pos : 0 < base
  lo_le : lo ≤ base
  base_le : base + HEADER ≤ hi
  hi_lt : hi < 2 ^ 64
  small : hi < lo + 2 ^ 32 * HEADER

/-- The kernel's. -/
def kernelWindow (lay : Layout) : Window where
  base := lay.base
  lo := KERNBASE
  hi := PHYSTOP
  base_pos := Nat.lt_of_lt_of_le (by decide) lay.kernbase_le
  lo_le := lay.kernbase_le
  base_le := Nat.le_trans lay.base_lt lay.kend_le
  hi_lt := by decide
  small := by decide

/-- That of a process: it begins at address 0, and each of its pages is one of RAM. -/
def userWindow (base : Nat) (h₀ : 0 < base) (h₁ : base + HEADER ≤ PHYSTOP - KERNBASE) : Window where
  base := base
  lo := 0
  hi := PHYSTOP - KERNBASE
  base_pos := h₀
  lo_le := Nat.zero_le _
  base_le := h₁
  hi_lt := by decide
  small := by decide

/-- The memory by words, `freep`, and the regions that the requests have obtained, by their address
and number of units. -/
structure Arena where
  mem : Nat → Nat
  freep : Nat := 0
  regions : List (Nat × Nat) := []

def Arena.ptr (s : Arena) (h : Nat) : Nat := s.mem h

def Arena.size (s : Arena) (h : Nat) : Nat := s.mem (h + 8) % 2 ^ 32

def Arena.setPtr (s : Arena) (h v : Nat) : Arena := { s with mem := Function.update s.mem h v }

def Arena.setSize (s : Arena) (h v : Nat) : Arena :=
  { s with
    mem := Function.update s.mem (h + 8) (s.mem (h + 8) / 2 ^ 32 * 2 ^ 32 + v % 2 ^ 32) }

/-- The answer to a request: `(char*)-1`, or the address of a region and what is in it. -/
abbrev Answer := Option (Nat × (Nat → Nat))

def Arena.grow (s : Arena) (nu : Nat) : Answer → Nat × Arena
  | none => (2 ^ 64 - 1, s)
  | some (p, junk) => (p, { s with
      mem := fun a => if p ≤ a ∧ a < p + nu * HEADER then junk a else s.mem a
      regions := (p, nu) :: s.regions })

variable (W : Window)

def Window.mapped (a : Nat) : Bool := W.lo ≤ a ∧ a + 8 ≤ W.hi

def access : Prog.Handler Op.Res Answer Arena
  | .freep, _, s => some (s.freep, s)
  | .setFreep v, _, s => some ((), { s with freep := v })
  | .ptr h, _, s => if W.mapped h then some (s.ptr h, s) else none
  | .setPtr h v, _, s => if W.mapped h then some ((), s.setPtr h v) else none
  | .size h, _, s => if W.mapped (h + 8) then some (s.size h, s) else none
  | .setSize h v, _, s => if W.mapped (h + 8) then some ((), s.setSize h v) else none
  | .core nu, i, s => some (s.grow nu i)

/-- What a request that succeeds yields: a region of `nu` units above `base`, inside the memory and
disjoint from the earlier ones. -/
structure Fresh (s : Arena) (nu p : Nat) : Prop where
  above : W.base + HEADER ≤ p
  below : p + nu * HEADER ≤ W.hi
  disjoint : ∀ r ∈ s.regions, ∀ x, InBlk HEADER (p, nu) x → ¬ InBlk HEADER r x

/-- The condition on the answers of the environment. -/
def Allowed : Op → Answer → Arena → Prop
  | .core nu, some (p, _), s => Fresh W s nu p
  | _, _, _ => True

end Xv6.Malloc
