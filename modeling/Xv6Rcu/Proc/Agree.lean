import Xv6Rcu.Proc.ListProc
import Xv6Rcu.Proc.KStack
import Xv6Rcu.Rcu.List

/-!
# The models of `list_update_rcu`

`Proc/ListProc` has `list_update_rcu` as the source has it, with the locks and the pointers.
`Rcu/List` makes one step of each of its stores, `Proc/Seq` works on the list of the nodes and
`Proc/Sleep` on the list of the processes. On the same list they leave the same list and the same
`*ptr_to_free`.

- `Update`: a call of the first model, with the list and the displaced node.
- `seq_agrees`, `sleep_agrees`, `rcu_agrees`: the other models make the same update.
-/

namespace Xv6.ListProc

open Lib Function
open List hiding beq_eq_decide

section Agree
variable {h h' : Heap} {l l' : List Addr} {c : CpuId} {new q v : Addr} {tf r : Ptr}

/-- `list_update_rcu(&process_list, new, q, ...)` with the list `l`: the list is `l'` then, and `r`
is the displaced node. -/
structure Update (c : CpuId) (new q : Addr) (tf : Ptr) (h : Heap) (l : List Addr) (r : Ptr)
    (l' : List Addr) : Prop where
  run : ∃ h', listUpdateRcu c new q tf l.length h = .ok (if r.isSome then 1 else 0, r.or tf) h' ∧
    IsList h' l'
  found : r = l.find? (hasPid h q)
  list : l' = l.replaceF fun a => if hasPid h q a then some new else none

/-- The list of a call. -/
structure Given (h : Heap) (l : List Addr) (new : Addr) : Prop where
  list : IsList h l
  unlocked : h.writers.locked = false
  ne_nil : l ≠ []
  process : ∀ a ∈ l, ∃ p, (h.nodes a).process = some p
  new : new ∉ l ∧ new ∉ h.freed

theorem Given.update (hg : Given h l new) (c : CpuId) (q : Addr) (tf : Ptr) :
    ∃ r l', Update c new q tf h l r l' := by
  have hp : ∀ a ∈ l, (h.nodes a).process ≠ none := fun a ha =>
    Option.ne_none_iff_exists'.mpr (hg.process a ha)
  exact ⟨_, _, (listUpdateRcu_refines hg.list hg.unlocked hg.ne_nil le_rfl hp hg.new.1 hg.new.2).imp
    fun _ hr => ⟨hr.1, hr.2.1⟩, rfl, rfl⟩

theorem hasPid_eq_true {a p : Addr} (hp : (h.nodes a).process = some p) :
    hasPid h q a = true ↔ (h.procs p).pid = (h.procs q).pid := by
  simp [hasPid, hp]

/-! ## `Proc/Seq` -/

theorem seq_agrees {k : Seq.Kernel} (hg : Given h k.list new)
    (hp : ∀ a ∈ k.list, k.process a = (h.nodes a).process)
    (hpid : ∀ p, (k.procs p).pid = (h.procs p).pid) (hu : Update c new q tf h k.list r l') :
    ∃ k', Seq.listUpdateRcu new q k = .ok r k' ∧ k'.list = l' := by
  have hproc : ∀ a ∈ k.list, ∃ p, k.process a = some p := fun a ha => hp a ha ▸ hg.process a ha
  have hiff : ∀ a ∈ k.list, hasPid h q a = true ↔ (k.proc a).pid = (k.procs q).pid := by
    intro a ha
    obtain ⟨p, hap⟩ := hg.process a ha
    rw [hasPid_eq_true hap, Seq.proc_of ((hp a ha).trans hap), hpid, hpid]
  rw [hu.list, hu.found]
  rcases find_cases h q k.list with ⟨hnone, hmiss⟩ | ⟨l₁, x, l₂, hl, hsome, hmiss, hx⟩
  · refine ⟨k, ?_, ?_⟩
    · rw [hnone]
      refine Seq.listUpdateRcu_none hproc hg.ne_nil (fun a ha he => ?_) new
      exact absurd ((hiff a ha).mpr he) (by simp [hmiss a ha])
    · rw [replaceF_none hmiss]
  · have hmem : ∀ a ∈ l₁, a ∈ k.list := fun a ha => hl ▸ mem_append_left _ ha
    refine ⟨k.replaced l₁ x new l₂, ?_, ?_⟩
    · rw [hsome]
      refine Seq.listUpdateRcu_eq hproc hl ((hiff x (by simp [hl])).mp hx) (fun a ha he => ?_) new
      exact absurd ((hiff a (hmem a ha)).mpr he) (by simp [hmiss a ha])
    · rw [hl, replaceF_split hmiss hx]
      rfl

/-! ## `Proc/Sleep` -/

/-- The update of the list of the nodes is that of the list of their processes. -/
theorem forall₂_update {pid : Addr → Int} {L : List Addr}
    (hpid : ∀ p, pid p = (h.procs p).pid) (hv : (h.nodes new).process = some v)
    (hL : Forall₂ (fun a p => (h.nodes a).process = some p) l L) :
    Option.Rel (fun a p => (h.nodes a).process = some p) (l.find? (hasPid h q))
        (L.find? (pid · = pid q)) ∧
      Forall₂ (fun a p => (h.nodes a).process = some p)
        (l.replaceF fun a => if hasPid h q a then some new else none) (setKey pid (pid q) v L) := by
  induction hL with
  | nil => exact ⟨.none, .nil⟩
  | @cons a p l L ha hL ih =>
    by_cases hc : pid p = pid q
    · have hq : hasPid h q a = true := (hasPid_eq_true ha).mpr (by rwa [← hpid, ← hpid])
      rw [find?_cons_of_pos hq, find?_cons_of_pos (by simpa using hc)]
      simp only [replaceF_cons, hq, if_true, setKey, if_pos hc]
      exact ⟨.some ha, .cons hv hL⟩
    · have hq : ¬ hasPid h q a = true := fun hq =>
        hc (by rw [hpid, hpid]; exact (hasPid_eq_true ha).mp hq)
      rw [find?_cons_of_neg hq, find?_cons_of_neg (by simpa using hc)]
      simp only [replaceF_cons, if_neg hq, setKey, if_neg hc]
      exact ⟨ih.1, .cons ha ih.2⟩

theorem sleep_agrees {n : Nat} {s : Sleep.St n} (hpid : ∀ p, s.pid p = (h.procs p).pid)
    (hv : (h.nodes new).process = some v)
    (hL : Forall₂ (fun a p => (h.nodes a).process = some p) l s.list)
    (hu : Update c new q tf h l r l') :
    (r = none → s.listUpdateRcu v q = none) ∧
    ∀ a, r = some a → ∃ p s', s.listUpdateRcu v q = some (p, s') ∧
      (h.nodes a).process = some p ∧
      Forall₂ (fun a p => (h.nodes a).process = some p) l' s'.list := by
  obtain ⟨hfound, hlist⟩ := forall₂_update (q := q) hpid hv hL
  rw [← hu.found] at hfound
  rw [← hu.list] at hlist
  rw [Sleep.St.listUpdateRcu]
  generalize s.list.find? _ = found at hfound ⊢
  cases hfound with
  | none => exact ⟨fun _ => rfl, by rintro _ ⟨⟩⟩
  | some ha => exact ⟨by rintro ⟨⟩, fun a he => ⟨_, _, rfl, Option.some.inj he ▸ ha, hlist⟩⟩

/-! ## `Rcu/List` -/

section Rcu
open Rcu (St Pc rcu)
variable {s : St} {l₁ l₂ : List Addr} {prev : Addr}

theorem head_eq {next : Addr → Ptr} {a : Ptr} (hc : Chain next a l) : a = l.head? := by
  cases l with
  | nil => exact hc
  | cons b l => exact hc.1

/-- The nodes of the list are initialised, and have the processes of the heap. -/
structure Stored (h : Heap) (s : St) (l : List Addr) : Prop where
  chain : Chain s.nx s.processList l
  nodup : l.Nodup
  next : ∀ a ∈ l, (s.nodes a).next.isSome
  process : ∀ a ∈ l, ∃ p, (h.nodes a).process = some p ∧ (s.nodes a).process = some p

/-- The writer has returned; the list is `l`, and `r` was displaced. -/
def Returned (s : St) (r : Ptr) (l : List Addr) : Prop :=
  s.pc = .idle ∧ Chain s.nx s.processList l ∧ s.found = r.isSome ∧ (r ≠ none → s.ptrToFree = r)

theorem Stored.next_eq (hs : Stored h s l) {a : Addr} (ha : a ∈ l) :
    (s.nodes a).next = some (s.nx a) := by
  obtain ⟨p, hp⟩ := Option.isSome_iff_exists.mp (hs.next a ha)
  rw [Rcu.St.nx, hp]
  rfl

/-- The pid that the writer reads. -/
theorem Stored.pidOf_eq (hs : Stored h s l) {a : Addr} (ha : a ∈ l) :
    ∃ k, s.pidOf (fun p => (h.procs p).pid) a = some k ∧
      (k = (h.procs q).pid ↔ hasPid h q a = true) := by
  obtain ⟨p, hp, hp'⟩ := hs.process a ha
  exact ⟨_, by rw [Rcu.St.pidOf, hp']; rfl, (hasPid_eq_true hp).symm⟩

theorem Stored.congr {s' : St} (hs : Stored h s l) (hn : s'.nodes = s.nodes)
    (hp : s'.processList = s.processList) : Stored h s' l := by
  refine ⟨?_, hs.nodup, ?_, ?_⟩
  · rw [hp, show s'.nx = s.nx by funext a; rw [Rcu.St.nx, hn]; rfl]
    exact hs.chain
  · rw [hn]
    exact hs.next
  · rw [hn]
    exact hs.process

/-- The loop of `list_update_rcu` at the node behind `prev`. -/
theorem rcu_scan (hs : Stored h s (l₁ ++ prev :: l₂)) (hnew : new ∉ l₁ ++ prev :: l₂)
    (hpc : s.pc = .updScan new q prev l₂.head?) :
    ∃ m s', (rcu fun p => (h.procs p).pid).run s (replicate m .writer) = some s' ∧
      Returned s' (l₂.find? (hasPid h q))
        (l₁ ++ prev :: l₂.replaceF fun a => if hasPid h q a then some new else none) := by
  induction l₂ generalizing s l₁ prev with
  | nil =>
    let s₁ : St := { s with found := false, pc := .idle }
    refine ⟨1, s₁, Machine.run_cons.mpr ⟨s₁, ?_, rfl⟩, rfl, hs.chain, rfl, fun h0 => absurd rfl h0⟩
    simp only [rcu, Rcu.writer, hpc, head?_nil, Rcu.listUpdateRcu, s₁]
  | cons a l₂ ih =>
    have ha : a ∈ l₁ ++ prev :: a :: l₂ := by simp
    obtain ⟨k, hk, hiff⟩ := hs.pidOf_eq (q := q) ha
    obtain ⟨-, hprev, hrest⟩ := chain_mid.mp hs.chain
    by_cases hq : hasPid h q a = true
    · -- the node is found: two stores
      let s₁ : St := { s.setNext new (s.nx a) with pc := .updPublish new prev a }
      let s₂ : St := { s₁.setNext prev (some new) with
        linked := new :: s.linked, ptrToFree := some a, found := true, pc := .idle }
      refine ⟨2, s₂, Machine.run_cons.mpr ⟨s₁, ?_, Machine.run_cons.mpr ⟨s₂, ?_, rfl⟩⟩, ?_⟩
      · simp only [rcu, Rcu.writer, hpc, head?_cons, Rcu.listUpdateRcu, hk, hs.next_eq ha, bind,
          Option.bind_some, if_pos (hiff.mpr hq), s₁]
      · rfl
      · rw [find?_cons_of_pos hq, replaceF_cons, if_pos hq]
        refine ⟨rfl, ?_, rfl, fun _ => rfl⟩
        have hnx₁ : s₁.nx = update s.nx new (s.nx a) := Rcu.nx_setNext rfl
        have hnx₂ : s₂.nx = update s₁.nx prev (some new) := Rcu.nx_setNext rfl
        rw [hnx₂, hnx₁]
        exact hs.chain.replace hs.nodup hnew
    · -- the next round
      have hnext : s.nx a = l₂.head? := head_eq hrest
      let s₁ : St := { s with pc := .updScan new q a l₂.head? }
      rw [find?_cons_of_neg hq, replaceF_cons, if_neg hq]
      rw [append_cons] at hs hnew
      obtain ⟨m, s', hr, hret⟩ := ih (s := s₁) (hs.congr rfl rfl) hnew rfl
      refine ⟨m + 1, s', Machine.run_cons.mpr ⟨s₁, ?_, hr⟩, ?_⟩
      · rw [← append_cons] at hs
        simp only [rcu, Rcu.writer, hpc, head?_cons, Rcu.listUpdateRcu, hk, hs.next_eq ha, bind,
          Option.bind_some, if_neg fun he => hq (hiff.mp he), hs.next_eq (a := prev) (by simp),
          hprev, hnext, s₁]
      · rwa [append_assoc] at hret

theorem rcu_agrees (hs : Stored h s l) (hne : l ≠ []) (hnew : new ∉ l)
    (hpc : s.pc = .updHead new q) (hu : Update c new q tf h l r l') :
    ∃ m s', (rcu fun p => (h.procs p).pid).run s (replicate m .writer) = some s' ∧
      Returned s' r l' := by
  rw [hu.found, hu.list]
  obtain ⟨a, l₂, rfl⟩ := exists_cons_of_ne_nil hne
  have ha : a ∈ a :: l₂ := mem_cons_self
  obtain ⟨hhead, hrest⟩ := chain_cons.mp hs.chain
  obtain ⟨k, hk, hiff⟩ := hs.pidOf_eq (q := q) ha
  by_cases hq : hasPid h q a = true
  · let s₁ : St := { s.setNext new (s.nx a) with pc := .updHeadPublish new a, ptrToFree := some a }
    let s₂ : St := { s₁ with
      processList := some new, linked := new :: s.linked, found := true, pc := .idle }
    refine ⟨2, s₂, Machine.run_cons.mpr ⟨s₁, ?_, Machine.run_cons.mpr ⟨s₂, rfl, rfl⟩⟩, ?_⟩
    · simp only [rcu, Rcu.writer, hpc, Rcu.listUpdateRcu, hhead, hk, hs.next_eq ha, bind,
        Option.bind_some, if_pos (hiff.mpr hq), s₁]
    · rw [find?_cons_of_pos hq, replaceF_cons, if_pos hq]
      have hnx : s₂.nx = update s.nx new (s.nx a) := Rcu.nx_setNext rfl
      refine ⟨rfl, ⟨rfl, ?_⟩, rfl, fun _ => rfl⟩
      rw [hnx, update_self]
      exact Seg.update hrest fun hm => hnew (mem_cons_of_mem _ hm)
  · have hnext : s.nx a = l₂.head? := head_eq hrest
    let s₁ : St := { s with pc := .updScan new q a l₂.head? }
    rw [find?_cons_of_neg hq, replaceF_cons, if_neg hq]
    have hs₁ : Stored h s₁ ([] ++ a :: l₂) := hs.congr rfl rfl
    obtain ⟨m, s', hr, hret⟩ := rcu_scan hs₁ hnew rfl
    refine ⟨m + 1, s', Machine.run_cons.mpr ⟨s₁, ?_, hr⟩, hret⟩
    simp only [rcu, Rcu.writer, hpc, Rcu.listUpdateRcu, hhead, hk, hs.next_eq ha, bind,
      Option.bind_some, if_neg fun he => hq (hiff.mp he), hnext, s₁]

end Rcu

end Agree

end Xv6.ListProc
