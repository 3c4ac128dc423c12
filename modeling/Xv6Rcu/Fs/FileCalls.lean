import Xv6Rcu.Fs.FileRefs

/-!
# System calls on open files

- `Returns`: a call does not panic, and if it returns -1 it has undone what it did. One lemma for
  each system call.
- `Accounted`: what holds after every call of a run.
-/

namespace Xv6.Files

open Lib Function List

section Calls
variable {P I : Type} [Fintype P] [DecidableEq P] [DecidableEq I]

/-- The state between two calls. -/
def Ok (s : St P I) : Prop := Inv (fun _ => 0) (fun _ => 0) s

/-- Every descriptor and every file in use is as it was in `s`. -/
structure Undone (s s' : St P I) : Prop where
  ofile : s'.ofile = s.ofile
  live : s'.live = s.live
  file : ∀ f, (s.file f).ref ≠ 0 → s'.file f = s.file f

/-- The call does not panic, and if it returns -1 it has undone what it did. -/
def Returns (s : St P I) (r : Option (Int × St P I)) : Prop :=
  ∃ v s', r = some (v, s') ∧ Ok s' ∧ (v = -1 → Undone s s')

variable {s s' : St P I} {p np : P} {f f0 f1 : Fid} {fd : Fd}

omit [Fintype P] [DecidableEq P] [DecidableEq I] in
theorem Undone.refl (s : St P I) : Undone s s := ⟨rfl, rfl, fun _ _ => rfl⟩

omit [DecidableEq P] in
theorem Returns.failed (h : Ok s') (hu : Undone s s') : Returns s (some (-1, s')) :=
  ⟨-1, s', rfl, h, fun _ => hu⟩

omit [Fintype P] [DecidableEq P] [DecidableEq I] in
theorem argfd_some {n : Int} {x : Fd × Fid} (h : argfd s p n = some x) :
    s.ofile (p, x.1) = some x.2 := by
  unfold argfd at h
  split at h
  · cases h
  · obtain ⟨f, hf, rfl⟩ := Option.map_eq_some_iff.mp h
    exact hf

omit [DecidableEq P] in
/-- A file that a descriptor holds has a count. -/
theorem Ok.ref_pos (h : Ok s) {q : P × Fd} (hq : s.ofile q = some f) : 1 ≤ (s.file f).ref := by
  have hc := h.count f
  have hs := slots_pos hq
  omega

theorem sysDup_returns (h : Ok s) (hl : s.live p = true) (n : Int) :
    Returns s (sysDup s p n) := by
  unfold sysDup
  cases ha : argfd s p n with
  | none => exact .failed h (.refl s)
  | some x =>
    obtain ⟨fd, f⟩ := x
    have hfd := argfd_some ha
    rcases fdalloc_cases s p f with hn | ⟨fd', hs, hfree⟩
    · simp only [hn]
      exact .failed h (.refl s)
    · simp only [hs]
      have hinv := Inv.install (f := f) h hl hfree
      obtain ⟨s', hd, hinv', -, -⟩ := hinv.filedup (h.ref_pos hfd)
      rw [hd]
      refine ⟨fd', s', rfl, ?_, fun hv => ?_⟩
      · have hb : bump (bump (fun _ => 0) f (-1)) f 1 = fun _ => 0 := bump_cancel _ f (-1)
        rwa [hb] at hinv'
      · omega

theorem sysClose_returns (h : Ok s) (n : Int) : Returns s (sysClose s p n) := by
  unfold sysClose
  cases ha : argfd s p n with
  | none => exact .failed h (.refl s)
  | some x =>
    have hfd := argfd_some ha
    obtain ⟨s', hc, hcl⟩ := (Inv.uninstall h hfd).fileclose (h.ref_pos hfd)
    dsimp only
    rw [hc]
    refine ⟨0, s', rfl, ?_, nofun⟩
    have hinv := hcl.inv
    rwa [bump_cancel] at hinv

/-! ### `sys_open` -/

/-- The reference of the call to one inode. -/
def one (ip : I) : I → Nat := Function.update (fun _ => 0) ip 1

theorem one_pos (ip : I) : 0 < one ip ip := by
  rw [one, update_self]
  exact Nat.one_pos

theorem put_one (ip : I) : update (one ip) ip (one ip ip - 1) = fun _ => 0 := by
  rw [one, update_self, update_idem]
  exact update_eq_self ..

omit [DecidableEq P] in
theorem open_failed {s1 : St P I} {ip : I} (h : Inv (fun _ => 0) (one ip) s1)
    (hu : Undone s s1) : Returns s ((iput s1 ip).map (-1, ·)) := by
  obtain ⟨hp, hinv⟩ := h.iput (one_pos ip)
  rw [put_one] at hinv
  rw [hp]
  exact .failed hinv ⟨hu.ofile, hu.live, hu.file⟩

omit [DecidableEq P] in
/-- The new file `f` gets the inode, with fields that do not matter for the counts. -/
theorem open_inode_ok {s1 : St P I} {ip : I} {x : File I} (h : Inv (fun _ => 0) (one ip) s1)
    (hf : (s1.file f).ref = 1) (ht : (s1.file f).type = .none) (hr : x.ref = 1)
    (hx : x.obj = some (.inode ip)) : Ok (s1.setFile f x) := by
  have hobj : (s1.file f).obj = none := by rw [File.obj, ht]
  have ho := h.objs.open_inode hobj (one_pos ip)
  rw [put_one, ← hx] at ho
  have hinv : Inv (bump (fun _ => 0) f 0) _ (s1.setFile f x) :=
    h.setFile rfl rfl rfl (by rw [hr, hf]; rfl) (fun h0 => by rw [hr] at h0; cases h0)
      (fun _ => by rw [hx]; exact Option.some_ne_none _) ho
  rwa [bump_zero] at hinv

theorem sysOpen_returns (h : Ok s) (hl : s.live p = true) (a : OpenArgs I) :
    Returns s (sysOpen s p a) := by
  unfold sysOpen
  split
  · exact .failed h (.refl s)
  · exact .failed h (.refl s)
  · next omode n _ _ =>
    have h1 : Inv (fun _ => 0) (one n.ip) (iget s n.ip) := Inv.iget h n.ip
    have hu1 : Undone s (iget s n.ip) := ⟨rfl, rfl, fun _ _ => rfl⟩
    dsimp only
    split
    · exact open_failed h1 hu1
    split
    · exact open_failed h1 hu1
    rcases h1.filealloc with hn | ⟨f, s2, hs2, hfr⟩
    · rw [hn]
      exact open_failed h1 hu1
    have hne : ∀ g, (s.file g).ref ≠ 0 → g ≠ f := fun g hg he => hg (he ▸ hfr.unused)
    rw [hs2]
    rcases fdalloc_cases s2 p f with hn | ⟨fd, hs, hfree⟩
    · -- no descriptor is free: the file is closed again
      obtain ⟨s3, hc, hcl⟩ := hfr.inv.fileclose (by rw [hfr.self])
      have h3 := hcl.inv
      rw [bump_cancel] at h3
      simp only [hn, hc]
      refine open_failed h3 ⟨hcl.ofile.trans hfr.ofile, hcl.live.trans hfr.live, fun g hg => ?_⟩
      rw [hcl.file g (hne g hg), hfr.file g (hne g hg)]
      rfl
    · have h3 := hfr.inv.install (f := f) (hfr.live ▸ hl) hfree
      rw [bump_cancel] at h3
      simp only [hs]
      refine ⟨fd, _, rfl, open_inode_ok h3 ?_ ?_ ?_ ?_, fun hv => ?_⟩
      · show (s2.file f).ref = 1
        rw [hfr.self]
      · show (s2.file f).type = .none
        rw [hfr.self]
        exact h.typed f hfr.unused
      · split <;>
        · show (s2.file f).ref = 1
          rw [hfr.self]
      · split <;> rfl
      · omega

/-! ### `sys_pipe` -/

/-- The call has one reference to each of two files. -/
def two (f0 f1 : Fid) : Fid → Int := bump (bump (fun _ => 0) f0 1) f1 1

theorem two_close (hne : f0 ≠ f1) : bump (bump (two f0 f1) f0 (-1)) f1 (-1) = fun _ => 0 := by
  rw [two, bump_comm _ hne, bump_cancel, bump_cancel]

/-- The call has two files that were not in use in `s`, and nothing else has changed. -/
structure TwoFiles (s : St P I) (f0 f1 : Fid) (s' : St P I) : Prop where
  inv : Inv (two f0 f1) (fun _ => 0) s'
  ne : f0 ≠ f1
  ofile : s'.ofile = s.ofile
  live : s'.live = s.live
  file : ∀ f, f ≠ f0 → f ≠ f1 → s'.file f = s.file f
  ref0 : (s.file f0).ref = 0
  ref1 : (s.file f1).ref = 0

omit [DecidableEq P] in
/-- The two files are closed. -/
theorem TwoFiles.close {α : Type} (h : TwoFiles s f0 f1 s') (v : α) :
    ∃ s2, (fileclose s' f0).bind (fun s => (fileclose s f1).map (v, ·)) = some (v, s2) ∧ Ok s2 ∧
      Undone s s2 := by
  have hne := h.ne
  have hc0 := h.inv.count f0
  have hc1 := h.inv.count f1
  have he0 : two f0 f1 f0 = 1 := by rw [two, bump_of_ne _ _ hne, bump_self]; rfl
  have he1 : two f0 f1 f1 = 1 := by rw [two, bump_self, bump_of_ne _ _ hne.symm]; rfl
  obtain ⟨s2, hs2, hcl2⟩ := h.inv.fileclose (f := f0) (by omega)
  obtain ⟨s3, hs3, hcl3⟩ := hcl2.inv.fileclose (f := f1) (by rw [hcl2.file f1 hne.symm]; omega)
  have hinv := hcl3.inv
  rw [two_close hne] at hinv
  refine ⟨s3, by rw [hs2, Option.bind_some, hs3]; rfl, hinv, ?_, ?_, fun f hf => ?_⟩
  · rw [hcl3.ofile, hcl2.ofile, h.ofile]
  · rw [hcl3.live, hcl2.live, h.live]
  · have hf0 : f ≠ f0 := fun he => hf (he ▸ h.ref0)
    have hf1 : f ≠ f1 := fun he => hf (he ▸ h.ref1)
    rw [hcl3.file f hf1, hcl2.file f hf0, h.file f hf0 hf1]

omit [DecidableEq P] in
/-- The two files become the ends of a new pipe. -/
theorem Inv.newPipe {extra : Fid → Int} {hold : I → Nat} {pi : Nat} {x0 x1 : File I}
    (h : Inv extra hold s) (hne : f0 ≠ f1) (hpg : s.page pi = false)
    (h0 : (s.file f0).type = .none) (h1 : (s.file f1).type = .none)
    (hr0 : x0.ref = (s.file f0).ref ∧ x0.ref ≠ 0) (hr1 : x1.ref = (s.file f1).ref ∧ x1.ref ≠ 0)
    (hx0 : x0.obj = some (.pipe pi false)) (hx1 : x1.obj = some (.pipe pi true))
    (hfile : s'.file = update (update s.file f0 x0) f1 x1)
    (hofile : s'.ofile = s.ofile) (hlive : s'.live = s.live)
    (hpage : s'.page = update s.page pi true)
    (hpipe : s'.pipe = update s.pipe pi ⟨true, true⟩) (hiref : s'.iref = s.iref) :
    Inv extra hold s' := by
  have hf1 : s'.file f1 = x1 := by rw [hfile, update_self]
  have hf0 : s'.file f0 = x0 := by
    rw [hfile, update_of_ne hne, update_self]
  have hother : ∀ f, f ≠ f0 → f ≠ f1 → s'.file f = s.file f := fun f hf hf' => by
    rw [hfile, update_of_ne hf', update_of_ne hf]
  -- a file is one of the two ends, or as before
  have hcases : ∀ (f : Fid) (C : Fid → Prop), C f0 → C f1 → (f ≠ f0 → f ≠ f1 → C f) → C f := by
    intro f C c0 c1 c
    by_cases he0 : f = f0
    · exact he0 ▸ c0
    · by_cases he1 : f = f1
      · exact he1 ▸ c1
      · exact c he0 he1
  have hobj : (fun f => (s'.file f).obj) = update (update
      (fun f => (s.file f).obj) f0 (some (.pipe pi false))) f1 (some (.pipe pi true)) := by
    funext f
    refine hcases f (fun f => (s'.file f).obj = _) ?_ ?_ fun hne0 hne1 => ?_
    · rw [update_of_ne hne, update_self, hf0, hx0]
    · rw [update_self, hf1, hx1]
    · rw [update_of_ne hne1, update_of_ne hne0, hother f hne0 hne1]
  refine ⟨fun f => ?_, ?_, fun f => ?_, fun f => ?_, ?_⟩
  · rw [hofile, ← h.count f]
    refine hcases f (fun f => (s'.file f).ref = (s.file f).ref) ?_ ?_ fun hne0 hne1 => ?_
    · rw [hf0, hr0.1]
    · rw [hf1, hr1.1]
    · rw [hother f hne0 hne1]
  · rw [hofile, hlive]
    exact h.dead
  · refine hcases f (fun f => (s'.file f).ref = 0 → _) ?_ ?_ fun hne0 hne1 => ?_
    · rw [hf0]
      exact fun h0 => absurd h0 hr0.2
    · rw [hf1]
      exact fun h0 => absurd h0 hr1.2
    · rw [hother f hne0 hne1]
      exact h.typed f
  · refine hcases f (fun f => _ → (s'.file f).obj ≠ none) ?_ ?_ fun hne0 hne1 => ?_
    · rw [hf0, hx0]
      exact fun _ => Option.some_ne_none _
    · rw [hf1, hx1]
      exact fun _ => Option.some_ne_none _
    · rw [hother f hne0 hne1]
      exact h.obj f
  · rw [hobj, hpage, hpipe, hiref]
    exact h.objs.open_pipe (by rw [File.obj, h0]) (by rw [File.obj, h1]) hne hpg

omit [DecidableEq P] in
theorem pipealloc_cases (h : Ok s) {pg : Option Nat} (hpg : ∀ pi ∈ pg, s.page pi = false) :
    (∃ s', pipealloc s pg = some (none, s') ∧ Ok s' ∧ Undone s s') ∨
      ∃ f0 f1 s', pipealloc s pg = some (some (f0, f1), s') ∧ TwoFiles s f0 f1 s' := by
  unfold pipealloc
  rcases Inv.filealloc h with hn | ⟨f0, s1, hs1, hfr1⟩
  · rw [hn]
    exact .inl ⟨s, rfl, h, .refl s⟩
  rw [hs1]
  dsimp only
  rcases hfr1.inv.filealloc with hn | ⟨f1, s2, hs2, hfr2⟩
  · obtain ⟨s2, hc, hcl⟩ := hfr1.inv.fileclose (f := f0) (by rw [hfr1.self])
    have hinv := hcl.inv
    rw [bump_cancel] at hinv
    rw [hn]
    refine .inl ⟨s2, by dsimp only; rw [hc]; rfl, hinv, hcl.ofile.trans hfr1.ofile,
      hcl.live.trans hfr1.live, fun f hf => ?_⟩
    have hne : f ≠ f0 := fun he => hf (he ▸ hfr1.unused)
    rw [hcl.file f hne, hfr1.file f hne]
  rw [hs2]
  have hne : f0 ≠ f1 := fun he => by
    have := hfr2.unused
    rw [← he, hfr1.self] at this
    cases this
  have hunused : (s.file f1).ref = 0 := by
    rw [← hfr1.file f1 hne.symm]
    exact hfr2.unused
  have htwo : TwoFiles s f0 f1 s2 :=
    ⟨hfr2.inv, hne, hfr2.ofile.trans hfr1.ofile, hfr2.live.trans hfr1.live,
      fun f hf hf' => (hfr2.file f hf').trans (hfr1.file f hf), hfr1.unused, hunused⟩
  cases pg with
  | none =>
    obtain ⟨s', hs', hok, hu⟩ := htwo.close (none : Option (Fid × Fid))
    exact .inl ⟨s', hs', hok, hu⟩
  | some pi =>
    have hf0 : s2.file f0 = { s.file f0 with ref := 1 } := by
      rw [hfr2.file f0 hne, hfr1.self]
    have hf1 : s2.file f1 = { s.file f1 with ref := 1 } := by
      rw [hfr2.self, hfr1.file f1 hne.symm]
    refine .inr ⟨f0, f1, _, rfl, ?_, hne, htwo.ofile, htwo.live, fun f hf hf' => ?_, htwo.ref0,
      htwo.ref1⟩
    · have hpage : s2.page pi = false := by
        rw [hfr2.page, hfr1.page]
        exact hpg pi rfl
      refine htwo.inv.newPipe hne hpage ?_ ?_ ?_ ?_ ?_ ?_ rfl rfl rfl rfl rfl rfl
      · rw [hf0]
        exact h.typed f0 hfr1.unused
      · rw [hf1]
        exact h.typed f1 hunused
      · refine ⟨rfl, ?_⟩
        show (s2.file f0).ref ≠ 0
        rw [hf0]
        exact Int.one_ne_zero
      · refine ⟨rfl, ?_⟩
        show (s2.file f1).ref ≠ 0
        rw [hf1]
        exact Int.one_ne_zero
      · rfl
      · rfl
    · show update (update s2.file f0 _) f1 _ f = s.file f
      rw [update_of_ne hf', update_of_ne hf, htwo.file f hf hf']

omit [Fintype P] [DecidableEq I] in
theorem setFd_undo (s : St P I) (y : Option Fid) (h : s.ofile (p, fd) = none) :
    (s.setFd p fd y).setFd p fd none = s := by
  simp only [St.setFd, update_idem]
  rw [← h, update_eq_self]

omit [Fintype P] [DecidableEq I] in
theorem setFd_comm (s : St P I) {fd' : Fd} (y y' : Option Fid) (h : fd ≠ fd') :
    (s.setFd p fd y).setFd p fd' y' = (s.setFd p fd' y').setFd p fd y := by
  simp only [St.setFd]
  rw [update_comm fun he => h (Prod.mk.inj he).2]

theorem sysPipe_returns (h : Ok s) (hl : s.live p = true) (a : PipeArgs)
    (hpg : ∀ pi ∈ a.page, s.page pi = false) : Returns s (sysPipe s p a) := by
  unfold sysPipe
  split
  · exact .failed h (.refl s)
  rcases pipealloc_cases h hpg with ⟨s1, hs1, hok, hu⟩ | ⟨rf, wf, s1, hs1, htwo⟩
  · rw [hs1]
    exact .failed hok hu
  rw [hs1, Option.bind_some]
  obtain ⟨s', hs', hok, hu⟩ := htwo.close (-1 : Int)
  rcases fdalloc_cases s1 p rf with hn | ⟨fd0, hs2, hfree0⟩
  · simp only [hn, hs']
    exact .failed hok hu
  simp only [hs2]
  rcases fdalloc_cases (s1.setFd p fd0 (some rf)) p wf with hn | ⟨fd1, hs3, hfree1⟩
  · simp only [hn, setFd_undo s1 _ hfree0, hs']
    exact .failed hok hu
  have hne : fd0 ≠ fd1 := fun he => by
    have hfree1 : update s1.ofile (p, fd0) (some rf) (p, fd1) = none := hfree1
    rw [← he, update_self] at hfree1
    cases hfree1
  have hfree1' : s1.ofile (p, fd1) = none := by
    have hfree1 : update s1.ofile (p, fd0) (some rf) (p, fd1) = none := hfree1
    rwa [update_of_ne fun he => hne (Prod.mk.inj he).2.symm] at hfree1
  simp only [hs3]
  split
  · -- a copy to the user memory fails
    rw [setFd_comm (s1.setFd p fd0 (some rf)) _ _ hne.symm, setFd_undo s1 _ hfree0,
      setFd_undo s1 _ hfree1', hs']
    exact .failed hok hu
  · have hlive1 : s1.live p = true := htwo.live ▸ hl
    have hinv := (htwo.inv.install hlive1 hfree0).install (f := wf) hlive1 hfree1
    rw [two_close htwo.ne] at hinv
    exact ⟨0, _, rfl, hinv, nofun⟩

/-! ### `fork` and `exit` -/

/-- A round of the loop of `fork` gives the reference that it takes to a descriptor of the child. -/
theorem copyFd_ok (p : P) (h : Ok s) (hnp : s.live np = true) (hfd : s.ofile (np, fd) = none) :
    ∃ s', copyFd p np s fd = some s' ∧ Ok s' ∧ s'.live = s.live ∧
      ∀ fd', fd' ≠ fd → s'.ofile (np, fd') = s.ofile (np, fd') := by
  unfold copyFd
  cases hp : s.ofile (p, fd) with
  | none => exact ⟨s, rfl, h, rfl, fun _ _ => rfl⟩
  | some f =>
    obtain ⟨s1, hs1, hinv, hofile, hlive⟩ := Inv.filedup h (h.ref_pos hp)
    have hinv' : Inv _ _ (s1.setFd np fd (some f)) := hinv.install (hlive ▸ hnp) (hofile ▸ hfd)
    rw [bump_cancel] at hinv'
    refine ⟨_, by simp only [hs1]; rfl, hinv', hlive, fun fd' hne => ?_⟩
    show update s1.ofile (np, fd) (some f) (np, fd') = _
    rw [update_of_ne fun he => hne (Prod.mk.inj he).2, hofile]

theorem copyFds_ok (p : P) {fds : List Fd} (hnd : fds.Nodup) (h : Ok s) (hnp : s.live np = true)
    (hfds : ∀ fd ∈ fds, s.ofile (np, fd) = none) :
    ∃ s', fds.foldlM (copyFd p np) s = some s' ∧ Ok s' := by
  induction fds generalizing s with
  | nil => exact ⟨s, rfl, h⟩
  | cons fd fds ih =>
    obtain ⟨hfd, hnd⟩ := nodup_cons.mp hnd
    obtain ⟨s1, hs1, h1, hlive, hother⟩ := copyFd_ok p h hnp (hfds fd mem_cons_self)
    obtain ⟨s2, hs2, h2⟩ := ih hnd h1 (hlive ▸ hnp) fun fd' hfd' => by
      rw [hother fd' fun he => hfd (he ▸ hfd')]
      exact hfds fd' (mem_cons_of_mem _ hfd')
    exact ⟨s2, by rw [foldlM_cons, hs1]; exact hs2, h2⟩

theorem fork_returns (h : Ok s) (hnp : s.live np = false) (pid : Nat) (ok : Bool) :
    Returns s (fork s p np pid ok) := by
  unfold fork
  split
  · exact .failed h (.refl s)
  have h1 : Ok { s with live := update s.live np true } := by
    refine ⟨h.count, fun q fd hq => h.dead q fd ?_, h.typed, h.obj, h.objs⟩
    by_cases he : q = np
    · exact he ▸ hnp
    · have hq : update s.live np true q = false := hq
      rwa [update_of_ne he] at hq
  obtain ⟨s', hs', hok⟩ := copyFds_ok p (nodup_finRange _) h1
    (update_self np true s.live) fun fd _ => h.dead np fd hnp
  rw [hs']
  exact ⟨pid, s', rfl, hok, fun hv => by omega⟩

/-- A round of the loop of `closeFile`. -/
theorem closeFd_ok (p : P) (fd : Fd) (h : Ok s) :
    ∃ s', closeFd p s fd = some s' ∧ Ok s' ∧ s'.ofile (p, fd) = none ∧
      ∀ fd', s.ofile (p, fd') = none → s'.ofile (p, fd') = none := by
  unfold closeFd
  cases hp : s.ofile (p, fd) with
  | none => exact ⟨s, rfl, h, hp, fun _ => id⟩
  | some f =>
    obtain ⟨s1, hs1, hcl⟩ := Inv.fileclose h (h.ref_pos hp)
    have hinv := hcl.inv.uninstall ((congrFun hcl.ofile (p, fd)).trans hp)
    have hb : bump (bump (fun _ => 0) f (-1)) f 1 = fun _ => 0 := bump_cancel _ f (-1)
    rw [hb] at hinv
    refine ⟨_, by simp only [hs1]; rfl, hinv, update_self .., fun fd' hfd' => ?_⟩
    show update s1.ofile (p, fd) none (p, fd') = none
    by_cases he : (p, fd') = (p, fd)
    · rw [he, update_self]
    · rw [update_of_ne he, hcl.ofile, hfd']

theorem closeFds_ok (p : P) (fds : List Fd) (h : Ok s) :
    ∃ s', fds.foldlM (closeFd p) s = some s' ∧ Ok s' ∧
      ∀ fd, (fd ∈ fds ∨ s.ofile (p, fd) = none) → s'.ofile (p, fd) = none := by
  induction fds generalizing s with
  | nil => exact ⟨s, rfl, h, fun fd hfd => hfd.resolve_left not_mem_nil⟩
  | cons fd fds ih =>
    obtain ⟨s1, hs1, h1, hself, hkeep⟩ := closeFd_ok p fd h
    obtain ⟨s2, hs2, h2, hnone⟩ := ih h1
    refine ⟨s2, by rw [foldlM_cons, hs1]; exact hs2, h2, fun fd' hfd' => hnone fd' ?_⟩
    rcases hfd' with hfd' | hfd'
    · rcases mem_cons.mp hfd' with rfl | hfd'
      · exact .inr hself
      · exact .inl hfd'
    · exact .inr (hkeep fd' hfd')

theorem closeFile_returns (h : Ok s) : Returns s (closeFile s p) := by
  unfold closeFile
  obtain ⟨s', hs', hok, hnone⟩ := closeFds_ok p (finRange NOFILE) h
  rw [hs']
  refine ⟨0, _, rfl, ⟨hok.count, fun q fd hq => ?_, hok.typed, hok.obj, hok.objs⟩,
    nofun⟩
  by_cases he : q = p
  · rw [he]
    exact hnone fd (.inl (mem_finRange fd))
  · refine hok.dead q fd ?_
    have hq : update s'.live p false q = false := hq
    rwa [update_of_ne he] at hq

theorem exec_returns (h : Ok s) {c : Call P I} (he : Enabled s p c) : Returns s (exec s p c) := by
  cases c with
  | «open» a => exact sysOpen_returns h he a
  | pipe a => exact sysPipe_returns h he.1 a he.2
  | dup fd => exact sysDup_returns h he fd
  | close fd => exact sysClose_returns h fd
  | fork np pid ok => exact fork_returns h he.2 pid ok
  | exit => exact closeFile_returns h

/-! ## Runs -/

/-- What holds after every call: the counts are those of the descriptors, a call that returns -1 has
changed nothing, a pipe has its page while one of its ends is open, and each open file has one
reference to its inode. A second `kfree` or `iput` would be a panic. -/
structure Accounted (s : Sys P I) : Prop where
  ref : ∀ f, (s.st.file f).ref = slots s.st.ofile f
  failed : ∀ p c s', Enabled s.st p c → exec s.st p c = some (-1, s') →
    s'.ofile = s.st.ofile ∧ (∀ f, (s'.file f).ref = (s.st.file f).ref) ∧ s'.page = s.st.page ∧
      s'.iref = s.st.iref
  pipe : ∀ pi, s.st.page pi = true ↔
    ∃ f w, 0 < (s.st.file f).ref ∧ (s.st.file f).obj = some (.pipe pi w)
  inode : ∀ ip, s.st.iref ip = ∑ f, if (s.st.file f).obj = some (.inode ip) then 1 else 0
  no_panic : s.panic = false

omit [DecidableEq P] in
/-- The objects of a call that has undone what it did. -/
theorem Undone.obj (h : Ok s) (h' : Ok s') (hu : Undone s s') (f : Fid) :
    (s'.file f).obj = (s.file f).obj := by
  by_cases hf : (s.file f).ref = 0
  · have hf' : (s'.file f).ref = 0 := by
      rw [h'.count f, hu.ofile, ← h.count f, hf]
    rw [File.obj, File.obj, h.typed f hf, h'.typed f hf']
  · rw [hu.file f hf]

omit [DecidableEq P] in
theorem Undone.same (h : Ok s) (h' : Ok s') (hu : Undone s s') :
    s'.ofile = s.ofile ∧ (∀ f, (s'.file f).ref = (s.file f).ref) ∧ s'.page = s.page ∧
      s'.iref = s.iref := by
  have hobj := hu.obj h h'
  refine ⟨hu.ofile, fun f => ?_, ?_, ?_⟩
  · rw [h'.count f, hu.ofile, ← h.count f]
  · funext pi
    rw [Bool.eq_iff_iff, h'.objs.paged pi, h.objs.paged pi]
    simp only [hobj]
  · funext ip
    rw [h'.objs.counted ip, h.objs.counted ip]
    simp only [hobj]

theorem Ok.accounted (h : Ok s) : Accounted (⟨s, false⟩ : Sys P I) := by
  refine ⟨fun f => ?_, fun p c s' he hx => ?_, fun pi => ?_, fun ip => ?_, rfl⟩
  · rw [h.count f, add_zero]
  · obtain ⟨v, s1, hs1, hok, hu⟩ := exec_returns h he
    rw [hx] at hs1
    cases hs1
    exact (hu rfl).same h hok
  · rw [h.objs.paged pi]
    refine ⟨fun ⟨f, w, hf⟩ => ⟨f, w, ?_, hf⟩, fun ⟨f, w, _, hf⟩ => ⟨f, w, hf⟩⟩
    have hne : (s.file f).ref ≠ 0 := fun h0 => by
      rw [File.obj, h.typed f h0] at hf
      cases hf
    have hc := h.count f
    show 0 < (s.file f).ref
    omega
  · rw [h.objs.counted ip, add_zero]

theorem machine_ok {s s' : Sys P I} {l : Lbl P I} (h : Ok s.st ∧ s.panic = false)
    (hn : machine.next s l = some s') : Ok s'.st ∧ s'.panic = false := by
  simp only [machine] at hn
  split at hn
  · next hc =>
    obtain ⟨v, s1, hs1, hok, -⟩ := exec_returns h.1 hc.2
    rw [hs1] at hn
    cases hn
    exact ⟨hok, hc.1⟩
  · cases hn

omit [DecidableEq P] in
theorem ok_boot (live : P → Bool) : Ok ({ live } : St P I) := by
  refine ⟨fun f => ?_, fun _ _ _ => rfl, fun _ _ => rfl, fun f hf => absurd rfl hf, ?_⟩
  · show (0 : Int) = (slots (fun _ : P × Fd => none) f : Nat) + 0
    rw [slots, Finset.sum_eq_zero]
    · rfl
    · intro q _
      rw [if_neg (Option.some_ne_none _).symm]
  · refine ⟨fun pi => iff_of_false Bool.false_ne_true ?_, fun pi w hpi => ?_, ?_, fun ip => ?_⟩
    · rintro ⟨f, w, hf⟩
      cases hf
    · cases hpi
    · intro f g pi w hf
      cases hf
    · show 0 = (∑ f : Fid, if (none : Option (Obj I)) = some (.inode ip) then 1 else 0) + 0
      rw [Finset.sum_eq_zero]
      intro f _
      rw [if_neg (Option.some_ne_none _).symm]

/-- **Reference counts of open files.** -/
theorem files_accounted {live : P → Bool} {ls : List (Lbl P I)} {s : Sys P I}
    (hr : machine.run { st := { live } } ls = some s) : Accounted s := by
  obtain ⟨hok, hp⟩ := Machine.run_inv_all
    machine_ok ⟨ok_boot live, rfl⟩ hr
  obtain ⟨st, panic⟩ := s
  cases hp
  exact hok.accounted

end Calls

/-- A process opens a file, duplicates the descriptor and makes a pipe. A second pipe fails at its
last step. The child closes its descriptors when it exits, and the parent closes one end. -/
def forkRun : List (Lbl Bool Unit) :=
  [⟨false, .open ⟨some 2, some ⟨(), .file, 0⟩⟩⟩, ⟨false, .dup 0⟩,
    ⟨false, .pipe ⟨true, some 7, true, true⟩⟩,
    ⟨false, .fork true 3 true⟩, ⟨true, .pipe ⟨true, some 8, true, false⟩⟩, ⟨true, .exit⟩,
    ⟨false, .close 2⟩]

theorem files_accounted_forkRun :
    ∃ s : Sys Bool Unit, machine.run { st := { live := fun p => !p } } forkRun = some s ∧
      Accounted s ∧ (s.st.file 0).ref = 2 ∧ (s.st.file 1).ref = 0 ∧ (s.st.file 2).ref = 1 ∧
      s.st.page 7 = true ∧ s.st.page 8 = false := by
  have hrun : ((machine.run ({ st := { live := fun p => !p } } : Sys Bool Unit) forkRun).map
      fun s => ((s.st.file 0).ref, (s.st.file 1).ref, (s.st.file 2).ref, s.st.page 7,
        s.st.page 8)) = some (2, 0, 1, true, false) := by
    decide +kernel
  obtain ⟨s, hs, he⟩ := Option.map_eq_some_iff.mp hrun
  obtain ⟨h0, he⟩ := Prod.mk.inj he
  obtain ⟨h1, he⟩ := Prod.mk.inj he
  obtain ⟨h2, he⟩ := Prod.mk.inj he
  obtain ⟨h7, h8⟩ := Prod.mk.inj he
  exact ⟨s, hs, files_accounted hs, h0, h1, h2, h7, h8⟩

end Xv6.Files
