import Xv6Rcu.Rcu.List

/-!
# A reader of the process list among the writers

The traversal loops of `wakeup`, `kill` and `procdump` walk the list node by node. `walk_ok`: for
every interleaving of the walk with the stores of any number of writer calls,

- the walk is finite: it turns at most as often as the list had nodes when it began, and it can go
  on from every node;
- every node it visits is initialised, and was on the list at a moment of the walk;
- no pid is visited twice;
- at its end, every pid that was on the list in all states of the walk has been visited once.

The invariant `Walk` of the walk speaks about the nodes that were on the list at some moment of it:
they are closed under `next`, also when they are stale (`closed`). The pids that are still to come
are below the reader (`cover`): by `Lib.Ranked.cover` no `next` jumps over them.
-/

namespace Xv6.Rcu

open Lib List

variable {pid : Addr → Int} {s s' : St} {l : List Addr} {r : Int → Nat}

/-- The node `a` is on the list. -/
def St.OnList (s : St) (a : Addr) : Prop := ∃ l, Chain s.nx s.processList l ∧ a ∈ l

variable (pid) in
/-- The pid `k` is on the list. -/
def St.Listed (s : St) (k : Int) : Prop := ∃ a, s.OnList a ∧ s.pidOf pid a = some k

variable (pid) in
/-- A process list with distinct pids, before any call and before the walk. -/
structure WellFormed (s : St) : Prop where
  chain : Chain s.nx s.processList s.linked
  init : ∀ a ∈ s.linked, (s.nodes a).process.isSome ∧ (s.nodes a).next.isSome
  distinct : (s.linked.map (s.pidOf pid)).Nodup
  idle : s.pc = .idle
  before : s.cursor = .before
  visited : s.visited = []

theorem onList_iff (h : Inv pid r l s) {a : Addr} : s.OnList a ↔ a ∈ l :=
  ⟨fun ⟨_, hc, ha⟩ => hc.unique h.ranked.chain ▸ ha, fun ha => ⟨l, h.ranked.chain, ha⟩⟩

/-- Ranks for distinct keys that fall along the list. -/
theorem exists_ranks (ks : List Int) (hd : ks.Nodup) :
    ∃ r : Int → Nat, ks.Pairwise fun a b => r b < r a := by
  refine ⟨fun k => ks.length - ks.idxOf k, pairwise_iff_getElem.mpr fun i j hi hj hij => ?_⟩
  simp only [hd.idxOf_getElem]
  omega

theorem WellFormed.inv (h : WellFormed pid s) : ∃ r, Inv pid r s.linked s := by
  let key : Addr → Int := fun a => (s.pidOf pid a).getD 0
  have hkey : ∀ a ∈ s.linked, s.pidOf pid a = some (key a) := by
    intro a ha
    obtain ⟨q, hq⟩ := Option.isSome_iff_exists.mp (h.init a ha).1
    simp [key, St.pidOf, hq]
  have hnd : (s.linked.map key).Nodup := by
    have h' := h.distinct
    rw [map_congr_left hkey] at h'
    exact Nodup.of_map some (by rwa [map_map])
  obtain ⟨r, hr⟩ := exists_ranks _ hnd
  refine ⟨r, .of_chain h.chain (pairwise_map.mp hr), h.init, fun a ha b hb e => ?_,
    by rw [h.idle]; trivial⟩
  by_contra hne
  have hne' : key a ≠ key b := fun e' => hne (by rw [hkey a ha, hkey b hb, e'])
  have hd : (s.linked.map key).Pairwise fun a b => r a ≠ r b := hr.imp fun h e => by omega
  have : Std.Symm fun a b => r a ≠ r b := ⟨fun _ _ h e => h e.symm⟩
  exact hd.forall (mem_map_of_mem ha) (mem_map_of_mem hb) hne' e

/-! ## The invariant of a walk -/

/-- The node was on the list in one of the states `ts`. -/
def Seen (ts : List St) (a : Addr) : Prop := ∃ t ∈ ts, t.OnList a

variable (pid) in
/-- The invariant of a walk (module doc). `ts` are the states of the walk, `n` is the number of
its turns, `P` are the pids of the list when it began; their ranks were below `R`. -/
structure Walk (R : Nat) (P : List (Option Int)) (ts : List St) (n : Nat) (r : Int → Nat)
    (l : List Addr) (s : St) : Prop where
  here : ∀ a ∈ l, Seen ts a
  linked : ∀ a, Seen ts a → a ∈ s.linked
  closed : ∀ a, Seen ts a → ∀ b, s.nx a = some b → Seen ts b
  old : ∀ a, Seen ts a → s.rk pid r a < R → s.pidOf pid a ∈ P
  visited : ∀ a ∈ s.visited, Seen ts a ∧ s.rk pid r a < R
  desc : s.visited.Pairwise fun a b => s.rk pid r a < s.rk pid r b
  cursor : match s.cursor with
    | .before => False
    | .on a => a ∈ s.visited ∧ (∀ b ∈ s.visited, s.rk pid r a ≤ s.rk pid r b) ∧
        n + 1 ≤ s.visited.length
    | .done => n ≤ s.visited.length
  cover : ∀ k, (∀ t ∈ ts, t.Listed pid k) → (∃ a ∈ s.visited, s.pidOf pid a = some k) ∨
    ∃ a, s.cursor = .on a ∧ ∃ m ∈ l, s.pidOf pid m = some k ∧ s.rk pid r m < s.rk pid r a

theorem seen_cons (h : Inv pid r l s) {ts : List St} {a : Addr} :
    Seen (s :: ts) a ↔ a ∈ l ∨ Seen ts a := by
  simp [Seen, onList_iff h]

/-- A step of a writer. -/
theorem Walk.writes {R n : Nat} {P : List (Option Int)} {ts : List St} {r' : Int → Nat}
    {l' : List Addr} (h : Walk pid R P ts n r l s) (hi : Inv pid r l s) (hi' : Inv pid r' l' s')
    (hw : Writes pid R r r' l l' s s') : Walk pid R P (s' :: ts) n r' l' s' := by
  have hvis : ∀ a ∈ s.visited, a ∈ s.linked := fun a ha => h.linked a (h.visited a ha).1
  refine ⟨fun a ha => (seen_cons hi').mpr (.inl ha), fun a ha => ?_, fun a ha b hb => ?_,
    fun a ha hlt => ?_, fun a ha => ?_, ?_, ?_, fun k hk => ?_⟩
  · rcases (seen_cons hi').mp ha with ha | ha
    · exact hi'.ranked.sub a ha
    · exact hw.linked a (h.linked a ha)
  · -- a changed `next` leads to the new list, or where a node of the old list led
    have hal : a ∈ s'.linked := by
      rcases (seen_cons hi').mp ha with ha | ha
      · exact hi'.ranked.sub a ha
      · exact hw.linked a (h.linked a ha)
    rcases hw.next a hal b hb with ⟨has, hab⟩ | hb | ⟨c, hc, hcb⟩
    · rcases (seen_cons hi').mp ha with ha' | ha'
      · obtain ⟨l1, l2, rfl⟩ := hi'.ranked.chain.split ha' hb
        exact (seen_cons hi').mpr (.inl (by simp))
      · exact (seen_cons hi').mpr (.inr (h.closed a ha' b hab))
    · exact (seen_cons hi').mpr (.inl hb)
    · exact (seen_cons hi').mpr (.inr (h.closed c (h.here c hc) b hcb))
  · have hold : Seen ts a → s'.pidOf pid a ∈ P := fun ha => by
      rw [hw.keepPid a (h.linked a ha)]
      rw [hw.rank a (h.linked a ha)] at hlt
      exact h.old a ha hlt
    rcases (seen_cons hi').mp ha with ha | ha
    · rcases hw.new a ha with ha | ⟨c, hc, hpc, hrc⟩ | hR
      · exact hold (h.here a ha)
      · rw [hpc]; exact h.old c (h.here c hc) (hrc ▸ hlt)
      · omega
    · exact hold ha
  · rw [hw.visited] at ha
    obtain ⟨hs, hlt⟩ := h.visited a ha
    exact ⟨(seen_cons hi').mpr (.inr hs), by rw [hw.rank a (hvis a ha)]; exact hlt⟩
  · rw [hw.visited]
    refine Pairwise.imp_of_mem (fun ha hb hlt => ?_) h.desc
    rw [hw.rank _ (hvis _ ha), hw.rank _ (hvis _ hb)]; exact hlt
  · have hc := h.cursor
    rw [hw.cursor, hw.visited]
    cases hcur : s.cursor with
    | before => rw [hcur] at hc; exact hc
    | on a =>
      rw [hcur] at hc
      refine ⟨hc.1, fun b hb => ?_, hc.2.2⟩
      rw [hw.rank a (hvis a hc.1), hw.rank b (hvis b hb)]
      exact hc.2.1 b hb
    | done => rw [hcur] at hc; exact hc
  · rw [hw.visited, hw.cursor]
    rcases h.cover k (fun t ht => hk t (by simp [ht])) with ⟨a, ha, hka⟩ | ⟨a, hca, m, hm, hkm, hlt⟩
    · exact .inl ⟨a, ha, by rw [hw.keepPid a (hvis a ha)]; exact hka⟩
    · -- the pid is still listed, in a version of the same rank
      obtain ⟨m', hm', hkm'⟩ := hk s' (by simp)
      have hm' := (onList_iff hi').mp hm'
      have hml := hi.ranked.sub m hm
      have ha : a ∈ s.linked := hvis a (by have := h.cursor; rw [hca] at this; exact this.1)
      have hrk : s'.rk pid r' m' = s'.rk pid r' m := by
        unfold St.rk; rw [hkm', hw.keepPid m hml, hkm]
      refine .inr ⟨a, hca, m', hm', hkm', ?_⟩
      rw [hrk, hw.rank m hml, hw.rank a ha]; exact hlt

/-- The reader's step to `p` leaves the list alone. -/
theorem Inv.arrive (h : Inv pid r l s) (p : Ptr) : Inv pid r l (s.arrive p) := by
  cases p with
  | none => exact h.keep rfl rfl (fun _ _ => rfl) h.pc
  | some a => exact h.keep rfl rfl (fun _ _ => rfl) h.pc

/-- The reader turns: `tmp = tmp->next`. -/
theorem Walk.next {R n : Nat} {P : List (Option Int)} {ts : List St} {a : Addr} {p : Ptr}
    (h : Walk pid R P ts n r l s) (hi : Inv pid r l s) (hc : s.cursor = .on a)
    (hp : (s.nodes a).next = some p) :
    Walk pid R P (s.arrive p :: ts) (n + 1) r l (s.arrive p) := by
  have hcur := h.cursor
  rw [hc] at hcur
  obtain ⟨hav, hmin, hn⟩ := hcur
  have hal := h.linked a (h.visited a hav).1
  have hseen : ∀ b, Seen (s.arrive p :: ts) b ↔ Seen ts b := fun b => by
    rw [seen_cons (hi.arrive p)]
    exact ⟨fun h' => h'.elim (h.here b) id, .inr⟩
  have hnx : s.nx a = p := nx_of_next hp
  cases p with
  | none =>
    refine ⟨fun b hb => (hseen b).mpr (h.here b hb), fun b hb => h.linked b ((hseen b).mp hb),
      fun b hb d hd => (hseen d).mpr (h.closed b ((hseen b).mp hb) d hd),
      fun b hb => h.old b ((hseen b).mp hb),
      fun b hb => ⟨(hseen b).mpr (h.visited b hb).1, (h.visited b hb).2⟩, h.desc, hn,
      fun k hk => .inl ?_⟩
    rcases h.cover k (fun t ht => hk t (by simp [ht])) with hv | ⟨a', ha', m, hm, -, hlt⟩
    · exact hv
    · -- the walk ends at `a`: nothing listed is below it
      rw [hc] at ha'; cases ha'
      obtain ⟨b, hb, -⟩ := hi.ranked.cover a hal m hm hlt
      rw [hnx] at hb; cases hb
  | some b =>
    obtain ⟨hbl, hba⟩ := hi.ranked.down a hal b hnx
    have hbs := h.closed a (h.visited a hav).1 b hnx
    have hbR : s.rk pid r b < R := lt_trans hba (h.visited a hav).2
    have hlow : ∀ d ∈ s.visited, s.rk pid r b < s.rk pid r d := fun d hd =>
      lt_of_lt_of_le hba (hmin d hd)
    refine ⟨fun d hd => (hseen d).mpr (h.here d hd), fun d hd => h.linked d ((hseen d).mp hd),
      fun d hd e he => (hseen e).mpr (h.closed d ((hseen d).mp hd) e he),
      fun d hd => h.old d ((hseen d).mp hd), fun d hd => ?_,
      pairwise_cons.mpr ⟨hlow, h.desc⟩, ⟨by simp [St.arrive], fun d hd => ?_, ?_⟩,
      fun k hk => ?_⟩
    · rcases mem_cons.mp hd with rfl | hd
      · exact ⟨(hseen d).mpr hbs, hbR⟩
      · exact ⟨(hseen d).mpr (h.visited d hd).1, (h.visited d hd).2⟩
    · rcases mem_cons.mp hd with rfl | hd
      · exact le_refl _
      · exact le_of_lt (hlow d hd)
    · simp only [St.arrive, length_cons]; omega
    · rcases h.cover k (fun t ht => hk t (by simp [ht])) with ⟨d, hd, hkd⟩ |
        ⟨a', ha', m, hm, hkm, hlt⟩
      · exact .inl ⟨d, by simp [St.arrive, hd], hkd⟩
      · rw [hc] at ha'; cases ha'
        obtain ⟨b', hb', hle⟩ := hi.ranked.cover a hal m hm hlt
        rw [hnx] at hb'; cases hb'
        rcases lt_or_eq_of_le hle with hlt' | heq
        · exact .inr ⟨b, rfl, m, hm, hkm, hlt'⟩
        · -- `b` has the rank of the listed node, so it is a version of the same pid
          have := hi.inj m (hi.ranked.sub m hm) b hbl heq
          exact .inl ⟨b, by simp [St.arrive], this ▸ hkm⟩

/-- The walk begins: `tmp = process_list`. -/
theorem Walk.start (hi : Inv pid r l s) (hv : s.visited = []) :
    ∃ R, Walk pid R (l.map (s.pidOf pid)) [s.arrive s.processList, s] 0 r l
      (s.arrive s.processList) := by
  obtain ⟨R, -, hR⟩ := exists_rank_above (s.rk pid r) 0 s.linked
  have hseen : ∀ b, Seen [s.arrive s.processList, s] b ↔ b ∈ l := fun b => by
    rw [seen_cons (hi.arrive _), seen_cons hi]
    simp [Seen]
  have hnl : ∀ a, Seen [s.arrive s.processList, s] a → a ∈ s.linked := fun a ha =>
    hi.ranked.sub a ((hseen a).mp ha)
  have hclosed : ∀ a, Seen [s.arrive s.processList, s] a → ∀ b, s.nx a = some b →
      Seen [s.arrive s.processList, s] b := by
    intro a ha b hb
    obtain ⟨l1, l2, rfl⟩ := hi.ranked.chain.split ((hseen a).mp ha) hb
    exact (hseen b).mpr (by simp)
  have hold : ∀ a, Seen [s.arrive s.processList, s] a → s.pidOf pid a ∈ l.map (s.pidOf pid) :=
    fun a ha => mem_map_of_mem ((hseen a).mp ha)
  refine ⟨R, ?_⟩
  cases hp : s.processList with
  | none =>
    rw [hp] at hseen hnl hclosed hold
    have hl : l = [] := by
      cases l with
      | nil => rfl
      | cons b l => obtain ⟨e, -⟩ := hi.ranked.chain; rw [hp] at e; cases e
    refine ⟨fun a ha => (hseen a).mpr ha, hnl, hclosed, fun a ha _ => hold a ha, ?_, ?_, ?_,
      fun k hk => ?_⟩
    · simp [St.arrive, hv]
    · simp [St.arrive, hv]
    · exact Nat.zero_le _
    · obtain ⟨m, hm, -⟩ := hk s (by simp)
      rw [onList_iff hi, hl] at hm
      simp at hm
  | some a =>
    rw [hp] at hseen hnl hclosed hold
    obtain ⟨l2, rfl⟩ := hi.ranked.chain.head_mem hp
    have ha : Seen [s.arrive (some a), s] a := (hseen a).mpr (by simp)
    refine ⟨fun a ha => (hseen a).mpr ha, hnl, hclosed, fun a ha _ => hold a ha, ?_, ?_, ?_,
      fun k hk => ?_⟩
    · intro b hb
      obtain rfl : b = a := by simpa [St.arrive, hv] using hb
      exact ⟨ha, hR b (hnl b ha)⟩
    · simp [St.arrive, hv]
    · simp [St.arrive, hv]
    · obtain ⟨m, hm, hkm⟩ := hk s (by simp)
      rw [onList_iff hi] at hm
      rcases mem_cons.mp hm with rfl | hm'
      · exact .inl ⟨m, by simp [St.arrive], hkm⟩
      · exact .inr ⟨a, rfl, m, hm, hkm, rel_of_pairwise_cons hi.ranked.desc hm'⟩

/-! ## Whole walks -/

/-- A step of the machine after the walk has begun. -/
theorem Walk.step {R n : Nat} {P : List (Option Int)} {ts : List St} {lb : Lbl}
    (h : Walk pid R P ts n r l s) (hi : Inv pid r l s) (hn : (rcu pid).next s lb = some s') :
    ∃ r' l', Inv pid r' l' s' ∧ Walk pid R P (s' :: ts) (n + [lb].count .next) r' l' s' := by
  have hwrites : (∃ r' l', Inv pid r' l' s' ∧ Writes pid R r r' l l' s s') → lb ≠ .next →
      ∃ r' l', Inv pid r' l' s' ∧ Walk pid R P (s' :: ts) (n + [lb].count .next) r' l' s' := by
    rintro ⟨r', l', hi', hw⟩ hne
    rw [count_singleton, if_neg (by simpa using hne)]
    exact ⟨r', l', hi', h.writes hi hi' hw⟩
  cases lb with
  | writer => exact hwrites (writer_step hi R hn) (by simp)
  | add x m => exact hwrites (call_step hi R (.add x m) hn) (by simp)
  | del x => exact hwrites (call_step hi R (.del x) hn) (by simp)
  | update x m q => exact hwrites (call_step hi R (.update x m q) hn) (by simp)
  | delFromProc q => exact hwrites (call_step hi R (.delFromProc q) hn) (by simp)
  | start =>
    have hc := h.cursor
    simp only [rcu, reader] at hn
    split at hn
    · rename_i hb; rw [hb] at hc; exact hc.elim
    · cases hn
  | next =>
    simp only [rcu, reader] at hn
    split at hn
    · rename_i a hc
      obtain ⟨p, hp, rfl⟩ := Option.map_eq_some_iff.mp hn
      exact ⟨r, l, hi.arrive p, h.next hi hc hp⟩
    · cases hn

theorem Walk.run {R : Nat} {P : List (Option Int)} :
    ∀ {ls : List Lbl} {s s' : St} {ts : List St} {n : Nat} {r : Int → Nat} {l : List Addr},
      Walk pid R P ts n r l s → Inv pid r l s → s ∈ ts → (rcu pid).run s ls = some s' →
      ∃ r' l' ts', Inv pid r' l' s' ∧ Walk pid R P ts' (n + ls.count .next) r' l' s' ∧
        ∀ t, t ∈ ts' ↔ t ∈ ts ∨ t ∈ (rcu pid).states s ls
  | [], s, s', ts, n, r, l, h, hi, hs, hr => by
    cases hr
    refine ⟨r, l, ts, hi, h, fun t => ?_⟩
    simp only [Machine.states, List.mem_singleton]
    exact ⟨.inl, fun h' => h'.elim id fun e => e ▸ hs⟩
  | lb :: ls, s, s', ts, n, r, l, h, hi, hs, hr => by
    obtain ⟨s1, hn, hr⟩ := Machine.run_cons.mp hr
    obtain ⟨r1, l1, hi1, h1⟩ := h.step hi hn
    obtain ⟨r', l', ts', hi', h', hts⟩ := Walk.run h1 hi1 (by simp) hr
    refine ⟨r', l', ts', hi', ?_, fun t => ?_⟩
    · rw [show n + (lb :: ls).count .next = n + [lb].count .next + ls.count .next by
        rw [← List.singleton_append, List.count_append]; omega]
      exact h'
    · have hmem : s1 ∈ (rcu pid).states s1 ls := by cases ls <;> simp [Machine.states]
      rw [hts]
      simp only [Machine.states, hn, mem_cons]
      constructor
      · rintro ((rfl | ht) | ht)
        · exact .inr (.inr hmem)
        · exact .inl ht
        · exact .inr (.inr ht)
      · rintro (ht | rfl | ht)
        · exact .inl (.inr ht)
        · exact .inl (.inr hs)
        · exact .inr ht

/-- Before the walk: the writers' invariant, and nothing visited. -/
theorem step_before {lb : Lbl} (h : (∃ r l, Inv pid r l s) ∧ (s.cursor = .before → s.visited = []))
    (hn : (rcu pid).next s lb = some s') :
    (∃ r l, Inv pid r l s') ∧ (s'.cursor = .before → s'.visited = []) := by
  obtain ⟨⟨r, l, hi⟩, hv⟩ := h
  have hwrites : (∃ r' l', Inv pid r' l' s' ∧ Writes pid 0 r r' l l' s s') →
      (∃ r l, Inv pid r l s') ∧ (s'.cursor = .before → s'.visited = []) := by
    rintro ⟨r', l', hi', hw⟩
    exact ⟨⟨r', l', hi'⟩, fun hb => by rw [hw.visited]; exact hv (hw.cursor ▸ hb)⟩
  have harrive : ∀ p, s' = s.arrive p →
      (∃ r l, Inv pid r l s') ∧ (s'.cursor = .before → s'.visited = []) := by
    rintro p rfl
    refine ⟨⟨r, l, hi.arrive p⟩, fun hb => ?_⟩
    cases p <;> simp [St.arrive] at hb
  cases lb with
  | writer => exact hwrites (writer_step hi 0 hn)
  | add x m => exact hwrites (call_step hi 0 (.add x m) hn)
  | del x => exact hwrites (call_step hi 0 (.del x) hn)
  | update x m q => exact hwrites (call_step hi 0 (.update x m q) hn)
  | delFromProc q => exact hwrites (call_step hi 0 (.delFromProc q) hn)
  | start =>
    simp only [rcu, reader] at hn
    split at hn <;> cases hn
    exact harrive _ rfl
  | next =>
    simp only [rcu, reader] at hn
    split at hn
    · obtain ⟨p, -, rfl⟩ := Option.map_eq_some_iff.mp hn
      exact harrive p rfl
    · cases hn

variable (pid) in
/-- What a walk over the list `l₁` guarantees in a state `s` of it; `ts` are the states from its
start to `s`, `n` is the number of its turns. -/
structure WalkOk (l₁ : List Addr) (ts : List St) (n : Nat) (s : St) : Prop where
  /-- The walk is finite, and it can go on at every node. -/
  finite : n ≤ l₁.length
  goes : ∀ a, s.cursor = .on a → ((rcu pid).next s .next).isSome
  /-- Visited nodes are initialised, and were on the list at a moment of the walk. -/
  init : ∀ a ∈ s.visited, (s.nodes a).process.isSome ∧ (s.nodes a).next.isSome
  version : ∀ a ∈ s.visited, ∃ t ∈ ts, t.OnList a
  /-- No pid is visited twice. -/
  once : (s.visited.map (s.pidOf pid)).Nodup
  /-- At the end, a pid that was on the list during the whole walk has been visited once. -/
  all : s.cursor = .done → ∀ k, (∀ t ∈ ts, t.Listed pid k) →
    ∃! a, a ∈ s.visited ∧ s.pidOf pid a = some k

theorem Walk.ok {R n : Nat} {ts : List St} {l1 : List Addr} {s1 : St} (hi : Inv pid r l s)
    (h : Walk pid R (l1.map (s1.pidOf pid)) ts n r l s) : WalkOk pid l1 ts n s := by
  have hlk : ∀ a ∈ s.visited, a ∈ s.linked := fun a ha => h.linked a (h.visited a ha).1
  have honce : (s.visited.map (s.pidOf pid)).Nodup := by
    refine pairwise_map.mpr (Pairwise.imp_of_mem (fun ha hb hlt e => ?_) h.desc)
    unfold St.rk at hlt
    rw [e] at hlt
    exact lt_irrefl _ hlt
  have hlen : s.visited.length ≤ l1.length := by
    have hsub : s.visited.map (s.pidOf pid) ⊆ l1.map (s1.pidOf pid) := by
      intro k hk
      obtain ⟨a, ha, rfl⟩ := mem_map.mp hk
      exact h.old a (h.visited a ha).1 (h.visited a ha).2
    simpa using (subperm_of_subset honce hsub).length_le
  refine ⟨?_, fun a ha => ?_, fun a ha => hi.init a (hlk a ha), fun a ha => (h.visited a ha).1,
    honce, fun hd k hk => ?_⟩
  · have hc := h.cursor
    cases hcur : s.cursor with
    | before => rw [hcur] at hc; exact hc.elim
    | on a => rw [hcur] at hc; omega
    | done => rw [hcur] at hc; exact le_trans hc hlen
  · have hc := h.cursor
    rw [ha] at hc
    simp only [rcu, reader, ha, Option.isSome_map]
    exact (hi.init a (hlk a hc.1)).2
  · rcases h.cover k hk with ⟨a, ha, hka⟩ | ⟨a, ha, -⟩
    · refine ⟨a, ⟨ha, hka⟩, fun b hb => ?_⟩
      exact inj_on_of_nodup_map honce hb.1 ha (hb.2.trans hka.symm)
    · rw [hd] at ha; cases ha

/-- **Reader consistency.** From a process list with distinct pids, let the writers run (`pre`), let
the reader start when the list is `l₁`, and let reads and stores interleave in any way (`ls`): the
walk is as `WalkOk` says. -/
theorem walk_ok {s₀ s₁ s : St} {pre ls : List Lbl} {l₁ : List Addr} (hw : WellFormed pid s₀)
    (h₁ : (rcu pid).run s₀ pre = some s₁) (hl : Chain s₁.nx s₁.processList l₁)
    (hr : (rcu pid).run s₁ (.start :: ls) = some s) :
    WalkOk pid l₁ ((rcu pid).states s₁ (.start :: ls)) (ls.count .next) s := by
  obtain ⟨r₀, hi₀⟩ := hw.inv
  obtain ⟨⟨r, l, hi⟩, hv⟩ := Machine.run_inv_all

    (step_before) ⟨⟨r₀, _, hi₀⟩, fun _ => hw.visited⟩ h₁
  obtain rfl := hl.unique hi.ranked.chain
  obtain ⟨s₂, hn, hr⟩ := Machine.run_cons.mp hr
  have hst := hn
  simp only [rcu, reader] at hst
  split at hst <;> cases hst
  rename_i hb
  obtain ⟨R, hwk⟩ := Walk.start hi (hv hb)
  obtain ⟨r', l', ts, hi', h', hts⟩ := hwk.run (hi.arrive _) (by simp) hr
  have hok := h'.ok hi'
  have hmem : s₁.arrive s₁.processList ∈ (rcu pid).states (s₁.arrive s₁.processList) ls := by
    cases ls <;> simp [Machine.states]
  have hts' : ∀ t, t ∈ (rcu pid).states s₁ (.start :: ls) ↔ t ∈ ts := by
    intro t
    rw [hts]
    simp only [Machine.states, hn, mem_cons,
      not_mem_nil, or_false]
    constructor
    · rintro (rfl | ht)
      · exact .inl (.inr rfl)
      · exact .inr ht
    · rintro ((rfl | rfl) | ht)
      · exact .inr hmem
      · exact .inl rfl
      · exact .inr ht
  exact ⟨by simpa using hok.finite, hok.goes, hok.init,
    fun a ha => (hok.version a ha).imp fun t ht => ⟨(hts' t).mpr ht.1, ht.2⟩, hok.once,
    fun hd k hk => hok.all hd k fun t ht => hk t ((hts' t).mpr ht)⟩

/-- Two processes: the node 1 with pid 11, the node 2 with pid 12 (a process's address is its
pid). -/
def twoProcs : St where
  nodes a := if a = 1 then ⟨some 11, some (some 2)⟩ else if a = 2 then ⟨some 12, some none⟩ else {}
  processList := some 1
  linked := [1, 2]

/-- The reader stands on the node 1 while `list_update_rcu` replaces the node 2 by the node 3; it
goes on to the node 2 before the last store, and to the end after it. -/
def updateRun : List Lbl :=
  [.update 3 ⟨some 12, none⟩ 12, .writer, .writer, .next, .writer, .next]

theorem walk_ok_updateRun : ∃ s, (rcu Int.ofNat).run twoProcs (.start :: updateRun) = some s ∧
    s.visited = [2, 1] ∧ s.cursor = .done ∧ s.processList = some 1 ∧ s.nx 1 = some 3 ∧
    WalkOk Int.ofNat [1, 2] ((rcu Int.ofNat).states twoProcs (.start :: updateRun)) 2 s := by
  have h : ((rcu Int.ofNat).run twoProcs (.start :: updateRun)).map (fun s =>
      (s.visited, s.cursor, s.processList, s.nx 1)) =
      some ([2, 1], .done, some 1, some 3) := by decide +kernel
  obtain ⟨s, hs, h⟩ := Option.map_eq_some_iff.mp h
  simp only [Prod.mk.injEq] at h
  have hc : Chain twoProcs.nx twoProcs.processList [1, 2] := ⟨rfl, rfl, rfl⟩
  have hw : WellFormed Int.ofNat twoProcs := ⟨hc, by decide, by decide, rfl, rfl, rfl⟩
  exact ⟨s, hs, h.1, h.2.1, h.2.2.1, h.2.2.2, walk_ok hw (Machine.run_nil twoProcs) hc hs⟩

end Xv6.Rcu
