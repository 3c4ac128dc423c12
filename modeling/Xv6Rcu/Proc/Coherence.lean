import Xv6Rcu.Proc.Current

/-!
# Coherence of the pointers to the current process

The code does not fetch `p` again after the calls that replace the current version: `exit` still
uses its `p` after `closeFile` has replaced and freed that version (`exit_stale`).

- **Liveness** (`live`): whether code still uses the `p` that it holds now, before it fetches again.
- **Discipline** (`Disciplined`): a version of a process is replaced only when no call of the
  process will use the pointer it holds; by others only when the process is not on a CPU.
- **Invariant** (`Inv`): what a call will use, and what a CPU has, is the listed version.
-/

namespace Xv6.Current

open Lib Function List
open Option (bind_eq_bind bind_eq_some_iff map_eq_some_iff some)

variable {n : Nat} {s s' : St n} {c : Fin n} {k : Int} {v : Addr}

/-! ## A stale pointer -/

/-- Two runnable processes. -/
def demo : St 1 where
  versions v := if v = 0 then ⟨1, .runnable⟩ else if v = 1 then ⟨2, .runnable⟩ else {}
  list := [1, 0]
  fresh := 2
  nextpid := 3

/-- The scheduler runs process 2, which calls `exit`, up to `iput(p->cwd)`. -/
def exitRun : List (Lbl 1) :=
  [.pick 1, .go, .go, .go, .call .exit, .go, .go, .go, .go, .right, .go, .go, .go, .go, .go,
    .right, .go].map (⟨0, ·⟩)

/-- `exit` is about to read `p->cwd` in the version 2, which `closeFile` has replaced by the version
3 and passed to `freeproc`. -/
theorem exit_stale : ∃ s, kernel.run demo exitRun = some s ∧ ¬ Coherent s := by
  have h : (kernel.run demo exitRun).map (fun s => ((s.cpu 0).run, s.list,
      (s.stack 2).head?.map (·.derefs (s.cpu 0).proc))) =
      some (some 2, [3, 0], some [some 2]) := by
    decide +kernel
  obtain ⟨s, hs, h⟩ := map_eq_some_iff.mp h
  simp only [Prod.mk.injEq] at h
  obtain ⟨hr, hl, hd⟩ := h
  obtain ⟨f, hf, hd⟩ := map_eq_some_iff.mp hd
  obtain ⟨fs, hs'⟩ := head?_eq_some_iff.mp hf
  refine ⟨s, hs, fun hc => ?_⟩
  obtain ⟨v, hv, hm, -⟩ := hc 0 2 f fs hr hs' (some 2) (by rw [hd]; exact mem_cons_self)
  cases hv
  rw [hl] at hm
  exact absurd hm (by decide)

/-! ## Liveness -/

mutual

/-- Whether the instruction may use the `p` that it starts with, or leave it for a later use (`k`).
-/
def Instr.live : Instr → Bool → Bool
  | .useP, _ | .copy _, _ | .commit _, _ | .replace, _ | .swtch, _ => true
  | .fetch, _ | .ret, _ => false
  | .call g, k => g.takesP || k
  | .alt a b, k => live a k || live b k
  | .loop body, k => k || live body k
  | .useCpu, k | .adopt, k | .wake, k | .add, k | .reap, k => k

/-- The same for code. -/
def live : List Instr → Bool → Bool
  | [], k => k
  | i :: is, k => i.live (live is k)

end

theorem live_append (a b : List Instr) (k : Bool) : live (a ++ b) k = live a (live b k) := by
  induction a with
  | nil => rfl
  | cons i a ih => rw [cons_append, live, live, ih]

/-- Only a function that takes `p` uses it before it fetches its own. -/
theorem Fn.live_code (g : Fn) : live g.code false = g.takesP := by
  cases g <;> decide

/-- Another round of a loop uses nothing that the loop does not. -/
theorem live_round {body rest : List Instr} (h : live (body ++ .loop body :: rest) false = true) :
    live (.loop body :: rest) false = true := by
  rw [live_append] at h
  by_contra hn
  have hl : live (.loop body :: rest) false = false := by simpa using hn
  have hb := hl
  rw [live, Instr.live, Bool.or_eq_false_iff] at hb
  rw [hl, ← hb.1, hb.2] at h
  cases h

/-- The call will use the pointer it holds. -/
def Frame.live (f : Frame) : Prop := Current.live f.todo false = true

instance (f : Frame) : Decidable f.live := inferInstanceAs (Decidable (_ = true))

/-! ## The discipline -/

/-- The version that a call has published and not yet installed. -/
def Mid.new : Mid → Ptr
  | .published new _ _ | .toInstall new => some new
  | _ => Option.none

/-- The versions that a call, or an interrupt handler, will free. -/
def Mid.olds : Mid → List Addr
  | .published _ old _ | .toReclaim old | .woke old | .wokeFree old => [old]
  | _ => []

/-- The version that the scheduler will switch to. -/
def Sched.target : Sched → Ptr
  | .published new _ | .installed new _ => some new
  | _ => none

def Sched.olds : Sched → List Addr
  | .published _ old | .installed _ old | .under old | .free old => old.toList
  | _ => []

/-- The CPU runs the process, or its scheduler has published its RUNNING version. -/
def Cpu.Busy (x : Cpu) (s : St n) (k : Int) : Prop :=
  x.run = some k ∨ ∃ v ∈ x.sched.target, s.pid v = k

instance (x : Cpu) (s : St n) (k : Int) : Decidable (x.Busy s k) :=
  inferInstanceAs (Decidable (_ ∨ _))

/-- The process is on no CPU and no call of it will use the pointer it holds. -/
structure Parked (s : St n) (k : Int) : Prop where
  busy : ∀ c, ¬ (s.cpu c).Busy s k
  dead : ∀ f ∈ s.stack k, ¬ f.live

instance (s : St n) (k : Int) : Decidable (Parked s k) :=
  decidable_of_iff ((∀ c, ¬ (s.cpu c).Busy s k) ∧ ∀ f ∈ s.stack k, ¬ f.live)
    ⟨fun h => ⟨h.1, h.2⟩, fun h => ⟨h.busy, h.dead⟩⟩

/-- The copy `w` renews the version that the process of `q` has. -/
def Renews (s : St n) (q : Addr) (w : Version) : Prop := w.pid = s.pid q ∧ Parked s (s.pid q)

instance (s : St n) (q : Addr) (w : Version) : Decidable (Renews s q w) :=
  inferInstanceAs (Decidable (_ ∧ _))

/-- The condition on the next instruction of a call. -/
def Instr.Disciplined (s : St n) (f : Frame) (fs : List Frame) (rest : List Instr) (ch : Choice) :
    Instr → Prop
  | .commit _ => ∀ p ∈ f.p, ∀ w ∈ f.new,
      w.pid = s.pid p ∧ Current.live rest false = false ∧ ∀ g ∈ fs, ¬ g.live
  | .replace => ∀ p ∈ f.p, ∀ w ∈ f.new, Renews s p w
  | .reap =>
    match ch with
    | .pick v => Parked s (s.pid v)
    | _ => True
  | _ => True

instance (s : St n) (f : Frame) (fs : List Frame) (rest : List Instr) (ch : Choice) :
    ∀ i : Instr, Decidable (i.Disciplined s f fs rest ch)
  | .commit _ => inferInstanceAs (Decidable (∀ p ∈ f.p, ∀ w ∈ f.new, _))
  | .replace => inferInstanceAs (Decidable (∀ p ∈ f.p, ∀ w ∈ f.new, _))
  | .reap =>
    match ch with
    | .pick v => inferInstanceAs (Decidable (Parked s (s.pid v)))
    | .go | .left | .right | .call _ | .interrupt | .wake _ | .wakeGo => isTrue trivial
  | .fetch | .useP | .useCpu | .copy _ | .adopt | .wake | .swtch | .add | .call _ | .alt _ _
  | .loop _ | .ret => isTrue trivial

/-- The condition on the next step of a process with the calls `fs`. -/
def procDisciplined (s : St n) : List Frame → Choice → Prop
  | [], _ => True
  -- not between `list_update_rcu` and `mycpu()->proc = new`
  | f :: _, .interrupt => f.mid.new = none
  | f :: fs, ch =>
    match f.mid, f.todo with
    | .waking cur copy, _ => Renews s cur copy
    | .none, i :: rest => i.Disciplined s f fs rest ch
    | _, _ => True

/-- The condition on the next step of a CPU without a process. -/
def idleDisciplined (s : St n) (x : Cpu) : Choice → Prop
  | .wakeGo =>
    match x.wake with
    | .waking cur copy => Renews s cur copy
    | _ => True
  | .go =>
    match x.sched with
    | .copied cur copy => Renews s cur copy ∧ s.pid cur ∈ s.list.map s.pid
    | _ => True
  | _ => True

/-- A version is replaced or removed only when no call of its process will use the pointer it holds,
and, by anyone but the process itself, only when the process is on no CPU. -/
def Disciplined (s : St n) (l : Lbl n) : Prop :=
  match (s.cpu l.cpu).run with
  | some k => procDisciplined s (s.stack k) l.choice
  | none => idleDisciplined s (s.cpu l.cpu) l.choice

instance (s : St n) : ∀ (fs : List Frame) (ch : Choice), Decidable (procDisciplined s fs ch)
  | [], _ => isTrue trivial
  | f :: fs, ch => by
    unfold procDisciplined
    split <;> try split
    all_goals infer_instance

instance (s : St n) (x : Cpu) (ch : Choice) : Decidable (idleDisciplined s x ch) := by
  unfold idleDisciplined
  split <;> try split
  all_goals infer_instance

instance (s : St n) (l : Lbl n) : Decidable (Disciplined s l) := by
  unfold Disciplined
  split <;> infer_instance

/-! ## The invariant -/

/-- `v` is a listed version of the process `k`. -/
def Listed (s : St n) (k : Int) (v : Addr) : Prop := v ∈ s.list ∧ s.pid v = k

/-- `v` has left the list for good. -/
def Gone (s : St n) (v : Addr) : Prop := v < s.fresh ∧ v ∉ s.list

/-- `q` points to a listed version of the process `k`. -/
def Points (s : St n) (k : Int) (q : Ptr) : Prop := ∃ v, q = some v ∧ Listed s k v

/-- No call of the process is between `list_update_rcu` and `mycpu()->proc = new`. -/
def Steady (fs : List Frame) : Prop := ∀ f ∈ fs, f.mid.new = none

structure Frame.Ok (s : St n) (k : Int) (f : Frame) : Prop where
  held : f.live → Points s k f.p
  gone : ∀ v ∈ f.mid.olds, Gone s v

structure Cpu.Ok (s : St n) (x : Cpu) : Prop where
  gone : ∀ v ∈ x.sched.olds, Gone s v
  wake : ∀ v ∈ x.wake.olds, Gone s v
  target : ∀ v ∈ x.sched.target, v ∈ s.list
  installed : ∀ v o, x.sched = .installed v o → x.proc = some v
  run : ∀ k, x.run = some k → k < s.nextpid ∧ x.sched.target = none

/-- The list. -/
structure ListOk (s : St n) : Prop where
  lt_fresh : ∀ v ∈ s.list, v < s.fresh
  pids : (s.list.map s.pid).Nodup
  born : ∀ v ∈ s.list, s.pid v < s.nextpid

/-- The invariant; for the process `X`, if any, without what its CPU points to. -/
structure InvBut (X : Option Int) (s : St n) : Prop where
  list : ListOk s
  unborn : ∀ k, s.nextpid ≤ k → s.stack k = []
  calls : ∀ k, ∀ f ∈ s.stack k, f.Ok s k
  under : ∀ k, Steady (s.stack k).tail
  closing : ∀ k, ∀ f ∈ s.stack k, ∀ v ∈ f.mid.new, Listed s k v ∧ ∃ c, (s.cpu c).run = some k
  cpus : ∀ c, (s.cpu c).Ok s
  proc : ∀ c k, X ≠ some k → (s.cpu c).run = some k → Steady (s.stack k) →
    Points s k (s.cpu c).proc
  one : ∀ c c' k, (s.cpu c).Busy s k → (s.cpu c').Busy s k → c = c'

abbrev Inv (s : St n) : Prop := InvBut none s

variable {X : Option Int} {w : Version}

/-- A process that is on no CPU is steady. -/
theorem InvBut.steady (hi : InvBut X s) (hk : ∀ c, ¬ (s.cpu c).Busy s k) : Steady (s.stack k) := by
  intro f hf
  cases hm : f.mid.new with
  | none => rfl
  | some v =>
    obtain ⟨-, c, hc⟩ := hi.closing k f hf v hm
    exact absurd (.inl hc) (hk c)

/-- **Coherence** from the invariant. -/
theorem InvBut.coherent (hi : Inv s) : Coherent s := by
  -- a pointer to a listed version points to the only one
  have only : ∀ {k q}, Points s k q → IsCurrent s k q := by
    rintro k q ⟨v, rfl, hv, rfl⟩
    exact ⟨v, rfl, hv, rfl, fun w hw he => inj_on_of_nodup_map hi.list.pids hw hv he⟩
  intro c k f fs hr hf q hq
  have hmem : f ∈ s.stack k := by rw [hf]; exact mem_cons_self
  have htail : Steady fs := by simpa [hf] using hi.under k
  have hproc : f.mid.new = none → Points s k (s.cpu c).proc := by
    intro hm
    refine hi.proc c k (by simp) hr ?_
    rw [hf]
    intro g hg
    rcases mem_cons.mp hg with rfl | hg
    · exact hm
    · exact htail g hg
  unfold Frame.derefs at hq
  split at hq
  · rename_i hm
    have hlive : f.live → IsCurrent s k f.p := fun h => only ((hi.calls k f hmem).held h)
    split at hq
    all_goals first
      | (rename_i ht
         obtain rfl := mem_singleton.mp hq
         exact hlive (by rw [Frame.live, ht]; rfl))
      | (obtain rfl := mem_singleton.mp hq
         exact only (hproc (by rw [hm]; rfl)))
      | cases hq
  · rename_i old hm
    split at hq
    · obtain rfl := mem_singleton.mp hq
      exact only (hproc (by rw [hm]; rfl))
    · cases hq
  · cases hq

/-! ## What keeps the invariant -/

/-- The list and the versions change, and of the processes outside `K` the listed versions stay. -/
structure Changes (K : Int → Prop) (s s' : St n) : Prop where
  stack : s'.stack = s.stack
  cpu : s'.cpu = s.cpu
  nextpid : s.nextpid ≤ s'.nextpid
  listed : ∀ {k v}, ¬ K k → Listed s k v → Listed s' k v
  gone : ∀ {v}, Gone s v → Gone s' v
  ok : ListOk s'

/-- A change for processes of which no call uses the pointer it holds, and that no scheduler is
switching to. Those that run lose what their CPU points to. -/
theorem InvBut.change {K : Int → Prop} (hi : Inv s) (hc : Changes K s s')
    (hdead : ∀ k, K k → (∀ f ∈ s.stack k, ¬ f.live) ∧ Steady (s.stack k) ∧
      ∀ c, ∀ v ∈ (s.cpu c).sched.target, s.pid v ≠ k)
    (hX : ∀ k c, K k → (s.cpu c).run = some k → X = some k) : InvBut X s' := by
  have hpoints : ∀ {k q}, ¬ K k → Points s k q → Points s' k q :=
    fun hk ⟨v, hq, hv⟩ => ⟨v, hq, hc.listed hk hv⟩
  -- the target of a scheduler stays listed, with its pid
  have htarget : ∀ c, ∀ v ∈ (s.cpu c).sched.target, Listed s' (s.pid v) v := fun c v hv =>
    hc.listed (fun hk => (hdead _ hk).2.2 c v hv rfl) ⟨(hi.cpus c).target v hv, rfl⟩
  have hbusy : ∀ {c k}, (s'.cpu c).Busy s' k → (s.cpu c).Busy s k := by
    intro c k hb
    rw [hc.cpu] at hb
    rcases hb with hr | ⟨v, hv, hk⟩
    · exact .inl hr
    · exact .inr ⟨v, hv, by rw [← hk, (htarget c v hv).2]⟩
  constructor
  · exact hc.ok
  · intro k hk
    rw [hc.stack]
    exact hi.unborn k (le_trans hc.nextpid hk)
  · intro k f hf
    rw [hc.stack] at hf
    refine ⟨fun hl => hpoints (fun hk => (hdead k hk).1 f hf hl) ((hi.calls k f hf).held hl),
      fun v hv => hc.gone ((hi.calls k f hf).gone v hv)⟩
  · intro k
    rw [hc.stack]
    exact hi.under k
  · intro k f hf v hv
    rw [hc.stack] at hf
    rw [hc.cpu]
    obtain ⟨hl, hr⟩ := hi.closing k f hf v hv
    refine ⟨hc.listed (fun hk => ?_) hl, hr⟩
    rw [(hdead k hk).2.1 f hf] at hv
    cases hv
  · intro c
    rw [hc.cpu]
    have hx := hi.cpus c
    exact ⟨fun v hv => hc.gone (hx.gone v hv), fun v hv => hc.gone (hx.wake v hv),
      fun v hv => (htarget c v hv).1, hx.installed,
      fun k hk => ⟨lt_of_lt_of_le (hx.run k hk).1 hc.nextpid, (hx.run k hk).2⟩⟩
  · intro c k hne hr hs
    rw [hc.cpu] at hr ⊢
    rw [hc.stack] at hs
    exact hpoints (fun hk => hne (hX k c hk hr)) (hi.proc c k (by simp) hr hs)
  · intro c c' k hb hb'
    exact hi.one c c' k (hbusy hb) (hbusy hb')

/-- The calls of the running process change. -/
theorem InvBut.setStack {fs : List Frame} (hi : InvBut X s) (hX : X = none ∨ X = some k)
    (hr : (s.cpu c).run = some k) (hf : ∀ f ∈ fs, f.Ok s k) (htail : Steady fs.tail)
    (hnew : ∀ f ∈ fs, ∀ v ∈ f.mid.new, Listed s k v) (hproc : Steady fs → Points s k (s.cpu c).proc)
    :
    Inv (s.setStack k fs) := by
  have hst : ∀ j, j ≠ k → (s.setStack k fs).stack j = s.stack j := fun j hj =>
    update_of_ne hj _ _
  have hsk : (s.setStack k fs).stack k = fs := update_self _ _ _
  constructor
  · exact ⟨hi.list.lt_fresh, hi.list.pids, hi.list.born⟩
  · intro j hj
    have hne : j ≠ k := by
      rintro rfl
      exact absurd ((hi.cpus c).run j hr).1 (not_lt.mpr hj)
    rw [hst j hne]
    exact hi.unborn j hj
  · intro j f hj
    by_cases he : j = k
    · subst he
      rw [hsk] at hj
      exact ⟨(hf f hj).held, (hf f hj).gone⟩
    · rw [hst j he] at hj
      exact ⟨(hi.calls j f hj).held, (hi.calls j f hj).gone⟩
  · intro j
    by_cases he : j = k
    · subst he
      rw [hsk]
      exact htail
    · rw [hst j he]
      exact hi.under j
  · intro j f hj v hv
    by_cases he : j = k
    · subst he
      rw [hsk] at hj
      exact ⟨hnew f hj v hv, c, hr⟩
    · rw [hst j he] at hj
      exact hi.closing j f hj v hv
  · intro c'
    exact ⟨(hi.cpus c').gone, (hi.cpus c').wake, (hi.cpus c').target, (hi.cpus c').installed,
      (hi.cpus c').run⟩
  · intro c' j _ hr' hs
    by_cases he : j = k
    · subst he
      rw [hsk] at hs
      obtain rfl := hi.one c' c j (.inl hr') (.inl hr)
      exact hproc hs
    · rw [hst j he] at hs
      refine hi.proc c' j ?_ hr' hs
      rcases hX with rfl | rfl
      · simp
      · simpa using Ne.symm he
  · exact hi.one

/-- One CPU changes. -/
theorem InvBut.setCpu {x : Cpu} (hi : Inv s) (hx : x.Ok s)
    (hbusy : ∀ k, x.Busy s k → (s.cpu c).Busy s k ∨ ∀ c', ¬ (s.cpu c').Busy s k)
    (hproc : ∀ k, x.run = some k → Steady (s.stack k) → Points s k x.proc)
    (hleave : ∀ k, (s.cpu c).run = some k → x.run = some k ∨ Steady (s.stack k)) :
    Inv (s.setCpu c x) := by
  have hcc : ∀ j, j ≠ c → (s.setCpu c x).cpu j = s.cpu j := fun j hj =>
    update_of_ne hj _ _
  have hck : (s.setCpu c x).cpu c = x := update_self _ _ _
  have hok : ∀ {y : Cpu}, y.Ok s → y.Ok (s.setCpu c x) := fun h =>
    ⟨h.gone, h.wake, h.target, h.installed, h.run⟩
  -- a second CPU that is busy with `k` was busy with it before
  have hother : ∀ j k, j ≠ c → x.Busy s k → ¬ (s.cpu j).Busy s k := by
    intro j k hj hb hb'
    rcases hbusy k hb with h | h
    · exact hj (hi.one j c k hb' h)
    · exact h j hb'
  constructor
  · exact ⟨hi.list.lt_fresh, hi.list.pids, hi.list.born⟩
  · exact hi.unborn
  · exact fun k f hf => ⟨(hi.calls k f hf).held, (hi.calls k f hf).gone⟩
  · exact hi.under
  · intro k f hf v hv
    obtain ⟨hl, j, hj⟩ := hi.closing k f hf v hv
    refine ⟨hl, j, ?_⟩
    by_cases he : j = c
    · subst he
      rw [hck]
      refine (hleave k hj).resolve_right fun hs => ?_
      rw [hs f hf] at hv
      cases hv
    · rw [hcc j he]
      exact hj
  · intro j
    by_cases he : j = c
    · subst he
      rw [hck]
      exact hok hx
    · rw [hcc j he]
      exact hok (hi.cpus j)
  · intro j k hne hr hs
    by_cases he : j = c
    · subst he
      rw [hck] at hr ⊢
      exact hproc k hr hs
    · rw [hcc j he] at hr ⊢
      exact hi.proc j k hne hr hs
  · intro j j' k hb hb'
    by_cases he : j = c
    · by_cases he' : j' = c
      · rw [he, he']
      · subst he
        rw [hck] at hb
        rw [hcc j' he'] at hb'
        exact absurd hb' (hother j' k he' hb)
    · rw [hcc j he] at hb
      by_cases he' : j' = c
      · subst he'
        rw [hck] at hb'
        exact absurd hb (hother j k he hb')
      · rw [hcc j' he'] at hb'
        exact hi.one j j' k hb hb'

/-! ## Changes of the list -/

section
variable (hi : Inv s)
include hi

/-- `freeproc` of a version that has left the list. -/
theorem Changes.clear (hv : Gone s v) : Changes (fun _ => False) s (s.clear v) := by
  have hpid : ∀ w ∈ s.list, (s.clear v).pid w = s.pid w := by
    intro w hw
    have hne : w ≠ v := by rintro rfl; exact hv.2 hw
    simp [St.pid, St.clear, update_of_ne hne]
  refine ⟨rfl, rfl, le_rfl, fun _ hl => ⟨hl.1, by rw [hpid _ hl.1]; exact hl.2⟩, id,
    hi.list.lt_fresh, ?_, fun w hw => ?_⟩
  · rw [show (s.clear v).list = s.list from rfl, map_congr_left hpid]
    exact hi.list.pids
  · rw [hpid w hw]
    exact hi.list.born w hw

theorem InvBut.clear (hv : Gone s v) : Inv (s.clear v) :=
  hi.change (Changes.clear hi hv) (fun _ => False.elim) (fun _ _ => False.elim)

/-- A new version does not touch the listed ones. -/
theorem pid_alloc (hv : v ∈ s.list) : (s.alloc w).pid v = s.pid v := by
  have hne : v ≠ s.fresh := ne_of_lt (hi.list.lt_fresh v hv)
  simp [St.pid, St.alloc, update_of_ne hne]

omit hi in
@[simp] theorem pid_alloc_fresh (w : Version) : (s.alloc w).pid s.fresh = w.pid := by
  simp [St.pid, St.alloc]

/-- `list_update_rcu` for the process of `q`, by a version with the same pid. -/
theorem Changes.publish {q old : Addr} (hw : w.pid = s.pid q) (hp : s.publish q w = some (old, s'))
    :
    Changes (· = s.pid q) s s' ∧ Listed s' (s.pid q) s.fresh ∧ Gone s' old := by
  simp only [St.publish, bind_eq_bind, bind_eq_some_iff] at hp
  obtain ⟨old, hf, rfl, rfl⟩ := hp
  obtain ⟨hq, l1, l2, hl, -, hset⟩ := split_of_find? hf
  have hlist := hset s.fresh
  have hnew : s.fresh ∉ s.list := fun h => lt_irrefl _ (hi.list.lt_fresh _ h)
  have hmem : ∀ v ∈ s.list, (s.alloc w).pid v = s.pid v := fun v hv => pid_alloc hi hv
  -- the keys are those of before
  have hkeys : (l1 ++ s.fresh :: l2).map (s.alloc w).pid = s.list.map s.pid := by
    rw [hl, map_append, map_append, map_cons, map_cons, pid_alloc_fresh, hw, hq]
    rw [hl] at hmem
    rw [map_congr_left fun v hv => hmem v (mem_append_left _ hv),
      map_congr_left fun v hv => hmem v (mem_append_right _ (mem_cons_of_mem _ hv))]
  have hnodup := hi.list.pids
  have hin : ∀ v, v ∈ l1 ++ s.fresh :: l2 → v = s.fresh ∨ v ∈ s.list := by
    intro v hv
    rw [hl]
    simp only [mem_append, mem_cons] at hv ⊢
    tauto
  have hold : old ∈ s.list := by rw [hl]; simp
  have hout : old ∉ l1 ++ s.fresh :: l2 := by
    have hn : (l1 ++ old :: l2).Nodup := by rw [← hl]; exact hnodup.of_map
    have hne : old ≠ s.fresh := by rintro rfl; exact hnew hold
    rw [nodup_append] at hn
    obtain ⟨-, h2, hd⟩ := hn
    intro hm
    simp only [mem_append, mem_cons] at hm
    rcases hm with h | h | h
    · exact hd old h old mem_cons_self rfl
    · exact hne h
    · exact (nodup_cons.mp h2).1 h
  simp only [hlist]
  refine ⟨⟨rfl, rfl, le_rfl, ?_, ?_, ?_, ?_, ?_⟩, ⟨?_, ?_⟩, ?_, hout⟩
  · rintro k v hk ⟨hv, rfl⟩
    refine ⟨?_, hmem v hv⟩
    rw [hl] at hv
    simp only [mem_append, mem_cons] at hv ⊢
    rcases hv with h | rfl | h
    · exact .inl h
    · exact absurd hq hk
    · exact .inr (.inr h)
  · rintro v ⟨hv, hv'⟩
    refine ⟨Nat.lt_succ_of_lt hv, fun h => ?_⟩
    rcases hin v h with rfl | h
    · exact lt_irrefl _ hv
    · exact hv' h
  · intro v hv
    rcases hin v hv with rfl | h
    · exact Nat.lt_succ_self _
    · exact Nat.lt_succ_of_lt (hi.list.lt_fresh v h)
  · show ((l1 ++ s.fresh :: l2).map (s.alloc w).pid).Nodup
    rw [hkeys]
    exact hnodup
  · intro v hv
    have hk : (s.alloc w).pid v ∈ s.list.map s.pid := by
      rw [← hkeys]
      exact mem_map_of_mem hv
    obtain ⟨u, hu, he⟩ := mem_map.mp hk
    show (s.alloc w).pid v < s.nextpid
    rw [← he]
    exact hi.list.born u hu
  · simp
  · exact (pid_alloc_fresh w).trans hw
  · exact Nat.lt_succ_of_lt (hi.list.lt_fresh old hold)

/-- A version of another process is renewed. -/
theorem InvBut.renew {q old : Addr} (hw : Renews s q w) (hp : s.publish q w = some (old, s')) :
    Inv s' ∧ Changes (· = s.pid q) s s' ∧ Listed s' (s.pid q) s.fresh ∧ Gone s' old := by
  obtain ⟨hw, hpark⟩ := hw
  obtain ⟨hc, hn, ho⟩ := Changes.publish hi hw hp
  refine ⟨hi.change hc ?_ ?_, hc, hn, ho⟩
  · rintro k rfl
    exact ⟨hpark.dead, hi.steady hpark.busy,
      fun c v hv he => hpark.busy c (.inr ⟨v, hv, he⟩)⟩
  · rintro k c rfl hr
    exact absurd (.inl hr) (hpark.busy c)

/-- `fork` adds a process. -/
theorem InvBut.add : Inv s.add := by
  have hpid : ∀ v ∈ s.list, s.add.pid v = s.pid v := fun v hv => pid_alloc hi hv
  have hfresh : s.add.pid s.fresh = s.nextpid := pid_alloc_fresh _
  have hnext : s.nextpid < s.nextpid + 1 := by omega
  have hc : Changes (fun _ => False) s s.add := by
    refine ⟨rfl, rfl, hnext.le, ?_, ?_, ?_, ?_, ?_⟩
    · exact fun _ hl => ⟨mem_cons_of_mem _ hl.1, (hpid _ hl.1).trans hl.2⟩
    · rintro v ⟨hv, hv'⟩
      refine ⟨Nat.lt_succ_of_lt hv, fun h => ?_⟩
      rcases mem_cons.mp h with rfl | h
      · exact lt_irrefl _ hv
      · exact hv' h
    · intro v hv
      rcases mem_cons.mp hv with rfl | h
      · exact Nat.lt_succ_self _
      · exact Nat.lt_succ_of_lt (hi.list.lt_fresh v h)
    · show ((s.fresh :: s.list).map s.add.pid).Nodup
      rw [map_cons, hfresh, map_congr_left hpid, nodup_cons]
      refine ⟨fun h => ?_, hi.list.pids⟩
      obtain ⟨u, hu, he⟩ := mem_map.mp h
      exact absurd (hi.list.born u hu) (by rw [he]; exact lt_irrefl _)
    · intro v hv
      rcases mem_cons.mp hv with rfl | h
      · rw [hfresh]
        exact hnext
      · rw [hpid v h]
        exact lt_trans (hi.list.born v h) hnext
  exact hi.change hc (fun _ => False.elim) (fun _ _ => False.elim)

/-- `list_del_rcu` of a parked process. -/
theorem InvBut.erase (hv : v ∈ s.list) (hp : Parked s (s.pid v)) :
    Inv { s with list := s.list.erase v } ∧ Gone { s with list := s.list.erase v } v := by
  have hsub : ∀ w, w ∈ s.list.erase v → w ∈ s.list := fun w => mem_of_mem_erase
  have hout : v ∉ s.list.erase v := hi.list.pids.of_map.not_mem_erase
  have hc : Changes (· = s.pid v) s { s with list := s.list.erase v } := by
    refine ⟨rfl, rfl, le_rfl, ?_, fun h => ⟨h.1, fun hm => h.2 (hsub _ hm)⟩, ?_, ?_, ?_⟩
    · rintro k w hk ⟨hw, rfl⟩
      have hne : w ≠ v := by rintro rfl; exact hk rfl
      exact ⟨(mem_erase_of_ne hne).mpr hw, rfl⟩
    · exact fun w hw => hi.list.lt_fresh w (hsub w hw)
    · exact hi.list.pids.sublist (erase_sublist.map _)
    · exact fun w hw => hi.list.born w (hsub w hw)
  refine ⟨hi.change hc ?_ ?_, hi.list.lt_fresh v hv, hout⟩
  · rintro k rfl
    exact ⟨hp.dead, hi.steady hp.busy, fun c v hv he => hp.busy c (.inr ⟨v, hv, he⟩)⟩
  · rintro k c rfl hr
    exact absurd (.inl hr) (hp.busy c)

end

/-! ## The steps of a process -/

section Process
variable {f f' : Frame} {fs : List Frame} {rest : List Instr} {ch : Choice}

theorem InvBut.mem_top (hs : s.stack k = f :: fs) : f ∈ s.stack k := by
  rw [hs]
  exact mem_cons_self

theorem InvBut.below_ok (hi : Inv s) (hs : s.stack k = f :: fs) : ∀ g ∈ fs, g.Ok s k :=
  fun g hg => hi.calls k g (by rw [hs]; exact mem_cons_of_mem _ hg)

theorem InvBut.below_steady (hi : Inv s) (hs : s.stack k = f :: fs) : Steady fs := by
  simpa [hs] using hi.under k

theorem Steady.cons (hf : f.mid.new = none) (hfs : Steady fs) : Steady (f :: fs) := by
  intro g hg
  rcases mem_cons.mp hg with rfl | hg
  · exact hf
  · exact hfs g hg

section
variable (hi : Inv s) (hr : (s.cpu c).run = some k) (hs : s.stack k = f :: fs)
include hi hr hs

/-- The CPU of a steady process points to its version. -/
theorem InvBut.proc_top (hm : f.mid.new = none) : Points s k (s.cpu c).proc := by
  refine hi.proc c k (by simp) hr ?_
  rw [hs]
  exact Steady.cons hm (hi.below_steady hs)

/-- The innermost call goes from one steady place to another. -/
theorem InvBut.top (hm : f.mid.new = none) (hf' : f'.Ok s k) (hm' : f'.mid.new = none) :
    Inv (s.setStack k (f' :: fs)) := by
  have hst : Steady (f' :: fs) := Steady.cons hm' (hi.below_steady hs)
  refine hi.setStack (.inl rfl) hr ?_ (hi.below_steady hs) ?_ fun _ => hi.proc_top hr hs hm
  · intro g hg
    rcases mem_cons.mp hg with rfl | hg
    · exact hf'
    · exact hi.below_ok hs g hg
  · intro g hg v hv
    rw [hst g hg] at hv
    cases hv

/-- The innermost call goes on, with the pointer it holds. -/
theorem InvBut.goto (hm : f.mid = .none) {w : Option Version} (hl : live rest false = true → f.live)
    :
    Inv (s.setStack k ({ f with todo := rest, new := w } :: fs)) := by
  have hf := hi.calls k f (mem_top hs)
  exact hi.top hr hs (by rw [hm]; rfl) ⟨fun h => hf.held (hl h), hf.gone⟩ (by simp [hm, Mid.new])

/-- The innermost call returns. -/
theorem InvBut.pop (hm : f.mid = .none) : Inv (s.setStack k fs) := by
  have hst := hi.below_steady hs
  refine hi.setStack (.inl rfl) hr (hi.below_ok hs) (fun g hg => hst g (mem_of_mem_tail hg)) ?_
    fun _ => hi.proc_top hr hs (by rw [hm]; rfl)
  intro g hg v hv
  rw [hst g hg] at hv
  cases hv

omit hi hr hs in
/-- A call, or an interrupt. -/
theorem InvBut.push (hi : Inv s) (hr : (s.cpu c).run = some k) (hf : ∀ g ∈ fs, g.Ok s k)
    (hst : Steady fs) (hp : Points s k (s.cpu c).proc) {q : Ptr} {g : Fn}
    (hq : g.takesP = true → Points s k q) :
    Inv (s.setStack k ({ todo := g.code, p := q } :: fs)) := by
  have hst' : Steady ({ todo := g.code, p := q } :: fs) := Steady.cons rfl hst
  refine hi.setStack (.inl rfl) hr ?_ hst ?_ fun _ => hp
  · intro h hh
    rcases mem_cons.mp hh with rfl | hh
    · exact ⟨fun hl => hq ((Fn.live_code g).symm.trans hl), nofun⟩
    · exact hf h hh
  · intro h hh v hv
    rw [hst' h hh] at hv
    cases hv

/-- A call publishes a new version of its own process. -/
theorem InvBut.commit {p old : Addr} {w : Version} {m : Mode} (hm : f.mid = .none)
    (hpk : s.pid p = k) (hw : w.pid = s.pid p) (hrest : live rest false = false)
    (hfs : ∀ g ∈ fs, ¬ g.live) (hn : s.publish p w = some (old, s')) :
    Inv (s'.setStack k
      ({ f with todo := rest, new := none, mid := .published s.fresh old m } :: fs)) := by
  obtain ⟨hc, hnew, hold⟩ := Changes.publish hi hw hn
  rw [hpk] at hnew
  have hst := hi.below_steady hs
  -- no scheduler switches to a process that runs
  have htarget : ∀ c', ∀ v ∈ (s.cpu c').sched.target, s.pid v ≠ k := by
    intro c' v hv he
    obtain rfl := hi.one c' c k (.inr ⟨v, hv, he⟩) (.inl hr)
    rw [((hi.cpus c').run k hr).2] at hv
    cases hv
  -- first drop the use of `p` by the call, then change the list
  have hi0 : Inv (s.setStack k ({ f with todo := rest, new := none } :: fs)) :=
    hi.goto hr hs hm fun h => by rw [hrest] at h; cases h
  have hc0 : Changes (· = k) (s.setStack k ({ f with todo := rest, new := none } :: fs))
      (s'.setStack k ({ f with todo := rest, new := none } :: fs)) := by
    rw [← hpk]
    exact ⟨by simp [St.setStack, hc.stack], hc.cpu, hc.nextpid, hc.listed, hc.gone,
      hc.ok.lt_fresh, hc.ok.pids, hc.ok.born⟩
  have hsk : (s.setStack k ({ f with todo := rest, new := none } :: fs)).stack k =
      { f with todo := rest, new := none } :: fs := update_self _ _ _
  have hi1 : InvBut (some k) (s'.setStack k ({ f with todo := rest, new := none } :: fs)) := by
    refine hi0.change hc0 ?_ fun j _ hj _ => by rw [hj]
    rintro j rfl
    rw [hsk]
    refine ⟨?_, Steady.cons (by simp [hm, Mid.new]) hst, htarget⟩
    intro g hg
    rcases mem_cons.mp hg with rfl | hg
    · simp [Frame.live, hrest]
    · exact hfs g hg
  have hr' : (s'.cpu c).run = some k := by rw [hc.cpu]; exact hr
  suffices h : Inv ((s'.setStack k ({ f with todo := rest, new := none } :: fs)).setStack k
      ({ f with todo := rest, new := none, mid := .published s.fresh old m } :: fs)) by
    simpa [St.setStack] using h
  refine hi1.setStack (.inr rfl) hr' ?_ hst ?_ ?_
  · intro g hg
    rcases mem_cons.mp hg with rfl | hg
    · refine ⟨fun hl => ?_, ?_⟩
      · simp [Frame.live, hrest] at hl
      · intro v hv
        obtain rfl := mem_singleton.mp hv
        exact hold
    · exact ⟨fun hl => absurd hl (hfs g hg), fun v hv => hc.gone ((hi.below_ok hs g hg).gone v hv)⟩
  · intro g hg v hv
    rcases mem_cons.mp hg with rfl | hg
    · cases hv
      exact hnew
    · rw [hst g hg] at hv
      cases hv
  · intro h
    exact absurd (h _ mem_cons_self) (by simp [Mid.new])

omit hi hr hs in
/-- A step that keeps the `p` for later: what is still used was used before. -/
theorem live_of_rest {i : Instr} (ht : f.todo = i :: rest) (hi : i.live true = true)
    (h : live rest false = true) : f.live := by
  rw [Frame.live, ht, live, h]
  exact hi

/-- **One instruction** keeps the invariant. -/
theorem InvBut.instr {i : Instr} (hm : f.mid = .none) (ht : f.todo = i :: rest)
    (hd : i.Disciplined s f fs rest ch) (hn : i.step s c k f fs rest ch = some s') : Inv s' := by
  have hf := hi.calls k f (mem_top hs)
  have hm0 : f.mid.new = none := by rw [hm]; rfl
  have hproc := hi.proc_top hr hs hm0
  have next : ∀ w, i.live true = true →
      Inv (s.setStack k ({ f with todo := rest, new := w } :: fs)) :=
    fun w h => hi.goto hr hs hm (live_of_rest ht h)
  unfold Instr.step at hn
  split at hn
  case h_1 => -- fetch
    cases hn
    exact hi.top hr hs hm0 ⟨fun _ => hproc, hf.gone⟩ hm0
  case h_2 => -- useP
    obtain ⟨-, -, hn⟩ := bind_eq_some_iff.mp hn
    cases hn
    exact next _ rfl
  case h_3 => -- useCpu
    obtain ⟨-, -, hn⟩ := bind_eq_some_iff.mp hn
    cases hn
    exact next _ rfl
  case h_4 => -- copy
    obtain ⟨p, -, ⟨⟩⟩ := bind_eq_some_iff.mp hn
    exact next _ rfl
  case h_5 => -- adopt
    split at hn
    · cases hn
      exact next _ rfl
    · cases hn
  case h_6 m => -- commit
    obtain ⟨p, hp, hn⟩ := bind_eq_some_iff.mp hn
    obtain ⟨w, hw, hn⟩ := bind_eq_some_iff.mp hn
    obtain ⟨hwp, hrest, hfs⟩ := hd p hp w hw
    obtain ⟨p', hp', -, hpk⟩ := hf.held (by rw [Frame.live, ht]; rfl)
    obtain rfl : p = p' := some.inj (hp.symm.trans hp')
    split at hn
    · rename_i old s1 hpub
      cases hn
      exact hi.commit hr hs hm hpk hwp hrest hfs hpub
    · split at hn
      · cases hn
        exact next _ rfl
      · cases hn
  case h_7 => -- replace
    obtain ⟨p, hp, hn⟩ := bind_eq_some_iff.mp hn
    obtain ⟨w, hw, hn⟩ := bind_eq_some_iff.mp hn
    obtain ⟨⟨old, s1⟩, hpub, hn⟩ := bind_eq_some_iff.mp hn
    cases hn
    obtain ⟨p', hp', -, hpk⟩ := hf.held (by rw [Frame.live, ht]; rfl)
    obtain rfl : p = p' := some.inj (hp.symm.trans hp')
    -- the process of `p` runs
    exact absurd (.inl (hpk ▸ hr)) ((hd p hp w hw).2.busy c)
  case h_8 v => -- wake, a copy
    obtain ⟨mid, hw, hn⟩ := bind_eq_some_iff.mp hn
    cases hn
    unfold wakeCopy at hw
    split at hw
    · cases hw
      exact hi.top hr hs hm0 ⟨hf.held, nofun⟩ rfl
    · cases hw
  case h_9 => -- wake, the end
    cases hn
    exact next _ rfl
  case h_10 => -- swtch
    obtain ⟨-, -, hn⟩ := bind_eq_some_iff.mp hn
    split at hn
    · rename_i old hsch
      cases hn
      have hi1 := next f.new rfl
      have hx := hi1.cpus c
      refine hi1.setCpu ⟨fun v hv => hx.gone v ?_, hx.wake, ?_, ?_, ?_⟩ ?_ ?_ ?_
      · rw [show ((s.setStack k _).cpu c).sched = .under old from hsch]
        exact hv
      · nofun
      · nofun
      · nofun
      · rintro j (hj | ⟨v, hv, -⟩)
        · cases hj
        · cases hv
      · nofun
      · intro j hj
        obtain rfl : k = j := some.inj (hr.symm.trans hj)
        refine .inr ?_
        rw [show (s.setStack k _).stack k = _ from update_self _ _ _]
        exact Steady.cons hm0 (hi.below_steady hs)
    · cases hn
  case h_11 => -- add
    cases hn
    exact hi.add.goto hr hs hm (live_of_rest ht rfl)
  case h_12 v => -- reap
    split at hn
    · rename_i hv
      cases hn
      obtain ⟨hi1, hg⟩ := hi.erase hv.1 hd
      have hf1 := hi1.calls k f (mem_top hs)
      refine hi1.top hr hs hm0 ⟨fun h => hf1.held (live_of_rest ht rfl h), fun u hu => ?_⟩ rfl
      obtain rfl := mem_singleton.mp hu
      exact hg
    · cases hn
  case h_13 g => -- call
    cases hn
    have hlive : g.takesP = true → f.live := by
      intro hg
      rw [Frame.live, ht, live, Instr.live, hg]
      rfl
    refine hi.push hr ?_ (Steady.cons (f := { f with todo := rest }) hm0 (hi.below_steady hs))
        hproc ?_
    · intro h hh
      rcases mem_cons.mp hh with rfl | hh
      · refine ⟨fun hl => hf.held (live_of_rest ht ?_ hl), hf.gone⟩
        simp [Instr.live]
      · exact hi.below_ok hs h hh
    · intro hg
      rw [if_pos hg]
      exact hf.held (hlive hg)
  case h_14 a b => -- alt, left
    cases hn
    refine hi.goto hr hs hm fun h => ?_
    rw [live_append] at h
    rw [Frame.live, ht, live, Instr.live, h]
    rfl
  case h_15 a b => -- alt, right
    cases hn
    refine hi.goto hr hs hm fun h => ?_
    rw [live_append] at h
    rw [Frame.live, ht, live, Instr.live, h]
    exact Bool.or_true _
  case h_16 body => -- loop, another round
    cases hn
    refine hi.goto hr hs hm fun h => ?_
    rw [Frame.live, ht]
    exact live_round h
  case h_17 body => -- loop, the end
    cases hn
    exact next _ (by simp [Instr.live])
  case h_18 => -- ret
    cases hn
    exact hi.pop hr hs hm
  case h_19 => cases hn

/-- The innermost call frees a version and goes to a steady place. -/
theorem InvBut.reclaim (hm : f.mid.new = none) (hv : Gone s v) :
    Inv ((s.clear v).setStack k ({ f with mid := .none } :: fs)) := by
  have hi1 := hi.clear hv
  have hf := hi1.calls k f (mem_top hs)
  exact hi1.top hr hs hm ⟨hf.held, nofun⟩ rfl

/-- The innermost call installs the version that it has published. -/
theorem InvBut.install {mid : Mid} (hm : f.mid.new = some v) (hmid : mid.new = none)
    (hg : ∀ v ∈ mid.olds, v ∈ f.mid.olds) :
    Inv ((s.setCpu c { s.cpu c with proc := some v }).setStack k
        ({ f with mid := mid } :: fs)) := by
  obtain ⟨hl, -⟩ := hi.closing k f (mem_top hs) v hm
  have hx := hi.cpus c
  have hi1 : Inv (s.setCpu c { s.cpu c with proc := some v }) := by
    refine hi.setCpu ⟨hx.gone, hx.wake, hx.target, fun u o h => ?_, hx.run⟩ (fun j h => .inl h) ?_
      (fun j h => .inl h)
    · have ht : (s.cpu c).sched.target = none := (hx.run k hr).2
      rw [show (s.cpu c).sched = _ from h] at ht
      cases ht
    · intro j hj _
      obtain rfl : k = j := some.inj (hr.symm.trans hj)
      exact ⟨v, rfl, hl⟩
  have hc : (s.setCpu c { s.cpu c with proc := some v }).cpu c = { s.cpu c with proc := some v } :=
    update_self _ _ _
  have hf := hi1.calls k f (mem_top hs)
  have hst := hi1.below_steady hs
  refine hi1.setStack (.inl rfl) (by rw [hc]; exact hr) ?_ hst ?_ fun _ => by
      rw [hc]
      exact ⟨v, rfl, hl⟩
  · intro g hg'
    rcases mem_cons.mp hg' with rfl | hg'
    · exact ⟨hf.held, fun u hu => hf.gone u (hg u hu)⟩
    · exact hi1.below_ok hs g hg'
  · intro g hg' u hu
    rw [Steady.cons hmid hst g hg'] at hu
    cases hu

end

theorem procStep_cons (hch : ch ≠ .interrupt) :
    procStep s c k (f :: fs) ch = frameStep s c k f fs ch := by
  cases ch <;> first | rfl | exact absurd rfl hch

theorem procDisciplined_cons (hch : ch ≠ .interrupt) (hm : f.mid = .none) {i : Instr}
    (ht : f.todo = i :: rest) (hd : procDisciplined s (f :: fs) ch) :
    i.Disciplined s f fs rest ch := by
  unfold procDisciplined at hd
  cases ch <;> simp only [hm, ht] at hd <;> first | exact hd | exact absurd rfl hch

theorem procDisciplined_waking (hch : ch ≠ .interrupt) {cur : Addr} {w : Version}
    (hm : f.mid = .waking cur w) (hd : procDisciplined s (f :: fs) ch) : Renews s cur w := by
  unfold procDisciplined at hd
  cases ch <;> simp only [hm] at hd <;> first | exact hd | exact absurd rfl hch

/-- **One step of a call** keeps the invariant. -/
theorem InvBut.frame (hi : Inv s) (hr : (s.cpu c).run = some k) (hs : s.stack k = f :: fs)
    (hch : ch ≠ .interrupt) (hd : procDisciplined s (f :: fs) ch)
    (hn : frameStep s c k f fs ch = some s') : Inv s' := by
  have hf := hi.calls k f (mem_top hs)
  have hgone : ∀ v, v ∈ f.mid.olds → Gone s v := hf.gone
  unfold frameStep at hn
  split at hn
  case h_1 hm => -- an instruction
    split at hn
    · rename_i i rest ht
      exact hi.instr hr hs hm ht (procDisciplined_cons hch hm ht hd) hn
    · split at hn
      · cases hn
        exact hi.pop hr hs hm
      · cases hn
  case h_2 new old m hm =>
    have hv : f.mid.new = some new := by rw [hm]; rfl
    split at hn
    · -- the old version is freed first
      cases hn
      have hi1 := hi.clear (hgone old (by rw [hm]; exact mem_singleton_self _))
      have hf1 := hi1.calls k f (mem_top hs)
      have hst := hi1.below_steady hs
      refine hi1.setStack (.inl rfl) hr ?_ hst ?_ ?_
      · intro g hg
        rcases mem_cons.mp hg with rfl | hg
        · exact ⟨hf1.held, nofun⟩
        · exact hi1.below_ok hs g hg
      · intro g hg v hv
        rcases mem_cons.mp hg with rfl | hg
        · cases hv
          exact (hi1.closing k f (mem_top hs) new (by rw [hm]; rfl)).1
        · rw [hst g hg] at hv
          cases hv
      · intro h
        exact absurd (h _ mem_cons_self) (by simp [Mid.new])
    all_goals
      cases hn
      refine hi.install hr hs hv rfl fun v hv => ?_
      rw [hm]
      exact hv
  case h_3 new hm =>
    cases hn
    exact hi.install hr hs (by rw [hm]; rfl) rfl nofun
  case h_4 old hm =>
    cases hn
    exact hi.reclaim hr hs (by rw [hm]; rfl) (hgone old
        (by rw [hm]; exact mem_singleton_self _))
  case h_5 cur copy hm => -- `wakeup` publishes
    have hd := procDisciplined_waking hch hm hd
    obtain ⟨⟨old, s1⟩, hpub, hn⟩ := bind_eq_some_iff.mp hn
    cases hn
    obtain ⟨hi1, hc, -, hold⟩ := hi.renew hd hpub
    have hs1 : s1.stack k = f :: fs := by rw [hc.stack]; exact hs
    have hf1 := hi1.calls k f (mem_top hs1)
    refine hi1.top (by rw [hc.cpu]; exact hr) hs1 (by rw [hm]; rfl) ⟨hf1.held, fun v hv => ?_⟩ rfl
    obtain rfl := mem_singleton.mp hv
    exact hold
  case h_6 old hm =>
    cases hn
    refine hi.top hr hs (by rw [hm]; rfl) ⟨hf.held, fun v hv => hgone v ?_⟩ rfl
    rw [hm]
    exact hv
  case h_7 old hm =>
    cases hn
    exact hi.reclaim hr hs (by rw [hm]; rfl) (hgone old
        (by rw [hm]; exact mem_singleton_self _))
  case h_8 => cases hn

/-- **One step of a process** keeps the invariant. -/
theorem InvBut.process (hi : Inv s) (hr : (s.cpu c).run = some k)
    (hd : procDisciplined s (s.stack k) ch) (hn : procStep s c k (s.stack k) ch = some s') :
    Inv s' := by
  have hproc : Steady (s.stack k) → Points s k (s.cpu c).proc := hi.proc c k (by simp) hr
  cases hs : s.stack k with
  | nil =>
    rw [hs] at hn hproc
    have hst : Steady [] := fun g hg => by cases hg
    unfold procStep at hn
    split at hn
    case h_1 =>
      cases hn
      exact hi.push hr (fun g hg => by cases hg) hst (hproc hst) nofun
    case h_2 g _ =>
      split at hn
      · rename_i hg
        cases hn
        -- no entry takes a pointer
        have hno : ∀ g ∈ Fn.entries, g.takesP = false := by decide
        refine hi.push hr (fun g hg => by cases hg) hst (hproc hst) fun h => ?_
        rw [hno g hg] at h
        cases h
      · cases hn
    case h_3 => simp_all
    case h_4 => cases hn
  | cons f fs =>
    rw [hs] at hn hd
    by_cases hch : ch = .interrupt
    · subst hch
      cases hn
      have hm : f.mid.new = none := hd
      refine hi.push hr (fun g hg => hi.calls k g (by rw [hs]; exact hg))
        (Steady.cons hm (hi.below_steady hs)) (hi.proc_top hr hs hm) nofun
    · rw [procStep_cons hch] at hn
      exact hi.frame hr hs hch hd hn

end Process

/-! ## The steps of a CPU without a process -/

section Idle
variable {x : Cpu} {ch : Choice}

section
variable (hi : Inv s) (hr : (s.cpu c).run = none)
include hi hr

/-- The CPU changes, and runs no process before and after. -/
theorem InvBut.setIdle (hx : x.Ok s) (hxr : x.run = none)
    (hbusy : ∀ v ∈ x.sched.target, v ∈ (s.cpu c).sched.target ∨
      ∀ c', ¬ (s.cpu c').Busy s (s.pid v)) : Inv (s.setCpu c x) := by
  refine hi.setCpu hx ?_ ?_ ?_
  · rintro k (h | ⟨v, hv, rfl⟩)
    · rw [hxr] at h
      cases h
    · exact (hbusy v hv).imp (fun h => .inr ⟨v, h, rfl⟩) id
  · intro k h
    rw [hxr] at h
    cases h
  · intro k h
    rw [hr] at h
    cases h

/-- **One step of the scheduler** keeps the invariant. -/
theorem InvBut.sched (hd : idleDisciplined s (s.cpu c) ch)
    (hn : schedStep s c (s.cpu c).sched ch = some s') : Inv s' := by
  have hx := hi.cpus c
  have hrun : ∀ k, (s.cpu c).run = some k → False := fun k h => by rw [hr] at h; cases h
  unfold schedStep at hn
  split at hn
  case h_1 v _ => -- a copy
    split at hn
    · cases hn
      refine hi.setIdle hr ⟨?_, hx.wake, ?_, ?_, fun k h => (hrun k h).elim⟩ hr ?_
      · rintro _ ⟨⟩
      · rintro _ ⟨⟩
      · rintro _ _ ⟨⟩
      · rintro _ ⟨⟩
    · cases hn
  case h_2 cur copy hsch => -- the publication
    simp only [idleDisciplined, hsch] at hd
    obtain ⟨hw, hmem⟩ := hd
    split at hn
    · rename_i old s1 hpub
      cases hn
      obtain ⟨hi1, hc, hnew, hold⟩ := hi.renew hw hpub
      have hcpu : s1.cpu c = s.cpu c := by rw [hc.cpu]
      have hx1 := hi1.cpus c
      rw [hcpu] at hx1
      refine hi1.setIdle (by rw [hcpu]; exact hr)
        ⟨?_, hx1.wake, ?_, ?_, fun k h => (hrun k h).elim⟩ hr ?_
      · intro v hv
        obtain rfl : v = old := by simpa [Sched.olds] using hv
        exact hold
      · intro v hv
        cases hv
        exact hnew.1
      · rintro _ _ ⟨⟩
      · intro v hv
        cases hv
        refine .inr fun c' hb => ?_
        rw [hc.cpu, hnew.2] at hb
        rcases hb with h | ⟨v, hv, he⟩
        · exact hw.2.busy c' (.inl h)
        · -- the target was listed, so it has the pid it had
          have hl := hc.listed (k := s.pid v)
            (fun h => hw.2.busy c' (.inr ⟨v, hv, h⟩)) ⟨(hi.cpus c').target v hv, rfl⟩
          exact hw.2.busy c' (.inr ⟨v, hv, hl.2.symm.trans he⟩)
    · rename_i hnone
      obtain ⟨v, hv, he⟩ := mem_map.mp hmem
      simp only [St.publish, bind_eq_bind, Option.bind_eq_none_iff,
        reduceCtorEq] at hnone
      exact absurd (Option.eq_none_iff_forall_ne_some.mpr hnone)
        (by rw [find?_eq_none]; exact fun h => h v hv (by simpa using he))
  case h_3 new old hsch =>
    cases hn
    refine hi.setIdle hr ⟨fun v hv => hx.gone v (by rw [hsch]; exact hv), hx.wake,
      fun v hv => hx.target v (by rw [hsch]; exact hv), ?_, fun k h => (hrun k h).elim⟩ hr
      fun v hv => .inl (by rw [hsch]; exact hv)
    intro v o h
    cases h
    rfl
  case h_4 new old hsch => -- `swtch` to the process
    cases hn
    have ht : new ∈ (s.cpu c).sched.target := by rw [hsch]; rfl
    have hl : new ∈ s.list := hx.target new ht
    refine hi.setCpu ⟨fun v hv => hx.gone v (by rw [hsch]; exact hv), hx.wake,
      fun v hv => (by cases hv), fun v o h => (by cases h), ?_⟩ ?_ ?_ fun k h => (hrun k h).elim
    · intro k h
      cases h
      exact ⟨hi.list.born new hl, rfl⟩
    · rintro k (h | ⟨v, hv, -⟩)
      · cases h
        exact .inl (.inr ⟨new, ht, rfl⟩)
      · cases hv
    · intro k h _
      cases h
      exact ⟨new, hx.installed new old hsch, hl, rfl⟩
  case h_5 old hsch =>
    cases hn
    have hi1 := hi.clear (hx.gone old (by rw [hsch]; exact mem_singleton_self _))
    exact hi1.setIdle hr ⟨fun v hv => (by cases hv), (hi1.cpus c).wake, fun v hv => (by cases hv),
      fun v o h => (by cases h), fun k h => (hrun k h).elim⟩ hr (by rintro _ ⟨⟩)
  case h_6 hsch =>
    cases hn
    exact hi.setIdle hr ⟨fun v hv => (by cases hv), hx.wake, fun v hv => (by cases hv),
      fun v o h => (by cases h), fun k h => (hrun k h).elim⟩ hr (by rintro _ ⟨⟩)
  case h_7 => cases hn

/-- **One step of an interrupt handler** keeps the invariant. -/
theorem InvBut.handler (hd : idleDisciplined s (s.cpu c) ch)
    (hn : handlerStep s c (s.cpu c).wake ch = some s') : Inv s' := by
  have hx := hi.cpus c
  unfold handlerStep at hn
  split at hn
  case h_1 v _ =>
    obtain ⟨mid, hw, hn⟩ := bind_eq_some_iff.mp hn
    cases hn
    unfold wakeCopy at hw
    split at hw
    · cases hw
      exact hi.setIdle hr ⟨hx.gone, fun v hv => (by cases hv), hx.target, hx.installed, hx.run⟩ hr
        fun v hv => .inl hv
    · cases hw
  case h_2 cur copy hwk =>
    simp only [idleDisciplined, hwk] at hd
    obtain ⟨⟨old, s1⟩, hpub, hn⟩ := bind_eq_some_iff.mp hn
    cases hn
    obtain ⟨hi1, hc, -, hold⟩ := hi.renew hd hpub
    have hcpu : s1.cpu c = s.cpu c := by rw [hc.cpu]
    have hx1 := hi1.cpus c
    rw [hcpu] at hx1
    refine hi1.setIdle (by rw [hcpu]; exact hr)
      ⟨hx1.gone, fun v hv => ?_, hx1.target, hx1.installed, hx1.run⟩ hr
      fun v hv => .inl (by rw [hcpu]; exact hv)
    obtain rfl := mem_singleton.mp hv
    exact hold
  case h_3 old hwk =>
    cases hn
    have hi1 := hi.clear (hx.wake old (by rw [hwk]; exact mem_singleton_self _))
    have hx1 := hi1.cpus c
    exact hi1.setIdle hr ⟨hx1.gone, fun v hv => (by cases hv), hx1.target, hx1.installed, hx1.run⟩
        hr
      fun v hv => .inl hv
  case h_4 => cases hn

end

end Idle

/-! ## Runs -/

/-- **The step lemma.** -/
theorem InvBut.next {l : Lbl n} (hi : Inv s) (hd : Disciplined s l)
    (hn : kernel.next s l = some s') : Inv s' := by
  unfold Disciplined at hd
  simp only [kernel] at hn
  split at hn
  · rename_i k hr
    rw [hr] at hd
    exact hi.process hr hd hn
  · rename_i hr
    rw [hr] at hd
    split at hn
    · exact hi.handler hr hd hn
    · exact hi.handler hr hd hn
    · split at hn
      · exact hi.sched hr hd hn
      · cases hn

/-- A start: distinct pids, and every process in user space or not started; no CPU has a process. -/
structure Start (s : St n) : Prop where
  list : ListOk s
  stack : ∀ k, s.stack k = []
  cpu : ∀ c, s.cpu c = {}

theorem Start.inv (h : Start s) : Inv s := by
  constructor
  · exact h.list
  · exact fun k _ => h.stack k
  · intro k f hf
    rw [h.stack] at hf
    cases hf
  · intro k f hf
    rw [h.stack] at hf
    cases hf
  · intro k f hf
    rw [h.stack] at hf
    cases hf
  · intro c
    rw [h.cpu]
    exact ⟨fun v hv => (by cases hv), fun v hv => (by cases hv), fun v hv => (by cases hv),
      fun v o h => (by cases h), fun k h => (by cases h)⟩
  · intro c k _ hr
    rw [h.cpu] at hr
    cases hr
  · intro c c' k hb
    rw [h.cpu] at hb
    rcases hb with hr | ⟨v, hv, -⟩
    · cases hr
    · cases hv

/-- **Coherence of the pointers to the current process**, in every run whose steps keep the
discipline. -/
theorem coherent_of_disciplined {ls : List (Lbl n)} (h : Start s)
    (hm : kernel.Meets Disciplined s ls) (hr : kernel.run s ls = some s') : Coherent s' :=
  InvBut.coherent (Machine.run_inv InvBut.next h.inv hm hr)

theorem demo_start : Start demo where
  list := ⟨by decide, by decide, by decide⟩
  stack _ := rfl
  cpu _ := rfl

/-- The scheduler runs process 2, which grows, forks, is interrupted and yields; it is scheduled
again and forks again, up to the use of `p`. -/
def yieldRun : List (Lbl 1) :=
  [.pick 1, .go, .go, .go, .call .growproc, .go, .go, .go, .right, .go, .go, .go, .go,
    .call .fork, .go, .go, .right, .right, .go, .go, .go,
    .interrupt, .left, .right, .go, .right, .go, .go, .go, .go, .go, .go, .go, .go, .go, .go, .go,
    .go, .go, .pick 5, .go, .go, .go, .go, .go, .go, .call .fork, .go].map (⟨0, ·⟩)

theorem coherent_of_disciplined_yieldRun : ∃ s, kernel.run demo yieldRun = some s ∧ Coherent s ∧
    (s.cpu 0).run = some 2 ∧ (s.stack 2).map (·.derefs (s.cpu 0).proc) = [[some 6]] := by
  have h : (kernel.run demo yieldRun).map (fun s => ((s.cpu 0).run,
      (s.stack 2).map (·.derefs (s.cpu 0).proc))) = some (some 2, [[some 6]]) := by
    decide +kernel
  obtain ⟨s, hs, h⟩ := map_eq_some_iff.mp h
  obtain ⟨hr, hd⟩ := Prod.mk.inj h
  exact ⟨s, hs, coherent_of_disciplined demo_start (by decide +kernel) hs, hr, hd⟩

end Xv6.Current
