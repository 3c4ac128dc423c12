import Xv6Rcu.Fs.Store

/-!
# The cache and the log are transparent

Every reachable state of the store represents the block array of its users (`Inv`), so a `bread` of
a block outside the log returns the last logged contents, whatever was recycled or committed in
between (`bread_returns_last_logged`).

- `Ctl`: where the commit is, and where its two uses are.
- `pending`: the entries of the log that `install_trans` has not done; `copiedTo`: how many log
  blocks hold the contents to be installed.
-/

namespace Xv6.Store

open Lib Fs Function List
open Nat (not_lt_zero zero_le)
open Option (bind_eq_some_iff map_eq_some_iff)

variable {m n : Nat}

/-! ## What the state represents -/

/-- The entries of the log that are not installed. -/
def St.pending (s : St m n) : List BlockNo := s.trans.log.block.drop (∑ p, (s.trans.pc p).tail)

/-- The entry `t` of the log. -/
def St.entry (s : St m n) (t : Nat) : BlockNo := s.trans.log.block.getD t 0

/-- How many log blocks hold the contents of their entries. -/
def St.copiedTo (s : St m n) : Stage → Nat
  | .idle => 0
  | .readTo t | .readFrom t | .copyLog t | .writeTo t => t
  | .relseFrom t | .relseTo t | .nextLog t => t + 1
  | _ => s.trans.log.block.length

/-- The first `k` log blocks hold the contents of their entries. -/
def St.view (s : St m n) (sb : Superblock) (d₀ : Disk) (k : Nat) : View (m + 2) where
  cache := s.cache
  want := s.want
  dirty := s.dirty
  data := s.data
  disk := s.disk
  val := contents d₀ s.logged
  pending := s.pending
  copies b v := ∃ t < k, t < s.trans.log.block.length ∧ b = logBlock sb.logstart t ∧
    v = contents d₀ s.logged (s.entry t)

/-! ## Where the commit is -/

/-- Where a use of the commit is. -/
inductive Status where
  | free
  /-- `bread` of the block has begun. -/
  | asked (b : BlockNo)
  | holds (b : BlockNo)
  /-- `brelse` has begun. -/
  | leaving

def Sat {k : Nat} (c : Cache.St k) (want : Fin k → BlockNo) (u : Fin k) : Status → Prop
  | .free => c.pc u = .idle
  | .asked b => want u = b ∧
    ∃ i, c.pc u = .waiting i ∨ c.pc u = .locked i ∨ c.pc u = .holding i
  | .holds b => want u = b ∧ ∃ i, c.pc u = .holding i
  | .leaving => c.pc u = .idle ∨ ∃ i, c.pc u = .releasing i

namespace Stage

/-- The use 0 at a stage. -/
def slot0 (sb : Superblock) : Stage → Status
  | .readFrom t | .readDbuf t => .asked (logBlock sb.logstart t)
  | .copyLog t | .writeTo t | .relseFrom t | .relseTo t => .holds (logBlock sb.logstart t)
  | .copyHome t | .writeHome t | .unpin t | .relseLbuf t => .holds (logBlock sb.logstart t)
  | .setHead => .asked sb.logstart
  | .writeHead | .relseHead => .holds sb.logstart
  | .nextLog _ | .headDone | .relseDbuf _ => .leaving
  | _ => .free

/-- The use 1 at a stage, where `e` gives the entries of the log. -/
def slot1 (e : Nat → BlockNo) : Stage → Status
  | .copyLog t | .copyHome t => .asked (e t)
  | .writeTo t | .relseFrom t => .holds (e t)
  | .writeHome t | .unpin t | .relseLbuf t | .relseDbuf t => .holds (e t)
  | .relseTo _ | .nextInstall _ => .leaving
  | _ => .free

/-- How many entries there must be. -/
def bound : Stage → Nat
  | .readTo t | .readLbuf t => t
  | .readFrom t | .copyLog t | .writeTo t | .relseFrom t | .relseTo t | .nextLog t => t + 1
  | .readDbuf t | .copyHome t | .writeHome t | .unpin t | .relseLbuf t | .relseDbuf t
  | .nextInstall t => t + 1
  | _ => 0

/-- Where the committing process is, as far as the log goes. -/
def Place : Stage → Trans.Pc → Prop
  | .idle, _ => False
  | .readTo _, pc | .readFrom _, pc | .copyLog _, pc | .writeTo _, pc | .relseFrom _, pc
  | .relseTo _, pc | .nextLog _, pc => pc = .commit
  | .readHead, pc | .setHead, pc | .writeHead, pc | .relseHead, pc | .headDone, pc =>
    pc = .commit ∨ pc = .committed
  | .readLbuf t, pc | .readDbuf t, pc | .copyHome t, pc | .writeHome t, pc | .unpin t, pc =>
    pc = .install t
  | .relseLbuf t, pc | .relseDbuf t, pc | .nextInstall t, pc => pc = .install (t + 1)

theorem Place.phase {g : Stage} {pc : Trans.Pc} (h : g.Place pc) : pc.phase = some () := by
  cases g <;> simp only [Place] at h <;> grind [Trans.Pc.phase]

end Stage

structure Ctl (sb : Superblock) (d₀ : Disk) (s : St m n) (g : Stage) : Prop where
  slot0 : Sat s.cache s.want 0 (g.slot0 sb)
  slot1 : Sat s.cache s.want 1 (g.slot1 s.entry)
  dirty0 : s.dirty 0 = false
  dirty1 : s.dirty 1 = false
  bound : g.bound ≤ s.trans.log.block.length
  place : g = .idle ∨ ∃ p, g.Place (s.trans.pc p)
  quiet : g = .idle → ∀ p t, s.trans.pc p ≠ .install t
  busy : g ≠ .idle → ∀ p, s.trans.pc p = .commit → s.trans.log.block ≠ []
  start : g ≠ .idle → ¬ Home sb sb.logstart
  /-- The buffer that `write_log` is about to write has the contents of the entry. -/
  copied : ∀ t, g = .writeTo t → ∀ i, s.cache.pc 0 = .holding i →
    s.data i = contents d₀ s.logged (s.entry t)
  /-- The home block of the entry that `install_trans` is about to unpin is on disk. -/
  written : ∀ t, g = .unpin t → s.disk (s.entry t) = contents d₀ s.logged (s.entry t)

structure Inv (sb : Superblock) (dev : BitVec 32) (d₀ : Disk) (s : St m n) : Prop where
  trans : Trans.Inv s.trans
  size : s.trans.log.size = sb.nlog.toInt
  len : s.trans.log.block.length ≤ LOGSIZE
  fits : s.trans.log.block = [] ∨ (s.trans.log.block.length : Int) + 1 ≤ sb.nlog.toInt
  coh : Coherent sb dev (s.view sb d₀ (s.copiedTo s.stage))
  ctl : Ctl sb d₀ s s.stage

/-! ## Steps of uses keep the commit where it is -/

section Sat
variable {k : Nat} {c c' : Cache.St k} {want want' : Fin k → BlockNo} {u v : Fin k} {st : Status}

theorem Sat.of_eq (h : Sat c want u st) (hpc : c'.pc u = c.pc u) (hw : want' u = want u) :
    Sat c' want' u st := by
  cases st <;> simp only [Sat, hpc, hw] at h ⊢ <;> exact h

theorem Sat.acquiresleep (h : Sat c want v st)
    (hn : Cache.machine.next c ⟨u, .acquiresleep⟩ = some c') : Sat c' want v st := by
  obtain ⟨i, hp, rfl⟩ := Cache.next_acquiresleep hn
  by_cases hvu : v = u
  · subst hvu
    cases st <;> simp [Sat, hp] at h ⊢
    exact h
  · exact h.of_eq (update_of_ne hvu ..) rfl

theorem Sat.fill (h : Sat c want v st) (hn : Cache.machine.next c ⟨u, .fill⟩ = some c') :
    Sat c' want v st := by
  obtain ⟨i, hp, rfl⟩ := Cache.next_fill hn
  by_cases hvu : v = u
  · subst hvu
    cases st <;> simp [Sat, hp] at h ⊢
    exact h
  · exact h.of_eq (update_of_ne hvu ..) rfl

theorem Sat.drop (h : Sat c want v st) (hn : Cache.machine.next c ⟨u, .drop⟩ = some c') :
    Sat c' want v st := by
  obtain ⟨i, hp, -, hpc, -⟩ := Cache.next_drop hn
  by_cases hvu : v = u
  · subst hvu
    cases st <;> simp [Sat, hp, hpc] at h ⊢
  · exact h.of_eq (by rw [hpc, update_of_ne hvu]) rfl

theorem Sat.bget {dev : BitVec 32} {b : BlockNo} (hi : ∃ xs, Cache.Inv c xs)
    (hn : Cache.machine.next c ⟨u, .bget dev b⟩ = some c')
    (h : v = u ∧ st = .asked b ∨ v ≠ u ∧ Sat c want v st) :
    Sat c' (update want u b) v st := by
  obtain ⟨xs, hi⟩ := hi
  obtain ⟨-, i, x, rfl, -⟩ := Cache.next_bget hi hn
  rcases h with ⟨rfl, rfl⟩ | ⟨hvu, h⟩
  · exact ⟨update_self .., i, .inl (update_self ..)⟩
  · exact h.of_eq (update_of_ne hvu ..) (update_of_ne hvu ..)

theorem Sat.releasesleep (hn : Cache.machine.next c ⟨u, .releasesleep⟩ = some c')
    (h : v = u ∧ st = .leaving ∨ v ≠ u ∧ Sat c want v st) : Sat c' want v st := by
  obtain ⟨i, -, rfl⟩ := Cache.next_releasesleep hn
  rcases h with ⟨rfl, rfl⟩ | ⟨hvu, h⟩
  · exact .inr ⟨i, update_self ..⟩
  · exact h.of_eq (update_of_ne hvu ..) rfl

end Sat

namespace Inv

variable {sb : Superblock} {dev : BitVec 32} {d₀ : Disk} {s s' : St m n} {u : Fin (m + 2)}
  {c : Cache.St (m + 2)} {p : Fin n}

section
variable (h : Inv sb dev d₀ s) {i : Fin NBUF}
include h

/-- A step of a use leaves the log, the disk and the stage of the commit, and the buffer that the
commit holds. -/
theorem use {want : Fin (m + 2) → BlockNo} {dirty : Fin (m + 2) → Bool} {data : Fin NBUF → Block}
    (hcoh : Coherent sb dev
      { s.view sb d₀ (s.copiedTo s.stage) with cache := c, want, dirty, data })
    (h0 : ∀ st, Sat s.cache s.want 0 st → Sat c want 0 st)
    (h1 : ∀ st, Sat s.cache s.want 1 st → Sat c want 1 st) (hd0 : dirty 0 = s.dirty 0)
    (hd1 : dirty 1 = s.dirty 1)
    (hdata : ∀ i i', s.cache.pc 0 = .holding i → c.pc 0 = .holding i' → i = i' ∧
        data i = s.data i) : Inv sb dev d₀ { s with cache := c, want, dirty, data } := by
  have hctl := h.ctl
  refine ⟨h.trans, h.size, h.len, h.fits, hcoh, h0 _ hctl.slot0, h1 _ hctl.slot1,
    hd0.trans hctl.dirty0, hd1.trans hctl.dirty1, hctl.bound, hctl.place, hctl.quiet, hctl.busy,
    hctl.start, fun t ht i hi => ?_, hctl.written⟩
  have hs := hctl.slot0
  rw [ht] at hs
  obtain ⟨-, i', hi'⟩ := hs
  obtain ⟨rfl, he⟩ := hdata i' i hi' hi
  exact he.trans (hctl.copied t ht i' hi')

omit h in
theorem slot_ne (hu : 2 ≤ u.val) : (0 : Fin (m + 2)) ≠ u ∧ (1 : Fin (m + 2)) ≠ u := by
  constructor <;> rintro rfl <;> simp at hu

/-- A step of a free use in the cache. -/
theorem userStep (hu : 2 ≤ u.val) {want : Fin (m + 2) → BlockNo}
    (hcoh : Coherent sb dev { s.view sb d₀ (s.copiedTo s.stage) with cache := c, want })
    (hpc : ∀ v, v ≠ u → c.pc v = s.cache.pc v) (hw : ∀ v, v ≠ u → want v = s.want v) :
    Inv sb dev d₀ { s with cache := c, want } := by
  obtain ⟨hu0, hu1⟩ := slot_ne hu
  refine h.use hcoh (fun st hs => hs.of_eq (hpc 0 hu0) (hw 0 hu0))
    (fun st hs => hs.of_eq (hpc 1 hu1) (hw 1 hu1)) rfl rfl fun i i' hi hi' => ⟨?_, rfl⟩
  rw [hpc 0 hu0, hi] at hi'
  cases hi'
  rfl

theorem bread (hu : 2 ≤ u.val) {b : BlockNo} (hn : s.bread dev u b = some s') :
    Inv sb dev d₀ s' := by
  obtain ⟨c, hc, rfl⟩ := map_eq_some_iff.mp hn
  obtain ⟨xs, hi⟩ := h.coh.inv
  obtain ⟨-, i, x, rfl, -⟩ := Cache.next_bget hi hc
  exact h.userStep hu (h.coh.bget hc) (fun v hv => update_of_ne hv ..)
    fun v hv => update_of_ne hv ..

theorem holder {v : Fin (m + 2)} (hu : (s.cache.pc u).held = some i)
    (hv : (s.cache.pc v).held = some i) : u = v :=
  h.coh.holder hu hv

omit h in
/-- A use that holds a buffer still holds it after a step of one that does not. -/
theorem hold_eq {pc : Cache.Pc} (hpc : c.pc = update s.cache.pc u pc)
    (hu : ∀ i, s.cache.pc u ≠ .holding i) {v : Fin (m + 2)} {i' : Fin NBUF}
    (hi : s.cache.pc v = .holding i) (hi' : c.pc v = .holding i') : v ≠ u ∧ i = i' := by
  have hvu : v ≠ u := by
    rintro rfl
    exact hu i hi
  rw [hpc, update_of_ne hvu, hi] at hi'
  cases hi'
  exact ⟨hvu, rfl⟩

theorem acquiresleep (hn : s.cacheStep u .acquiresleep = some s') : Inv sb dev d₀ s' := by
  obtain ⟨c, hc, rfl⟩ := map_eq_some_iff.mp hn
  refine h.use (h.coh.acquiresleep hc) (fun st hs => hs.acquiresleep hc)
    (fun st hs => hs.acquiresleep hc) rfl rfl fun i i' hi hi' => ⟨?_, rfl⟩
  obtain ⟨j, hp, rfl⟩ := Cache.next_acquiresleep hc
  exact (hold_eq rfl (by rw [hp]; exact nofun) hi hi').2

theorem drop (hn : s.cacheStep u .drop = some s') : Inv sb dev d₀ s' := by
  obtain ⟨c, hc, rfl⟩ := map_eq_some_iff.mp hn
  refine h.use (h.coh.drop hc) (fun st hs => hs.drop hc) (fun st hs => hs.drop hc) rfl rfl
    fun i i' hi hi' => ⟨?_, rfl⟩
  obtain ⟨j, hp, -, hpc, -⟩ := Cache.next_drop hc
  exact (hold_eq hpc (by rw [hp]; exact nofun) hi hi').2

theorem fill (hp : s.cache.pc u = .locked i) (hn : { s with
      data := if (s.cache.buf i).valid then s.data
        else update s.data i (s.disk (s.cache.buf i).blockno) }.cacheStep u .fill = some s') :
    Inv sb dev d₀ s' := by
  obtain ⟨c, hc, rfl⟩ := map_eq_some_iff.mp hn
  refine h.use (h.coh.fill hp hc) (fun st hs => hs.fill hc) (fun st hs => hs.fill hc) rfl rfl
    fun j j' hj hj' => ?_
  obtain ⟨i', hp', rfl⟩ := Cache.next_fill hc
  obtain ⟨h0u, rfl⟩ := hold_eq rfl (by rw [hp]; exact nofun) hj hj'
  -- the commit has the lock of its buffer
  have hji : j ≠ i := by
    rintro rfl
    exact h0u (h.holder (by rw [hj]; rfl) (by rw [hp]; rfl))
  refine ⟨rfl, ?_⟩
  dsimp only
  split
  · rfl
  · rw [update_of_ne hji]

theorem modify (hu : 2 ≤ u.val) (hp : s.cache.pc u = .holding i)
    (hb : Home sb (s.cache.buf i).blockno) (x : Block) :
    Inv sb dev d₀ { s with
      data := update s.data i x, dirty := update s.dirty u true } := by
  obtain ⟨hu0, hu1⟩ := slot_ne hu
  refine h.use (h.coh.modify hp hb x) (fun _ => id) (fun _ => id) (update_of_ne hu0 ..)
    (update_of_ne hu1 ..) fun j j' hj hj' => ?_
  rw [hj] at hj'
  cases hj'
  have hji : j ≠ i := by
    rintro rfl
    exact hu0 (h.holder (by rw [hj]; rfl) (by rw [hp]; rfl))
  exact ⟨rfl, update_of_ne hji ..⟩

theorem releasesleep (hu : 2 ≤ u.val) (hd : s.dirty u = false)
    (hn : s.cacheStep u .releasesleep = some s') : Inv sb dev d₀ s' := by
  obtain ⟨c, hc, rfl⟩ := map_eq_some_iff.mp hn
  have hcoh := h.coh.releasesleep hc hd
  obtain ⟨j, hp, rfl⟩ := Cache.next_releasesleep hc
  exact h.userStep hu hcoh (fun v hv => update_of_ne hv ..) fun _ _ => rfl

end

/-! ## The log -/

/-- While the commit is running, the log says so. -/
theorem committing (h : Inv sb dev d₀ s) (hg : s.stage ≠ .idle) :
    s.trans.log.committing = true := by
  obtain ⟨p, hp⟩ := h.ctl.place.resolve_left hg
  exact h.trans.committing hp.phase

theorem idle_of_op (h : Inv sb dev d₀ s) {o : Trans.Op} (hp : s.trans.pc p = .op o) :
    s.stage = .idle := by
  by_contra hg
  have hc := h.trans.not_committing hp
  rw [h.committing hg] at hc
  cases hc

/-- The committing process is where the stage says. -/
theorem at_place (h : Inv sb dev d₀ s) (hg : s.stage ≠ .idle)
    (hp : (s.trans.pc p).phase = some ()) : s.stage.Place (s.trans.pc p) := by
  obtain ⟨p', hp'⟩ := h.ctl.place.resolve_left hg
  rwa [h.trans.exclusive p p' () hp hp'.phase]

variable {pc : Trans.Pc} {t : Trans.St n}

/-- The committing process knows which entries are installed. -/
theorem pending_eq (ht : Trans.Inv s.trans) (hp : s.trans.pc p = pc) (hph : pc.phase = some ()) :
    s.pending = s.trans.log.block.drop pc.tail := by
  subst hp
  unfold St.pending
  rw [ht.sum_eq hph Trans.Pc.tail rfl]

theorem nlog_le (sb : Superblock) : sb.nlog.toInt ≤ sb.nlog.toNat := by
  rw [BitVec.toInt_eq_toNat_cond]
  split <;> omega

/-- The log blocks of the entries are in the log area. -/
theorem logBlock_not_home (h : Inv sb dev d₀ s) {t : Nat} (ht : t < s.trans.log.block.length) :
    ¬ Home sb (logBlock sb.logstart t) := by
  have hne : s.trans.log.block ≠ [] := ne_nil_of_length_pos (by omega)
  have hsz := h.fits.resolve_left hne
  have hle := nlog_le sb
  refine not_not_intro ⟨t + 1, by omega, ?_⟩
  unfold logBlock
  bv_omega

theorem start_not_home (h : Inv sb dev d₀ s) (hne : s.trans.log.block ≠ []) :
    ¬ Home sb sb.logstart := by
  have hsz := h.fits.resolve_left hne
  have hle := nlog_le sb
  exact not_not_intro ⟨0, by omega, by simp⟩

/-- The coherence only depends on the entries that are not installed and on the copies. -/
theorem retrans {k k' : Nat} (h : Coherent sb dev (s.view sb d₀ k))
    (hp : ({ s with trans := t } : St m n).pending = s.pending)
    (hc : ∀ b v, (({ s with trans := t } : St m n).view sb d₀ k').copies b v →
      (s.view sb d₀ k).copies b v) :
    Coherent sb dev (({ s with trans := t } : St m n).view sb d₀ k') := by
  have h' := h.forget hc
  unfold St.view at h' ⊢
  rw [hp]
  exact h'

theorem quiet_update {pcs : Fin n → Trans.Pc} (h : ∀ q k, pcs q ≠ .install k)
    (hpc : ∀ k, pc ≠ .install k) (q : Fin n) (k : Nat) : update pcs p pc q ≠ .install k := by
  by_cases hqp : q = p
  · subst hqp
    rw [update_self]
    exact hpc k
  · rw [update_of_ne hqp]
    exact h q k

theorem pending_of_quiet (h : ∀ q k, s.trans.pc q ≠ .install k) :
    s.pending = s.trans.log.block := by
  unfold St.pending
  rw [Finset.sum_eq_zero fun q _ => ?_, drop_zero]
  have hq := h q
  generalize s.trans.pc q = pc at hq
  cases pc with
  | install k => exact absurd rfl (hq k)
  | _ => rfl

section
variable (h : Inv sb dev d₀ s)
include h

/-- A step of the log outside the commit. -/
theorem idleTrans (hg : s.stage = .idle) (ht : Trans.Inv t) (hsize : t.log.size = s.trans.log.size)
    (hblock : t.log.block = s.trans.log.block) (hpc : t.pc = update s.trans.pc p pc)
    (hno : ∀ k, pc ≠ .install k) : Inv sb dev d₀ { s with trans := t } := by
  have hctl := h.ctl
  have hcoh := h.coh
  have hq : ∀ q k, t.pc q ≠ .install k := by
    rw [hpc]
    exact quiet_update (hctl.quiet hg) hno
  rw [hg] at hctl hcoh
  have hpend : ({ s with trans := t } : St m n).pending = s.pending := by
    rw [pending_of_quiet (hctl.quiet rfl), pending_of_quiet hq, hblock]
  refine ⟨ht, hsize.trans h.size, by rw [hblock]; exact h.len, by rw [hblock]; exact h.fits, ?_, ?_⟩
  · rw [hg]
    exact retrans hcoh hpend fun b v ⟨t, ht, _⟩ => absurd ht (not_lt_zero t)
  · rw [hg]
    exact ⟨hctl.slot0, hctl.slot1, hctl.dirty0, hctl.dirty1, zero_le _, .inl rfl, fun _ => hq,
      fun hne => absurd rfl hne, fun hne => absurd rfl hne, nofun, nofun⟩

theorem beginOp (hn : s.transStep p .beginOp = some s') : Inv sb dev d₀ s' := by
  obtain ⟨t, ht, rfl⟩ := map_eq_some_iff.mp hn
  have hinv := h.trans.step ht
  obtain ⟨-, hc, rfl⟩ := Trans.next_beginOp ht
  have hg : s.stage = .idle := by
    by_contra hg
    rw [h.committing hg] at hc
    cases hc
  exact h.idleTrans hg hinv rfl rfl rfl nofun

theorem endOp (hn : s.transStep p .endOp = some s') : Inv sb dev d₀ s' := by
  obtain ⟨t, ht, rfl⟩ := map_eq_some_iff.mp hn
  have hinv := h.trans.step ht
  obtain ⟨o, l, pc, hp, hblock, hsize, hpc, rfl⟩ := Trans.next_endOp ht
  refine h.idleTrans (h.idle_of_op hp) hinv hsize hblock rfl fun k => ?_
  rcases hpc with rfl | rfl <;> exact nofun

/-- `log_write` of the buffer that the use holds. -/
theorem logWrite (hu : 2 ≤ u.val) {i : Fin NBUF} (hp : s.cache.pc u = .holding i)
    (hb : Home sb (s.cache.buf i).blockno)
    (ht : Trans.machine.next s.trans ⟨p, .logWrite (s.cache.buf i).blockno⟩ = some t)
    (hc : (s.cache.buf i).blockno ∈ s.trans.log.block ∧ c = s.cache ∨
      (s.cache.buf i).blockno ∉ s.trans.log.block ∧
        Cache.machine.next s.cache ⟨u, .bpin⟩ = some c) :
    Inv sb dev d₀ { s with
      trans := t, cache := c, dirty := update s.dirty u false
      logged := ((s.cache.buf i).blockno, s.data i) :: s.logged } := by
  obtain ⟨hu0, hu1⟩ := slot_ne hu
  have hinv := h.trans.step ht
  obtain ⟨o, l, new, pins, hop, hl, rfl⟩ := Trans.next_logWrite ht
  have hg := h.idle_of_op hop
  obtain ⟨hlen, hsz⟩ := Trans.logWrite_room hl
  rw [h.size] at hsz
  have hctl := h.ctl
  have hcoh := h.coh
  have hq : ∀ q k, update s.trans.pc p (.op (o.call (s.cache.buf i).blockno new)) q ≠
      .install k := quiet_update (hctl.quiet hg) nofun
  have hpend := pending_of_quiet (hctl.quiet hg)
  have hmem : ∀ c, c ∈ l.block ↔ c ∈ s.trans.log.block ∨ c = (s.cache.buf i).blockno := by
    obtain ⟨rfl, -, hmem⟩ | ⟨rfl, -, -⟩ := Trans.logWrite_eq_ok hl
    · intro c
      exact ⟨.inl, fun hc => hc.elim id fun he => he ▸ hmem⟩
    · simp
  have hsize : l.size = s.trans.log.size := by
    obtain ⟨rfl, -⟩ | ⟨rfl, -⟩ := Trans.logWrite_eq_ok hl <;> rfl
  have hle : l.block.length ≤ s.trans.log.block.length + 1 := by
    obtain ⟨rfl, -⟩ | ⟨rfl, -⟩ := Trans.logWrite_eq_ok hl <;> simp
  -- the buffer is pinned before or by this call
  obtain ⟨hcoh', hbuf, hpc, hpin⟩ :
      Coherent sb dev { s.view sb d₀ (s.copiedTo s.stage) with cache := c } ∧
      (c.buf i).blockno = (s.cache.buf i).blockno ∧ c.pc = s.cache.pc ∧
      ((s.cache.buf i).blockno ∈ s.pending ∨ 0 < c.pins i) := by
    rcases hc with ⟨hin, rfl⟩ | ⟨-, hc⟩
    · exact ⟨hcoh, rfl, rfl, .inl (hpend ▸ hin)⟩
    · refine ⟨hcoh.bpin hc, ?_⟩
      obtain ⟨j, hj, rfl⟩ := Cache.next_bpin hc
      rw [hp] at hj
      cases hj
      exact ⟨by simp, rfl, .inr (by simp)⟩
  rw [hg] at hctl
  refine ⟨hinv, hsize.trans h.size, le_trans hle hlen, .inr ?_, ?_, ?_⟩
  · show (l.block.length : Int) + 1 ≤ _
    omega
  · rw [hg]
    unfold St.view
    rw [pending_of_quiet hq]
    refine hcoh'.log (hpc ▸ hp) hbuf hb hpin (fun c => ?_) fun c y ⟨t, ht, _⟩ =>
      absurd ht (not_lt_zero t)
    show c ∈ l.block ↔ c ∈ s.pending ∨ _
    rw [hmem c, hpend]
  · rw [hg]
    exact ⟨hctl.slot0.of_eq (by rw [hpc]) rfl, hctl.slot1.of_eq (by rw [hpc]) rfl,
      (update_of_ne hu0 ..).trans hctl.dirty0,
      (update_of_ne hu1 ..).trans hctl.dirty1, zero_le _, .inl rfl, fun _ => hq,
      fun hne => absurd rfl hne, fun hne => absurd rfl hne, nofun, nofun⟩

end

/-! ## The commit -/

/-- A state in which the process `p` is committing. -/
theorem of_place (hpl : s.stage.Place (s.trans.pc p)) (ht : Trans.Inv s.trans)
    (hsize : s.trans.log.size = sb.nlog.toInt) (hlen : s.trans.log.block.length ≤ LOGSIZE)
    (hfits : s.trans.log.block = [] ∨ (s.trans.log.block.length : Int) + 1 ≤ sb.nlog.toInt)
    (hbusy : s.trans.pc p = .commit → s.trans.log.block ≠ []) (hstart : ¬ Home sb sb.logstart)
    (hcoh : Coherent sb dev (s.view sb d₀ (s.copiedTo s.stage)))
    (hd0 : s.dirty 0 = false) (hd1 : s.dirty 1 = false)
    (h0 : Sat s.cache s.want 0 (s.stage.slot0 sb))
    (h1 : Sat s.cache s.want 1 (s.stage.slot1 s.entry))
    (hb : s.stage.bound ≤ s.trans.log.block.length)
    (hcp : ∀ t, s.stage = .writeTo t → ∀ i, s.cache.pc 0 = .holding i →
      s.data i = contents d₀ s.logged (s.entry t))
    (hwr : ∀ t, s.stage = .unpin t → s.disk (s.entry t) = contents d₀ s.logged (s.entry t)) :
    Inv sb dev d₀ s := by
  refine ⟨ht, hsize, hlen, hfits, hcoh, h0, h1, hd0, hd1, hb, .inr ⟨p, hpl⟩, fun hg => ?_,
    fun _ q hq => ?_, fun _ => hstart, hcp, hwr⟩
  · rw [hg] at hpl
    exact hpl.elim
  · have hqp := ht.exclusive q p () (by rw [hq]; rfl) hpl.phase
    exact hbusy (hqp ▸ hq)

/-- A step of the commit that leaves the log as it is. -/
theorem advance (h : Inv sb dev d₀ s) {g : Stage} {want : Fin (m + 2) → BlockNo}
    {data : Fin NBUF → Block} {disk : Disk} (hpl : g.Place (s.trans.pc p))
    (hbusy : s.trans.pc p = .commit → s.trans.log.block ≠ []) (hstart : ¬ Home sb sb.logstart)
    (hcoh : Coherent sb dev { s.view sb d₀ (s.copiedTo g) with cache := c, want, data, disk })
    (h0 : Sat c want 0 (g.slot0 sb)) (h1 : Sat c want 1 (g.slot1 s.entry))
    (hb : g.bound ≤ s.trans.log.block.length)
    (hcp : ∀ t, g = .writeTo t → ∀ i, c.pc 0 = .holding i →
      data i = contents d₀ s.logged (s.entry t))
    (hwr : ∀ t, g = .unpin t → disk (s.entry t) = contents d₀ s.logged (s.entry t)) :
    Inv sb dev d₀ { s with cache := c, want, data, disk, stage := g } :=
  of_place hpl h.trans h.size h.len h.fits hbusy hstart hcoh h.ctl.dirty0 h.ctl.dirty1 h0 h1 hb hcp
    hwr

theorem at_stage (h : Inv sb dev d₀ s) {g : Stage} (hg : s.stage = g) (hne : g ≠ .idle)
    (hp : (s.trans.pc p).phase = some ()) : g.Place (s.trans.pc p) ∧ Ctl sb d₀ s g ∧
      Coherent sb dev (s.view sb d₀ (s.copiedTo g)) := by
  subst hg
  exact ⟨h.at_place hne hp, h.ctl, h.coh⟩

section
variable {g0 g : Stage} (h : Inv sb dev d₀ s) (hg : s.stage = g0) (hne : g0 ≠ .idle)
include h hg hne

/-- A `bread` of the commit. -/
theorem commitBread {v : Fin (m + 2)} {b : BlockNo}
    (hn : { s with stage := g }.bread dev v b = some s') (hpl : g.Place (s.trans.pc p))
    (hk : s.copiedTo g = s.copiedTo g0)
    (h0 : 0 = v ∧ g.slot0 sb = .asked b ∨ 0 ≠ v ∧ Sat s.cache s.want 0 (g.slot0 sb))
    (h1 : 1 = v ∧ g.slot1 s.entry = .asked b ∨ 1 ≠ v ∧ Sat s.cache s.want 1 (g.slot1 s.entry))
    (hb : g.bound ≤ s.trans.log.block.length) (hcp : ∀ t, g ≠ .writeTo t) (hwr : ∀ t, g ≠ .unpin t)
    :
    Inv sb dev d₀ s' := by
  subst hg
  obtain ⟨c, hc, rfl⟩ := map_eq_some_iff.mp hn
  have hcoh := h.coh
  rw [← hk] at hcoh
  exact h.advance hpl (h.ctl.busy hne p) (h.ctl.start hne) (hcoh.bget hc) (Sat.bget h.coh.inv hc h0)
    (Sat.bget h.coh.inv hc h1) hb (fun t hg => absurd hg (hcp t)) fun t hg => absurd hg (hwr t)

/-- The start of a `brelse` of the commit. -/
theorem commitRelse {v : Fin (m + 2)}
    (hn : { s with stage := g }.cacheStep v .releasesleep = some s') (hpl : g.Place (s.trans.pc p))
    (hk : s.copiedTo g = s.copiedTo g0) (hd : s.dirty v = false)
    (h0 : 0 = v ∧ g.slot0 sb = .leaving ∨ 0 ≠ v ∧ Sat s.cache s.want 0 (g.slot0 sb))
    (h1 : 1 = v ∧ g.slot1 s.entry = .leaving ∨ 1 ≠ v ∧ Sat s.cache s.want 1 (g.slot1 s.entry))
    (hb : g.bound ≤ s.trans.log.block.length) (hcp : ∀ t, g ≠ .writeTo t) (hwr : ∀ t, g ≠ .unpin t)
    :
    Inv sb dev d₀ s' := by
  subst hg
  obtain ⟨c, hc, rfl⟩ := map_eq_some_iff.mp hn
  have hcoh := h.coh
  rw [← hk] at hcoh
  exact h.advance hpl (h.ctl.busy hne p) (h.ctl.start hne) (hcoh.releasesleep hc hd)
    (Sat.releasesleep hc h0) (Sat.releasesleep hc h1) hb (fun t hg => absurd hg (hcp t))
    fun t hg => absurd hg (hwr t)

/-- A step of the commit that only moves on. -/
theorem commitGoto (hpl : g.Place (s.trans.pc p)) (hk : s.copiedTo g = s.copiedTo g0)
    (h0 : Sat s.cache s.want 0 (g.slot0 sb)) (h1 : Sat s.cache s.want 1 (g.slot1 s.entry))
    (hb : g.bound ≤ s.trans.log.block.length) (hcp : ∀ t, g ≠ .writeTo t) (hwr : ∀ t, g ≠ .unpin t)
    :
    Inv sb dev d₀ { s with stage := g } := by
  subst hg
  have hcoh := h.coh
  rw [← hk] at hcoh
  exact h.advance hpl (h.ctl.busy hne p) (h.ctl.start hne) hcoh h0 h1 hb
    (fun t hg => absurd hg (hcp t)) fun t hg => absurd hg (hwr t)

end

theorem held_eq {v : Fin (m + 2)} {i : Fin NBUF} (h : s.held v = some i) :
    s.cache.pc v = .holding i := by
  unfold St.held at h
  split at h <;> cases h
  assumption

theorem wanted (h : Inv sb dev d₀ s) {i : Fin NBUF} (hi : s.cache.pc u = .holding i) :
    Is dev s.cache i (s.want u) := by
  refine h.coh.wanted u i ?_
  show (s.cache.pc u).buf = some i
  rw [hi]
  rfl

/-- A use that holds a block outside the log, and is not changing it, sees the users' block. -/
theorem data_eq (h : Inv sb dev d₀ s) {i : Fin NBUF} {b : BlockNo} (hi : s.cache.pc u = .holding i)
    (hw : s.want u = b) (hd : s.dirty u = false) (hb : Home sb b) :
    s.data i = contents d₀ s.logged b := by
  refine h.coh.clean i b (hw ▸ h.wanted hi) (h.coh.valid u i hi) hb fun v hv => ?_
  change s.cache.pc v = .holding i at hv
  obtain rfl := h.holder (by rw [hv]; rfl) (by rw [hi]; rfl)
  exact hd

section Commit
variable {t : Nat} {i j : Fin NBUF}

theorem entry_eq (hlt : t < s.trans.log.block.length) : s.entry t = s.trans.log.block[t] := by
  unfold St.entry
  simp [hlt]

section
variable (h : Inv sb dev d₀ s) {r : Trans.St n}
include h

theorem entry_mem (hp : (s.trans.pc p).phase = some ()) (ht : (s.trans.pc p).tail ≤ t)
    (hlt : t < s.trans.log.block.length) : s.entry t ∈ s.pending := by
  rw [pending_eq h.trans rfl hp, entry_eq hlt, mem_drop_iff_getElem]
  refine ⟨t - (s.trans.pc p).tail, by omega, ?_⟩
  congr 1
  omega

/-- The block of an entry that is not installed is outside the log. -/
theorem entry_home {pc : Trans.Pc} (hp : s.trans.pc p = pc) (hph : pc.phase = some ())
    (ht : pc.tail ≤ t) (hlt : t < s.trans.log.block.length) : Home sb (s.entry t) := by
  subst hp
  exact (h.coh.pinned _ (h.entry_mem hph ht hlt)).1

/-- The copies are not in the log blocks of the other entries. -/
theorem no_copy (hlt : t < s.trans.log.block.length) (y : Block) :
    ¬ (s.view sb d₀ t).copies (logBlock sb.logstart t) y := by
  rintro ⟨r, hr, hrl, he, -⟩
  have hlen := h.len
  have := logBlock_inj (by omega) (by omega) he
  omega

theorem no_copy_start {k : Nat} (y : Block) : ¬ (s.view sb d₀ k).copies sb.logstart y := by
  rintro ⟨r, -, hrl, he, -⟩
  have hlen := h.len
  exact logBlock_ne_start (by omega) he.symm

/-- `memmove(to->data, from->data, BSIZE)` in `write_log`. -/
theorem copyLog (hg : s.stage = .copyLog t) (hp : (s.trans.pc p).phase = some ())
    (hi : s.cache.pc 0 = .holding i) (hj : s.cache.pc 1 = .holding j) :
    Inv sb dev d₀ { s with data := update s.data i (s.data j), stage := .writeTo t } := by
  obtain ⟨hpl, hctl, hcoh⟩ := h.at_stage hg nofun hp
  have hlt : t < s.trans.log.block.length := hctl.bound
  have hw0 : s.want 0 = logBlock sb.logstart t := hctl.slot0.1
  have hw1 : s.want 1 = s.entry t := hctl.slot1.1
  have hdata := h.data_eq hj hw1 hctl.dirty1 (h.entry_home hpl rfl t.zero_le hlt)
  refine h.advance hpl (hctl.busy nofun p) (hctl.start nofun)
    (hcoh.store hi hw0 (h.logBlock_not_home hlt) (h.no_copy hlt) _) ⟨hw0, i, hi⟩
    ⟨hw1, j, hj⟩ hlt (fun t' ht i' hi' => ?_) nofun
  cases ht
  rw [hi] at hi'
  cases hi'
  rw [update_self, hdata]

/-- `bwrite(to)` in `write_log`. -/
theorem writeTo (hg : s.stage = .writeTo t) (hp : (s.trans.pc p).phase = some ())
    (hi : s.cache.pc 0 = .holding i) : Inv sb dev d₀ { s.bwrite i with stage := .relseFrom t } := by
  obtain ⟨hpl, hctl, hcoh⟩ := h.at_stage hg nofun hp
  have hlt : t < s.trans.log.block.length := hctl.bound
  have hw0 : s.want 0 = logBlock sb.logstart t := hctl.slot0.1
  refine h.advance hpl (hctl.busy nofun p) (hctl.start nofun)
    (hcoh.bwriteLog hi hw0 (h.logBlock_not_home hlt) (h.no_copy hlt)
      fun b y ⟨r, hr, hrl, hb, hy⟩ => ?_) hctl.slot0 hctl.slot1 hlt nofun nofun
  rcases Nat.lt_succ_iff_lt_or_eq.mp hr with hr | rfl
  · exact .inl ⟨r, hr, hrl, hb, hy⟩
  · exact .inr ⟨hb, hy.trans (hctl.copied r rfl i hi).symm⟩

/-- The header is changed in its buffer. -/
theorem setHead (hg : s.stage = .setHead) (hp : (s.trans.pc p).phase = some ())
    (hi : s.cache.pc 0 = .holding i) (x : Block) :
    Inv sb dev d₀ { s with data := update s.data i x, stage := .writeHead } := by
  obtain ⟨hpl, hctl, hcoh⟩ := h.at_stage hg nofun hp
  have hw0 : s.want 0 = sb.logstart := hctl.slot0.1
  exact h.advance hpl (hctl.busy nofun p) (hctl.start nofun)
    (hcoh.store hi hw0 (hctl.start nofun) h.no_copy_start x) ⟨hw0, i, hi⟩ hctl.slot1
    hctl.bound nofun nofun

/-- `bwrite(buf)` in `write_head`. -/
theorem writeHead (hg : s.stage = .writeHead) (hp : (s.trans.pc p).phase = some ())
    (hi : s.cache.pc 0 = .holding i) : Inv sb dev d₀ { s.bwrite i with stage := .relseHead } := by
  obtain ⟨hpl, hctl, hcoh⟩ := h.at_stage hg nofun hp
  exact h.advance hpl (hctl.busy nofun p) (hctl.start nofun)
    (hcoh.bwriteLog hi hctl.slot0.1 (hctl.start nofun) h.no_copy_start
      fun b y hb => .inl hb) hctl.slot0 hctl.slot1 hctl.bound nofun nofun

/-- `memmove(dbuf->data, lbuf->data, BSIZE)` in `install_trans`: the home block has the committed
contents in the cache already. -/
theorem copyHome (hg : s.stage = .copyHome t) (hp : (s.trans.pc p).phase = some ())
    (hi : s.cache.pc 0 = .holding i) (hj : s.cache.pc 1 = .holding j) :
    Inv sb dev d₀
      { s with data := update s.data j (s.data i), stage := .writeHome t } := by
  obtain ⟨hpl, hctl, hcoh⟩ := h.at_stage hg nofun hp
  have hlt : t < s.trans.log.block.length := hctl.bound
  have hw0 : s.want 0 = logBlock sb.logstart t := hctl.slot0.1
  have hw1 : s.want 1 = s.entry t := hctl.slot1.1
  have hdata := h.data_eq hj hw1 hctl.dirty1 (h.entry_home hpl rfl le_rfl hlt)
  have hcopy : s.data i = contents d₀ s.logged (s.entry t) :=
    (hcoh.copied _ _ ⟨t, hlt, hlt, rfl, rfl⟩).2.2 i (hw0 ▸ h.wanted hi) (h.coh.valid 0 i hi)
  rw [hcopy, ← hdata, update_eq_self]
  exact h.advance hpl (hctl.busy nofun p) (hctl.start nofun) hcoh ⟨hw0, i, hi⟩ ⟨hw1, j, hj⟩ hlt
    nofun nofun

/-- `bwrite(dbuf)` in `install_trans`. -/
theorem writeHome (hg : s.stage = .writeHome t) (hp : (s.trans.pc p).phase = some ())
    (hj : s.cache.pc 1 = .holding j) : Inv sb dev d₀ { s.bwrite j with stage := .unpin t } := by
  obtain ⟨hpl, hctl, hcoh⟩ := h.at_stage hg nofun hp
  have hlt : t < s.trans.log.block.length := hctl.bound
  have hw1 : s.want 1 = s.entry t := hctl.slot1.1
  have hhome := h.entry_home hpl rfl le_rfl hlt
  have hdata := h.data_eq hj hw1 hctl.dirty1 hhome
  refine h.advance hpl (hctl.busy nofun p) (hctl.start nofun)
    (hcoh.bwriteHome hj hw1 hhome hdata) hctl.slot0 hctl.slot1 hlt nofun fun t' ht => ?_
  cases ht
  show update s.disk (s.cache.buf j).blockno (s.data j) (s.entry t) = _
  rw [(h.wanted hj).2, hw1, update_self, hdata]

/-- `bunpin(dbuf)` in `install_trans`: the entry is on disk. -/
theorem unpin (hg : s.stage = .unpin t) (hp : (s.trans.pc p).phase = some ())
    (hj : s.cache.pc 1 = .holding j) (hc : Cache.machine.next s.cache ⟨1, .bunpin j⟩ = some c)
    (hr : Trans.machine.next s.trans ⟨p, .commit⟩ = some r) :
    Inv sb dev d₀ { s with cache := c, trans := r, stage := .relseLbuf t } := by
  obtain ⟨hpl, hctl, hcoh⟩ := h.at_stage hg nofun hp
  have hlt : t < s.trans.log.block.length := hctl.bound
  have hw1 : s.want 1 = s.entry t := hctl.slot1.1
  have hinv := h.trans.step hr
  obtain ⟨pins, rfl⟩ : ∃ pins, r = { s.trans with pins }.goto p (.install (t + 1)) := by
    rcases Trans.next_commit hr with ⟨hq, -⟩ | ⟨t', pins, hq, -, rfl⟩ | ⟨t', hq, hle, -⟩ |
        ⟨hq, -⟩ <;>
      rw [hpl] at hq <;> cases hq
    · exact ⟨pins, rfl⟩
    · omega
  have hpend : s.pending = s.trans.log.block.drop t := pending_eq h.trans hpl rfl
  have hcons : s.trans.log.block.drop t = s.entry t :: s.trans.log.block.drop (t + 1) := by
    rw [drop_eq_getElem_cons hlt, entry_eq hlt]
  have hnot : s.entry t ∉ s.trans.log.block.drop (t + 1) := by
    have hnd := h.trans.nodup.sublist (drop_sublist t s.trans.log.block)
    rw [hcons] at hnd
    exact (nodup_cons.mp hnd).1
  have hset : Coherent sb dev { s.view sb d₀ (s.copiedTo (.unpin t)) with
      pending := s.trans.log.block.drop (t + 1) } := by
    refine hcoh.settle (fun b hb => ?_) fun b hb hn => ?_
    · show b ∈ s.pending
      rw [hpend, hcons]
      exact mem_cons_of_mem _ hb
    · change b ∈ s.pending at hb
      rw [hpend, hcons] at hb
      obtain rfl := (mem_cons.mp hb).resolve_right hn
      exact hctl.written t rfl
  have hcoh' := hset.bunpin hj hw1 hc hnot
  have hpc : c.pc = s.cache.pc := by
    rw [Cache.next_bunpin hc]
    rfl
  have hq : update s.trans.pc p (.install (t + 1)) p = .install (t + 1) :=
    update_self ..
  refine of_place hq hinv h.size h.len h.fits (fun hq' => ?_) (hctl.start nofun) ?_ hctl.dirty0
    hctl.dirty1 (hctl.slot0.of_eq (by rw [hpc]) rfl) (hctl.slot1.of_eq (by rw [hpc]) rfl) hlt nofun
    nofun
  · cases hq.symm.trans hq'
  · unfold St.view
    rw [pending_eq hinv hq rfl]
    exact hcoh'

/-- `write_head` is done in `commit`: the transaction is committed. -/
theorem headDone (hg : s.stage = .headDone) (hpc : s.trans.pc p = .commit)
    (hi : s.cache.pc 0 = .idle) (hr : Trans.machine.next s.trans ⟨p, .commit⟩ = some r) :
    Inv sb dev d₀ { s with trans := r, stage := .readLbuf 0 } := by
  obtain ⟨-, hctl, hcoh⟩ := h.at_stage hg nofun (by rw [hpc]; rfl)
  have hinv := h.trans.step hr
  have hne := hctl.busy nofun p hpc
  obtain rfl : r = s.trans.goto p (.install 0) := by
    rcases Trans.next_commit hr with ⟨-, rfl⟩ | ⟨t', pins, hq, -⟩ | ⟨t', hq, -⟩ | ⟨hq, -⟩
    · rw [if_pos (length_pos_iff.mpr hne)]
    all_goals rw [hpc] at hq; cases hq
  have hq : update s.trans.pc p (.install 0) p = .install 0 := update_self ..
  refine of_place hq hinv h.size h.len h.fits (fun _ => hne) (hctl.start nofun) ?_ hctl.dirty0
    hctl.dirty1 hi hctl.slot1 (zero_le _) nofun nofun
  unfold St.view
  rw [pending_eq hinv hq rfl]
  have hpend := pending_eq h.trans hpc rfl
  unfold St.view at hcoh
  rwa [hpend] at hcoh

/-- `log.lh.n = 0` in `commit`: everything is installed. -/
theorem installed (hg : s.stage = .readLbuf t) (hp : (s.trans.pc p).phase = some ())
    (hle : s.trans.log.block.length ≤ t) (hr : Trans.machine.next s.trans ⟨p, .commit⟩ = some r) :
    Inv sb dev d₀ { s with trans := r, stage := .readHead } := by
  obtain ⟨hpl, hctl, hcoh⟩ := h.at_stage hg nofun hp
  have hinv := h.trans.step hr
  obtain rfl : r = { s.trans with log.block := [] }.goto p .committed := by
    rcases Trans.next_commit hr with ⟨hq, -⟩ | ⟨t', pins, hq, hlt, -⟩ | ⟨t', hq, -, rfl⟩ |
        ⟨hq, -⟩ <;>
      rw [hpl] at hq <;> cases hq
    omega
  have hq : update s.trans.pc p .committed p = .committed := update_self ..
  refine of_place (.inr hq) hinv h.size (zero_le _) (.inl rfl) (fun hq' => ?_)
    (hctl.start nofun) ?_ hctl.dirty0 hctl.dirty1 hctl.slot0 hctl.slot1 (zero_le _) nofun nofun
  · cases hq.symm.trans hq'
  · refine retrans hcoh ?_ fun b y ⟨t, ht, _⟩ => absurd ht (not_lt_zero t)
    rw [pending_eq hinv hq rfl, pending_eq h.trans hpl rfl]
    show [] = s.trans.log.block.drop t
    rw [drop_eq_nil_of_le hle]

/-- The second `write_head` is done. -/
theorem committed (hg : s.stage = .headDone) (hpc : s.trans.pc p = .committed)
    (hi : s.cache.pc 0 = .idle) : Inv sb dev d₀ { s with stage := .idle } := by
  obtain ⟨-, hctl, hcoh⟩ := h.at_stage hg nofun (by rw [hpc]; rfl)
  refine ⟨h.trans, h.size, h.len, h.fits, ?_, hi, hctl.slot1, hctl.dirty0, hctl.dirty1,
    zero_le _, .inl rfl, fun _ q t hq => ?_, fun hne => absurd rfl hne,
    fun hne => absurd rfl hne, nofun, nofun⟩
  · exact hcoh.forget fun b y ⟨t, ht, _⟩ => absurd ht (not_lt_zero t)
  · obtain rfl := h.trans.exclusive q p () (by rw [hq]; rfl) (by rw [hpc]; rfl)
    rw [hpc] at hq
    cases hq

/-- `end_op` goes on to `commit`, or there is nothing to commit, or the commit is over. -/
theorem commitIdle (hg : s.stage = .idle)
    (hn : (if s.trans.pc p = .commit ∧ s.trans.log.block ≠ [] then some
        { s with stage := .readTo 0 }
      else s.transStep p .commit) = some s') : Inv sb dev d₀ s' := by
  have hctl := h.ctl
  have hcoh := h.coh
  split at hn
  · next hc =>
    cases hn
    rw [hg] at hctl hcoh
    exact h.advance hc.1 (fun _ => hc.2) (h.start_not_home hc.2) hcoh hctl.slot0 hctl.slot1
      (zero_le _) nofun nofun
  · next hc =>
    obtain ⟨r, hr, rfl⟩ := map_eq_some_iff.mp hn
    have hinv := h.trans.step hr
    rcases Trans.next_commit hr with ⟨hq, rfl⟩ | ⟨t', pins, hq, -⟩ | ⟨t', hq, -⟩ | ⟨hq, rfl⟩
    · have he : s.trans.log.block = [] := by
        by_contra hne
        exact hc ⟨hq, hne⟩
      exact h.idleTrans hg hinv rfl rfl rfl (by simp [he])
    · exact absurd hq (hctl.quiet hg p t')
    · exact absurd hq (hctl.quiet hg p t')
    · exact h.idleTrans hg hinv rfl rfl rfl nofun

end

end Commit

/-- A step of the commit. -/
theorem commit (h : Inv sb dev d₀ s) (hn : commitStep sb dev s p = some s') : Inv sb dev d₀ s' := by
  have hp : (s.trans.pc p).phase = some () := by
    cases hph : (s.trans.pc p).phase with
    | none => simp [commitStep, hph] at hn
    | some x => rfl
  have h0 : s.stage ≠ .idle → _ := fun hne => h.at_place hne hp
  have hctl := h.ctl
  simp only [commitStep, hp, reduceCtorEq, if_false] at hn
  cases hg : s.stage <;> rw [hg] at hn h0 hctl <;>
    simp only [Option.bind_eq_bind, bind_eq_some_iff] at hn
  case idle => exact h.commitIdle hg hn
  case readTo t =>
    split at hn
    · exact h.commitBread hg nofun hn (h0 nofun) rfl (.inl ⟨rfl, rfl⟩) (.inr ⟨nofun, hctl.slot1⟩)
        ‹_› nofun nofun
    · cases hn
      have ht : s.trans.log.block.length = t := le_antisymm (not_lt.mp ‹_›) hctl.bound
      exact h.commitGoto hg nofun (.inl (h0 nofun)) ht hctl.slot0 hctl.slot1 (zero_le _) nofun
        nofun
  case readFrom t =>
    obtain ⟨i, hi, hn⟩ := hn
    exact h.commitBread hg nofun hn (h0 nofun) rfl (.inr ⟨nofun, hctl.slot0.1, i, held_eq hi⟩)
      (.inl ⟨rfl, rfl⟩) hctl.bound nofun nofun
  case copyLog t =>
    obtain ⟨i, hi, j, hj, hn⟩ := hn
    cases hn
    exact h.copyLog hg hp (held_eq hi) (held_eq hj)
  case writeTo t =>
    obtain ⟨i, hi, hn⟩ := hn
    cases hn
    exact h.writeTo hg hp (held_eq hi)
  case relseFrom t =>
    exact h.commitRelse hg nofun hn (h0 nofun) rfl hctl.dirty1 (.inr ⟨nofun, hctl.slot0⟩)
      (.inl ⟨rfl, rfl⟩) hctl.bound nofun nofun
  case relseTo t =>
    split at hn
    · exact h.commitRelse hg nofun hn (h0 nofun) rfl hctl.dirty0 (.inl ⟨rfl, rfl⟩)
        (.inr ⟨nofun, ‹_›⟩) hctl.bound nofun nofun
    · cases hn
  case nextLog t =>
    split at hn <;> cases hn
    exact h.commitGoto hg nofun (h0 nofun) rfl ‹_› hctl.slot1 hctl.bound nofun nofun
  case readHead =>
    exact h.commitBread hg nofun hn (h0 nofun) rfl (.inl ⟨rfl, rfl⟩) (.inr ⟨nofun, hctl.slot1⟩)
      hctl.bound nofun nofun
  case setHead =>
    obtain ⟨i, hi, hn⟩ := hn
    cases hn
    exact h.setHead hg hp (held_eq hi) _
  case writeHead =>
    obtain ⟨i, hi, hn⟩ := hn
    cases hn
    exact h.writeHead hg hp (held_eq hi)
  case relseHead =>
    exact h.commitRelse hg nofun hn (h0 nofun) rfl hctl.dirty0 (.inl ⟨rfl, rfl⟩)
      (.inr ⟨nofun, hctl.slot1⟩) hctl.bound nofun nofun
  case headDone =>
    split at hn
    · split at hn
      · obtain ⟨r, hr, rfl⟩ := map_eq_some_iff.mp hn
        exact h.headDone hg ‹_› ‹_› hr
      · cases hn
        exact h.committed hg ‹_› ‹_›
      · cases hn
    · cases hn
  case readLbuf t =>
    split at hn
    · exact h.commitBread hg nofun hn (h0 nofun) rfl (.inl ⟨rfl, rfl⟩) (.inr ⟨nofun, hctl.slot1⟩)
        ‹_› nofun nofun
    · obtain ⟨r, hr, rfl⟩ := map_eq_some_iff.mp hn
      exact h.installed hg hp (not_lt.mp ‹_›) hr
  case readDbuf t =>
    obtain ⟨i, hi, hn⟩ := hn
    exact h.commitBread hg nofun hn (h0 nofun) rfl (.inr ⟨nofun, hctl.slot0.1, i, held_eq hi⟩)
      (.inl ⟨rfl, rfl⟩) hctl.bound nofun nofun
  case copyHome t =>
    obtain ⟨i, hi, j, hj, hn⟩ := hn
    cases hn
    exact h.copyHome hg hp (held_eq hi) (held_eq hj)
  case writeHome t =>
    obtain ⟨j, hj, hn⟩ := hn
    cases hn
    exact h.writeHome hg hp (held_eq hj)
  case unpin t =>
    obtain ⟨j, hj, s1, hs, hn⟩ := hn
    obtain ⟨c, hc, rfl⟩ := map_eq_some_iff.mp hs
    obtain ⟨r, hr, rfl⟩ := map_eq_some_iff.mp hn
    exact h.unpin hg hp (held_eq hj) hc hr
  case relseLbuf t =>
    exact h.commitRelse hg nofun hn (h0 nofun) rfl hctl.dirty0 (.inl ⟨rfl, rfl⟩)
      (.inr ⟨nofun, hctl.slot1⟩) hctl.bound nofun nofun
  case relseDbuf t =>
    split at hn
    · exact h.commitRelse hg nofun hn (h0 nofun) rfl hctl.dirty1 (.inr ⟨nofun, ‹_›⟩)
        (.inl ⟨rfl, rfl⟩) hctl.bound nofun nofun
    · cases hn
  case nextInstall t =>
    split at hn <;> cases hn
    exact h.commitGoto hg nofun (h0 nofun) rfl hctl.slot0 ‹_› hctl.bound nofun nofun

theorem useStep (h : Inv sb dev d₀ s) {act : Act n} (hn : useStep sb dev s u act = some s') :
    Inv sb dev d₀ s' := by
  cases act with
  | bread b =>
    simp only [Store.useStep] at hn
    split at hn
    · exact h.bread ‹_› hn
    · cases hn
  | acquiresleep => exact h.acquiresleep hn
  | fill =>
    simp only [Store.useStep] at hn
    split at hn
    · exact h.fill ‹_› hn
    · cases hn
  | modify v =>
    simp only [Store.useStep] at hn
    split at hn
    · next i hi =>
      split at hn <;> cases hn
      next hc => exact h.modify hc.1 (held_eq hi) hc.2 v
    · cases hn
  | logWrite p =>
    simp only [Store.useStep] at hn
    split at hn
    · next i hi =>
      split at hn
      · next hc =>
        simp only [Option.bind_eq_bind, bind_eq_some_iff] at hn
        obtain ⟨s1, hs1, hn⟩ := hn
        obtain ⟨t, ht, rfl⟩ := map_eq_some_iff.mp hs1
        split at hn
        · next hmem =>
          cases hn
          exact h.logWrite hc.1 (held_eq hi) hc.2 ht (.inl ⟨hmem, rfl⟩)
        · next hmem =>
          obtain ⟨s2, hs2, hn⟩ := bind_eq_some_iff.mp hn
          obtain ⟨c, hcc, rfl⟩ := map_eq_some_iff.mp hs2
          cases hn
          exact h.logWrite hc.1 (held_eq hi) hc.2 ht (.inr ⟨hmem, hcc⟩)
      · cases hn
    · cases hn
  | releasesleep =>
    simp only [Store.useStep] at hn
    split at hn
    · next hc => exact h.releasesleep hc.1 hc.2 hn
    · cases hn
  | drop => exact h.drop hn

theorem step {l : Lbl m n} (h : Inv sb dev d₀ s) (hn : (machine sb dev).next s l = some s') :
    Inv sb dev d₀ s' := by
  cases l with
  | use u act => exact h.useStep hn
  | beginOp p => exact h.beginOp hn
  | endOp p => exact h.endOp hn
  | commit p => exact h.commit hn

end Inv

theorem inv_boot (sb : Superblock) (dev : BitVec 32) (d₀ : Disk) :
    Inv sb dev d₀ (boot sb d₀ m n) := by
  have hq : ∀ q k, (boot sb d₀ m n).trans.pc q ≠ .install k := fun _ _ => nofun
  refine ⟨Trans.inv_boot _, rfl, zero_le _, .inl rfl, ?_, ?_⟩
  · refine ⟨⟨_, Cache.inv_binit⟩, nofun, nofun, nofun, fun i b _ hv => ?_, fun _ _ _ => rfl,
      fun b hb => ?_, fun b v ⟨t, ht, _⟩ => absurd ht (not_lt_zero t)⟩
    · cases hv
    · rw [show (St.view _ sb d₀ _).pending = _ from Inv.pending_of_quiet hq] at hb
      cases hb
  · exact ⟨rfl, rfl, rfl, rfl, zero_le _, .inl rfl, fun _ => hq, fun h => absurd rfl h,
      fun h => absurd rfl h, nofun, nofun⟩

/-! ## Transparency -/

/-- What the users see of the store is the block array `contents d₀ logged`. -/
structure Transparent (sb : Superblock) (dev : BitVec 32) (d₀ : Disk) (s : St m n) : Prop where
  /-- A `bread` returns the block. -/
  bread : ∀ u s', (machine sb dev).next s (.use u .fill) = some s' → ∃ i, s'.held u = some i ∧
    Is dev s'.cache i (s'.want u) ∧ s'.dirty u = false ∧
    (Home sb (s'.want u) → s'.data i = contents d₀ s'.logged (s'.want u))
  /-- It stays so until the caller changes it. -/
  held : ∀ u i, s.held u = some i → s.dirty u = false → Home sb (s.want u) →
    s.data i = contents d₀ s.logged (s.want u)
  /-- A buffer that `bget` may recycle holds nothing that is not on disk. -/
  evict : ∀ i, (s.cache.buf i).refcnt = 0 → (s.cache.buf i).dev = dev →
    (s.cache.buf i).valid = true → Home sb (s.cache.buf i).blockno →
    s.disk (s.cache.buf i).blockno = contents d₀ s.logged (s.cache.buf i).blockno
  /-- `install_trans` writes the newest contents of the home block. -/
  install : ∀ t j, s.stage = .writeHome t → s.held 1 = some j →
    Home sb (s.cache.buf j).blockno ∧ (s.cache.buf j).blockno = s.entry t ∧
    s.data j = contents d₀ s.logged (s.cache.buf j).blockno

theorem Inv.transparent {sb : Superblock} {dev : BitVec 32} {d₀ : Disk} {s : St m n}
    (h : Inv sb dev d₀ s) : Transparent sb dev d₀ s where
  bread := fun u s' hn => by
    have h' := h.step hn
    simp only [machine, Store.useStep] at hn
    split at hn
    · next i hi =>
      obtain ⟨c, hc, rfl⟩ := map_eq_some_iff.mp hn
      have hd : s.dirty u = false := h.coh.not_dirty fun j hj => by
        change s.cache.pc u = .holding j at hj
        rw [hi] at hj
        cases hj
      obtain ⟨j, hj, rfl⟩ := Cache.next_fill hc
      have hp : update s.cache.pc u (.holding j) u = .holding j := update_self ..
      refine ⟨j, ?_, h'.wanted hp, hd, fun hb => h'.data_eq hp rfl hd hb⟩
      simp [St.held]
    · cases hn
  held := fun u i hi hd hb => h.data_eq (Inv.held_eq hi) rfl hd hb
  evict := fun i h0 hdev hv hb => by
    refine h.coh.home _ hb fun hp => ?_
    -- a block that is not installed is in a pinned buffer, and no other one has it
    obtain ⟨-, j, hj, hjv, hjp⟩ := h.coh.pinned _ hp
    obtain rfl := h.coh.inj hj ⟨hdev, rfl⟩ (.inl hjv) (.inl hv)
    exact (h.coh.refcnt_of_pins hjp).ne' h0
  install := fun t j hg hj => by
    have hctl := h.ctl
    have hplace := h.ctl.place
    rw [hg] at hctl hplace
    obtain ⟨p, hp⟩ := hplace.resolve_left nofun
    have hw : s.want 1 = s.entry t := hctl.slot1.1
    have hb := (h.wanted (Inv.held_eq hj)).2.trans hw
    rw [hb]
    have hhome := h.entry_home hp rfl le_rfl hctl.bound
    exact ⟨hhome, rfl, h.data_eq (Inv.held_eq hj) hw hctl.dirty1 hhome⟩

/-- **The cache and the log are transparent.** -/
theorem bread_returns_last_logged {sb : Superblock} {dev : BitVec 32} {d₀ : Disk}
    {ls : List (Lbl m n)} {s : St m n} (hr : (machine sb dev).run (boot sb d₀ m n) ls = some s) :
    Transparent sb dev d₀ s :=
  (Machine.run_inv_all (fun h hn => h.step hn) (inv_boot sb dev d₀) hr).transparent

/-- `bread` by the use `u`, whose first step is `l`. -/
def readRun (l : Lbl 1 1) (u : Fin 3) : List (Lbl 1 1) :=
  [l, .use u .acquiresleep, .use u .fill]

/-- `brelse` by the use `u`, whose first step is `l`. -/
def relseRun (l : Lbl 1 1) (u : Fin 3) : List (Lbl 1 1) := [l, .use u .drop]

/-- A transaction changes the block 46, commits and installs it. Then the block is read again. -/
def commitRun : List (Lbl 1 1) :=
  let writeHead : List (Lbl 1 1) :=
    readRun (.commit 0) 0 ++ [.commit 0, .commit 0] ++ relseRun (.commit 0) 0 ++ [.commit 0]
  [.beginOp 0] ++ readRun (.use 2 (.bread 46)) 2 ++
    [.use 2 (.modify fun _ => 7), .use 2 (.logWrite 0)] ++ relseRun (.use 2 .releasesleep) 2 ++
    [.endOp 0, .commit 0] ++
    -- `write_log`
    readRun (.commit 0) 0 ++ readRun (.commit 0) 1 ++ [.commit 0, .commit 0] ++
    relseRun (.commit 0) 1 ++ relseRun (.commit 0) 0 ++ [.commit 0, .commit 0] ++ writeHead ++
    -- `install_trans`
    readRun (.commit 0) 0 ++ readRun (.commit 0) 1 ++ [.commit 0, .commit 0, .commit 0] ++
    relseRun (.commit 0) 0 ++ relseRun (.commit 0) 1 ++ [.commit 0, .commit 0] ++ writeHead ++
    [.commit 0] ++ readRun (.use 2 (.bread 46)) 2

theorem bread_returns_last_logged_commitRun : ∃ s,
    (machine ⟨4, 2⟩ 1).run (boot ⟨4, 2⟩ (fun _ _ => 0) 1 1) commitRun = some s ∧
    (s.held 2).map (fun i => s.data i ⟨0, by decide⟩) = some 7 ∧ s.disk 46 ⟨0, by decide⟩ = 7 ∧
    s.trans.pc 0 = .idle ∧ Transparent ⟨4, 2⟩ 1 (fun _ _ => 0) s := by
  have h : ((machine ⟨4, 2⟩ 1).run (boot ⟨4, 2⟩ (fun _ _ => 0) 1 1) commitRun).map (fun s =>
      decide ((s.held 2).map (fun i => s.data i ⟨0, by decide⟩) = some 7 ∧
        s.disk 46 ⟨0, by decide⟩ = 7 ∧ s.trans.pc 0 = .idle)) = some true := by
    decide +kernel
  obtain ⟨s, hs, h⟩ := map_eq_some_iff.mp h
  obtain ⟨hd, hk, hp⟩ := of_decide_eq_true h
  exact ⟨s, hs, hd, hk, hp, bread_returns_last_logged hs⟩

end Xv6.Store
