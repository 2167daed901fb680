import Xv6.Log.Code

/-!
# Crash atomicity of the redo log

The disk is recoverable at every step: running the header's installs over it gives the disk of the
commits that reached it. Recovery then computes just that disk.
-/

open Xv6.Run Function List

namespace Xv6.Log

/-! ## The header and the buffers -/

@[simp] theorem getHeader_putHeader (h : Block) (blocks : List Nat) :
    getHeader (putHeader h blocks) = blocks := by
  apply ext_getElem
  · simp [getHeader, putHeader]
  · intro i hi _
    simp only [getHeader, putHeader, length_map, length_range, if_true] at hi
    simp [getHeader, putHeader, getD_eq_getElem?_getD, List.getElem?_eq_getElem hi]

theorem getHeader_of_zero (h : Block) (h0 : h 0 = 0) : getHeader h = [] := by
  simp [getHeader, h0]

theorem content_bwrite (s : State) (b : Nat) (v : Block) (x : Nat) :
    (s.bwrite b v).content x = if x = b then v else s.content x := by
  by_cases hx : x = b
  · subst hx; simp [State.content, State.bwrite]
  · simp [State.content, State.bwrite, hx]

/-! ## Replay -/

theorem replay_append (ws vs : List Write) (d : Nat → Block) :
    replay (ws ++ vs) d = replay vs (replay ws d) := by
  simp [replay, Writes.apply_append]

theorem replay_snoc (ws : List Write) (w : Write) (d : Nat → Block) :
    replay (ws ++ [w]) d = update (replay ws d) w.block w.data := by
  simp [replay, Writes.apply_snoc]

theorem replay_other (ws : List Write) (d : Nat → Block) (b : Nat) (h : ∀ w ∈ ws, w.block ≠ b) :
    replay ws d b = d b := by
  apply Writes.apply_other
  intro w hw
  obtain ⟨v, hv, rfl⟩ := mem_map.mp hw
  exact h v hv

/-- The writes of the commits that reached the disk. -/
def State.done (s : State) : List Write := s.hist.filter fun w => w.op ∈ s.reachedOps

/-- The writes of every other operation. -/
def State.cur (s : State) : List Write := s.hist.filter fun w => w.op ∉ s.reachedOps

theorem done_of_all {s : State} (h : ∀ w ∈ s.hist, w.op ∈ s.reachedOps) : s.done = s.hist :=
  filter_eq_self.mpr fun w hw => by simpa using h w hw

theorem cur_of_all {s : State} (h : ∀ w ∈ s.hist, w.op ∈ s.reachedOps) : s.cur = [] :=
  filter_eq_nil_iff.mpr fun w hw => by simpa using h w hw

/-! ## The invariant -/

variable (r : Region)

/-- Installing what the header names turns the home blocks of `disk` into `D`. -/
structure Recoverable (disk D : Nat → Block) : Prop where
  nodup : (getHeader (disk r.start)).Nodup
  home : ∀ b ∈ getHeader (disk r.start), r.Home b
  room : (getHeader (disk r.start)).length < r.size
  logged : ∀ i b, (getHeader (disk r.start))[i]? = some b → disk (r.start + 1 + i) = D b
  rest : ∀ b, r.Home b → b ∉ getHeader (disk r.start) → disk b = D b

/-- The file system is up: the cache shows every write, and the dirty buffers are those logged. -/
structure Running (d : Nat → Block) (s : State) : Prop where
  shows : ∀ b, r.Home b → s.content b = replay s.hist d b
  dirty : ∀ b buf, s.cache b = some buf → buf.dirty = true → b ∈ s.lh
  pinned : ∀ b ∈ s.lh, ∃ buf, s.cache b = some buf ∧ buf.dirty = true
  logged : ∀ w ∈ s.cur, w.block ∈ s.lh
  mine : ∀ w ∈ s.cur, w.op ∈ (s.commits.drop s.reached).flatten ++ s.ended ++ s.active

/-- The home blocks that `install_trans` has written by `tail` hold their contents in `D`, and only
those after it may be dirty. -/
structure Installing (disk0 : List Nat) (D : Nat → Block) (s : State) (tail : Nat) : Prop where
  lh : s.lh = disk0
  upto : ∀ i b, i < tail → s.lh[i]? = some b → s.disk b = D b
  dirty : ∀ b buf, s.cache b = some buf → buf.dirty = true → ∃ i, tail ≤ i ∧ s.lh[i]? = some b

def Quiet (s : State) : Prop := s.outstanding = 0 ∧ s.active = [] ∧ s.ended = []

/-- What holds at each point of the control. -/
def Phase (d : Nat → Block) (s : State) : Ctl → Prop
  | .idle =>
    getHeader (s.disk r.start) = [] ∧ s.committing = false ∧ s.reached = s.commits.length ∧
    Running r d s
  | .writeLog tail =>
    getHeader (s.disk r.start) = [] ∧ s.committing = true ∧ Quiet s ∧
    s.commits.length = s.reached + 1 ∧ Running r d s ∧
    ∀ i b, i < tail → s.lh[i]? = some b → s.disk (r.start + 1 + i) = s.content b
  | .writeHead =>
    getHeader (s.disk r.start) = [] ∧ s.committing = true ∧ Quiet s ∧
    s.commits.length = s.reached + 1 ∧ Running r d s ∧
    ∀ i b, s.lh[i]? = some b → s.disk (r.start + 1 + i) = s.content b
  | .install tail =>
    s.committing = true ∧ Quiet s ∧ s.reached = s.commits.length ∧ s.cur = [] ∧
    (∀ b, r.Home b → s.content b = replay s.hist d b) ∧
    Installing (getHeader (s.disk r.start)) (replay s.done d) s tail
  | .clearHead =>
    s.committing = true ∧ Quiet s ∧ s.reached = s.commits.length ∧ s.cur = [] ∧
    (∀ b, r.Home b → s.content b = replay s.hist d b) ∧ s.lh = [] ∧
    (∀ b, r.Home b → s.disk b = replay s.done d b) ∧
    ∀ b buf, s.cache b = some buf → buf.dirty = false
  | .down => Quiet s ∧ s.committing = false ∧ s.lh = [] ∧ s.cache = fun _ => none
  | .recover tail =>
    Quiet s ∧ s.committing = false ∧
    Installing (getHeader (s.disk r.start)) (replay s.done d) s tail ∧
    ∀ b buf, s.cache b = some buf → buf.dirty = false
  | .recoverClear =>
    Quiet s ∧ s.committing = false ∧ s.lh = [] ∧
    (∀ b, r.Home b → s.disk b = replay s.done d b) ∧
    ∀ b buf, s.cache b = some buf → buf.dirty = false

structure Inv (d : Nat → Block) (s : State) : Prop where
  recov : Recoverable r s.disk (replay s.done d)
  clean : ∀ b buf, s.cache b = some buf → buf.dirty = false → buf.data = s.disk b
  split : s.hist = s.done ++ s.cur
  nodup : s.lh.Nodup
  home : ∀ b ∈ s.lh, r.Home b
  room : s.lh.length < r.size
  count : s.outstanding = s.active.length
  fresh : (s.commits.flatten ++ s.ended ++ s.active).Nodup
  bound : ∀ op ∈ s.commits.flatten ++ s.ended ++ s.active, op < s.nextOp
  reach : s.reached ≤ s.commits.length
  phase : Phase r d s s.ctl

variable {r} {d : Nat → Block} {s s' : State}

/-! ## Reading through the cache -/

/-- Steps that only move clean blocks in or out of the cache. -/
structure SameBlocks (s : State) (cache : Nat → Option Buf) : Prop where
  content : ∀ b, ({ s with cache := cache } : State).content b = s.content b
  new : ∀ b buf, cache b = some buf →
    s.cache b = some buf ∨ buf.dirty = false ∧ buf.data = s.disk b
  keep : ∀ b buf, s.cache b = some buf → buf.dirty = true → cache b = some buf

theorem SameBlocks.dirty {cache : Nat → Option Buf} (h : SameBlocks s cache) {b : Nat} {buf : Buf}
    (hb : cache b = some buf) (hd : buf.dirty = true) : s.cache b = some buf := by
  rcases h.new b buf hb with h1 | ⟨h1, -⟩
  · exact h1
  · rw [h1] at hd; cases hd

theorem SameBlocks.all_clean {cache : Nat → Option Buf} (h : SameBlocks s cache)
    (hc : ∀ b buf, s.cache b = some buf → buf.dirty = false) (b : Nat) (buf : Buf)
    (hb : cache b = some buf) : buf.dirty = false := by
  rcases h.new b buf hb with h1 | ⟨h1, -⟩
  · exact hc b buf h1
  · exact h1

theorem SameBlocks.running {cache : Nat → Option Buf} (h : SameBlocks s cache)
    (hr : Running r d s) : Running r d { s with cache := cache } where
  shows b hb := (h.content b).trans (hr.shows b hb)
  dirty b buf hb hd := hr.dirty b buf (h.dirty hb hd) hd
  pinned b hb := by
    obtain ⟨buf, hc, hd⟩ := hr.pinned b hb
    exact ⟨buf, h.keep b buf hc hd, hd⟩
  logged := hr.logged
  mine := hr.mine

theorem SameBlocks.installing {cache : Nat → Option Buf} (h : SameBlocks s cache) {l : List Nat}
    {D : Nat → Block} {tail : Nat} (hi : Installing l D s tail) :
    Installing l D { s with cache := cache } tail where
  lh := hi.lh
  upto := hi.upto
  dirty b buf hb hd := hi.dirty b buf (h.dirty hb hd) hd

theorem SameBlocks.phase {cache : Nat → Option Buf} (h : SameBlocks s cache) {c : Ctl}
    (hup : c ≠ .down) (hp : Phase r d s c) : Phase r d { s with cache := cache } c := by
  cases c with
  | down => exact absurd rfl hup
  | idle => exact ⟨hp.1, hp.2.1, hp.2.2.1, h.running hp.2.2.2⟩
  | writeLog tail =>
    obtain ⟨h1, h2, h3, h4, h5, h6⟩ := hp
    exact ⟨h1, h2, h3, h4, h.running h5, fun i b hi hb => (h6 i b hi hb).trans (h.content b).symm⟩
  | writeHead =>
    obtain ⟨h1, h2, h3, h4, h5, h6⟩ := hp
    exact ⟨h1, h2, h3, h4, h.running h5, fun i b hb => (h6 i b hb).trans (h.content b).symm⟩
  | install tail =>
    obtain ⟨h1, h2, h3, h4, h5, h6⟩ := hp
    exact ⟨h1, h2, h3, h4, fun b hb => (h.content b).trans (h5 b hb), h.installing h6⟩
  | clearHead =>
    obtain ⟨h1, h2, h3, h4, h5, h6, h7, h8⟩ := hp
    exact ⟨h1, h2, h3, h4, fun b hb => (h.content b).trans (h5 b hb), h6, h7, h.all_clean h8⟩
  | recover tail =>
    obtain ⟨h1, h2, h3, h4⟩ := hp
    exact ⟨h1, h2, h.installing h3, h.all_clean h4⟩
  | recoverClear =>
    obtain ⟨h1, h2, h3, h4, h5⟩ := hp
    exact ⟨h1, h2, h3, h4, h.all_clean h5⟩

theorem inv_sameBlocks {cache : Nat → Option Buf} (hi : Inv r d s) (h : SameBlocks s cache)
    (hup : s.ctl ≠ .down) : Inv r d { s with cache := cache } where
  recov := hi.recov
  clean b buf hb hd := by
    rcases h.new b buf hb with h1 | ⟨-, h1⟩
    · exact hi.clean b buf h1 hd
    · exact h1
  split := hi.split
  nodup := hi.nodup
  home := hi.home
  room := hi.room
  count := hi.count
  fresh := hi.fresh
  bound := hi.bound
  reach := hi.reach
  phase := h.phase hup hi.phase

theorem sameBlocks_fill {b : Nat} (hb : s.cache b = none) :
    SameBlocks s (update s.cache b (some { data := s.disk b, dirty := false })) where
  content x := by
    by_cases hx : x = b
    · subst hx; simp [State.content, hb]
    · simp [State.content, hx]
  new x buf h := by
    by_cases hx : x = b
    · subst hx
      simp only [update_self, Option.some.injEq] at h
      subst h
      exact .inr ⟨rfl, rfl⟩
    · exact .inl (by simpa [hx] using h)
  keep x buf h hd := by
    by_cases hx : x = b
    · subst hx; rw [hb] at h; cases h
    · simpa [hx] using h

theorem sameBlocks_evict (hi : Inv r d s) {b : Nat} {buf : Buf} (hb : s.cache b = some buf)
    (hd : buf.dirty = false) : SameBlocks s (update s.cache b none) where
  content x := by
    by_cases hx : x = b
    · subst hx; simp [State.content, hb, hi.clean x buf hb hd]
    · simp [State.content, hx]
  new x buf' h := by
    by_cases hx : x = b
    · subst hx; simp at h
    · exact .inl (by simpa [hx] using h)
  keep x buf' h hd' := by
    by_cases hx : x = b
    · subst hx
      rw [hb] at h
      obtain rfl := Option.some.inj h
      rw [hd] at hd'; cases hd'
    · simpa [hx] using h

/-! ## Operations -/

theorem Phase.active_nil {c : Ctl} (hc : c ≠ .idle) (hp : Phase r d s c) : s.active = [] := by
  cases c with
  | idle => exact absurd rfl hc
  | writeLog tail | writeHead => exact hp.2.2.1.2.1
  | install tail | clearHead => exact hp.2.1.2.1
  | down | recover tail | recoverClear => exact hp.1.2.1

theorem Inv.idle_of_active (hi : Inv r d s) {op : Nat} (hop : op ∈ s.active) : s.ctl = .idle := by
  by_contra hc
  rw [hi.phase.active_nil hc] at hop
  simp at hop

theorem Inv.idle (hi : Inv r d s) (hc : s.ctl = .idle) : Phase r d s .idle := hc ▸ hi.phase

theorem reachedOps_subset {op : Nat} (h : op ∈ s.reachedOps) : op ∈ s.commits.flatten := by
  obtain ⟨l, hl, hop⟩ := mem_flatten.mp h
  exact mem_flatten.mpr ⟨l, mem_of_mem_take hl, hop⟩

theorem Inv.active_not_reached (hi : Inv r d s) {op : Nat} (hop : op ∈ s.active) :
    op ∉ s.reachedOps := by
  intro h
  have hn := hi.fresh
  rw [append_assoc] at hn
  exact (nodup_append.mp hn).2.2 op (reachedOps_subset h) op
    (mem_append_right _ hop) rfl

theorem inv_begin_op (hi : Inv r d s) (h : begin_op s = some s') : Inv r d s' := by
  unfold begin_op at h
  split at h
  · next hg =>
    obtain ⟨hc, hcom, -⟩ := hg
    obtain rfl := (Option.some.inj h).symm
    obtain ⟨h1, h2, h3, h4⟩ := hi.idle hc
    have hnew : s.nextOp ∉ s.commits.flatten ++ s.ended ++ s.active :=
      fun hm => Nat.lt_irrefl _ (hi.bound _ hm)
    refine ⟨hi.recov, hi.clean, hi.split, hi.nodup, hi.home, hi.room, ?_, ?_, ?_, hi.reach, ?_⟩
    · simp [hi.count]
    · have := nodup_cons.mpr ⟨hnew, hi.fresh⟩
      exact perm_middle.nodup_iff.mpr this
    · intro op hop
      simp only [mem_append, mem_cons] at hop
      have hb := hi.bound op
      simp only [mem_append] at hb
      dsimp only
      rcases hop with hop | rfl | hop
      · have := hb (.inl hop); omega
      · omega
      · have := hb (.inr hop); omega
    · dsimp only
      rw [hc]
      refine ⟨h1, h2, h3, h4.shows, h4.dirty, h4.pinned, h4.logged, ?_⟩
      intro w hw
      have := h4.mine w hw
      simp only [mem_append, mem_cons] at this ⊢
      tauto
  · cases h

theorem done_record {op b : Nat} {data : Block} (hop : op ∉ s.reachedOps) :
    (s.record op b data).done = s.done := by
  change (s.hist ++ [_]).filter (fun w : Write => w.op ∈ s.reachedOps) = s.done
  simp [State.done, hop]

theorem cur_record {op b : Nat} {data : Block} (hop : op ∉ s.reachedOps) :
    (s.record op b data).cur = s.cur ++ [{ op := op, block := b, data := data }] := by
  change (s.hist ++ [_]).filter (fun w : Write => w.op ∉ s.reachedOps) = _
  simp [State.cur, hop]

theorem content_record (op b x : Nat) (data : Block) :
    (s.record op b data).content x = update s.content b data x := by
  by_cases hx : x = b
  · subst hx; simp [State.content, State.record]
  · simp [State.content, State.record, hx]

theorem mem_absorb (l : List Nat) (b x : Nat) :
    x ∈ (if b ∈ l then l else l ++ [b]) ↔ x ∈ l ∨ x = b := by
  by_cases hb : b ∈ l
  · simp only [hb, if_true]
    constructor
    · exact .inl
    · rintro (h | rfl)
      · exact h
      · exact hb
  · simp [hb]

theorem nodup_absorb {l : List Nat} (b : Nat) (h : l.Nodup) :
    (if b ∈ l then l else l ++ [b]).Nodup := by
  by_cases hb : b ∈ l
  · simpa [hb] using h
  · simp only [hb, if_false]
    exact nodup_append.mpr ⟨h, by simp, by rintro x hx y hy rfl; simp_all⟩

theorem running_record (hr : Running r d s) {op b : Nat} {data : Block} (hop : op ∈ s.active)
    (hnr : op ∉ s.reachedOps) : Running r d (s.record op b data) := by
  refine ⟨?_, ?_, ?_, ?_, ?_⟩
  · intro x hx
    change _ = replay (s.hist ++ [_]) d x
    rw [content_record, replay_snoc]
    by_cases hxb : x = b
    · subst hxb; simp
    · simp [hxb, hr.shows x hx]
  · intro x buf hx hd
    refine (mem_absorb _ _ _).mpr ?_
    by_cases hxb : x = b
    · exact .inr hxb
    · exact .inl (hr.dirty x buf (by simpa [State.record, hxb] using hx) hd)
  · intro x hx
    have hx := (mem_absorb _ _ _).mp hx
    by_cases hxb : x = b
    · subst hxb; exact ⟨_, update_self .., rfl⟩
    · obtain ⟨buf, hc, hd⟩ := hr.pinned x (hx.resolve_right hxb)
      exact ⟨buf, by simpa [State.record, hxb] using hc, hd⟩
  · intro w hw
    rw [cur_record hnr, mem_append, mem_singleton] at hw
    refine (mem_absorb _ _ _).mpr ?_
    rcases hw with hw | rfl
    · exact .inl (hr.logged w hw)
    · exact .inr rfl
  · intro w hw
    rw [cur_record hnr, mem_append, mem_singleton] at hw
    rcases hw with hw | rfl
    · exact hr.mine w hw
    · exact mem_append_right _ hop

/-- The log has room for the block when `log_write` has the lock. -/
def RoomFor (r : Region) (s : State) (b : Nat) : Prop := b ∈ s.lh ∨ s.lh.length + 1 < r.size

theorem inv_passed (hi : Inv r d s) (hc : s.ctl = .idle) (passed : List Nat)
    (panicked : Option String) : Inv r d { s with passed := passed, panicked := panicked } := by
  obtain ⟨h1, h2, h3, h4⟩ := hi.idle hc
  refine ⟨hi.recov, hi.clean, hi.split, hi.nodup, hi.home, hi.room, hi.count, hi.fresh, hi.bound,
    hi.reach, ?_⟩
  dsimp only
  rw [hc]
  exact ⟨h1, h2, h3, h4.shows, h4.dirty, h4.pinned, h4.logged, h4.mine⟩

theorem inv_log_check (hi : Inv r d s) {op : Nat} (hop : op ∈ s.active) :
    Inv r d (log_check r s op) := by
  have hc := hi.idle_of_active hop
  unfold log_check
  split
  · exact inv_passed hi hc s.passed _
  · split
    · exact inv_passed hi hc s.passed _
    · exact inv_passed hi hc _ s.panicked

theorem inv_record (hi : Inv r d s) {op b : Nat} {data : Block} (hop : op ∈ s.active)
    (hb : r.Home b) (hroom : RoomFor r s b) : Inv r d (s.record op b data) := by
  have hc := hi.idle_of_active hop
  obtain ⟨h1, h2, h3, h4⟩ := hi.idle hc
  have hnr := hi.active_not_reached hop
  refine ⟨?_, ?_, ?_, nodup_absorb b hi.nodup, ?_, ?_, hi.count, hi.fresh, hi.bound, hi.reach, ?_⟩
  · rw [done_record hnr]; exact hi.recov
  · intro x buf hx hd
    by_cases hxb : x = b
    · subst hxb
      simp only [State.record, update_self, Option.some.injEq] at hx
      subst hx; cases hd
    · exact hi.clean x buf (by simpa [State.record, hxb] using hx) hd
  · rw [done_record hnr, cur_record hnr, ← append_assoc, ← hi.split]; rfl
  · intro x hx
    rcases (mem_absorb _ _ _).mp hx with hx | rfl
    · exact hi.home x hx
    · exact hb
  · have hold := hi.room
    change (if b ∈ s.lh then s.lh else s.lh ++ [b]).length < r.size
    rcases hroom with hin | hlt
    · rw [if_pos hin]
      exact hold
    · split
      · exact hold
      · simpa using hlt
  · change Phase r d (s.record op b data) s.ctl
    rw [hc]
    exact ⟨h1, h2, h3, running_record h4 hop hnr⟩

theorem inv_log_write (hi : Inv r d s) {op b : Nat} {data : Block} (hop : op ∈ s.active)
    (hb : r.Home b) (hroom : RoomFor r s b) : Inv r d (log_write s op b data) :=
  inv_passed (inv_record hi hop hb hroom) (hi.idle_of_active hop) _ s.panicked

theorem perm_end_op {s : State} {op : Nat} (hop : op ∈ s.active) :
    (s.commits.flatten ++ (s.ended ++ [op]) ++ s.active.erase op).Perm
      (s.commits.flatten ++ s.ended ++ s.active) := by
  have h1 : (op :: s.active.erase op).Perm s.active := (perm_cons_erase hop).symm
  simpa using h1.append_left (s.commits.flatten ++ s.ended)

theorem reachedOps_snoc (s : State) (c : List Nat) (h : s.reached = s.commits.length) :
    ((s.commits ++ [c]).take (s.reached + 1)).flatten = s.reachedOps ++ c := by
  have : (s.commits ++ [c]).take (s.reached + 1) = s.commits ++ [c] := by
    apply take_of_length_le; simp [h]
  rw [this, State.reachedOps, h, take_length]
  simp

/-- What `end_op` leaves alone. -/
structure Ended (s s' : State) (op : Nat) : Prop where
  disk : s'.disk = s.disk
  cache : s'.cache = s.cache
  lh : s'.lh = s.lh
  hist : s'.hist = s.hist
  bound : s'.nextOp = s.nextOp
  count : s'.outstanding = s.outstanding - 1
  active : s'.active = s.active.erase op

theorem end_op_cases {op : Nat} (h : end_op s op = some s') :
    s.committing = false ∧ Ended s s' op ∧
    ((s'.outstanding = 0 ∧ s.lh = [] ∧ s'.commits = s.commits ++ [s.ended ++ [op]] ∧ s'.ended = [] ∧
        s'.reached = s.reached + 1 ∧ s'.ctl = s.ctl ∧ s'.committing = false) ∨
      (s'.outstanding = 0 ∧ s'.commits = s.commits ++ [s.ended ++ [op]] ∧ s'.ended = [] ∧
        s'.reached = s.reached ∧ s'.ctl = .writeLog 0 ∧ s'.committing = true) ∨
      (s'.commits = s.commits ∧ s'.ended = s.ended ++ [op] ∧ s'.reached = s.reached ∧
        s'.ctl = s.ctl ∧ s'.committing = false ∧ s'.outstanding ≠ 0)) := by
  unfold end_op at h
  split at h
  · cases h
  next hcom =>
  have hcom : s.committing = false := by simpa using hcom
  dsimp only at h
  split at h
  · next hlast =>
    split at h
    · next hlh =>
      obtain rfl := (Option.some.inj h).symm
      exact ⟨hcom, ⟨rfl, rfl, rfl, rfl, rfl, rfl, rfl⟩,
        .inl ⟨hlast, hlh, rfl, rfl, rfl, rfl, hcom⟩⟩
    · obtain rfl := (Option.some.inj h).symm
      exact ⟨hcom, ⟨rfl, rfl, rfl, rfl, rfl, rfl, rfl⟩,
        .inr (.inl ⟨hlast, rfl, rfl, rfl, rfl, rfl⟩)⟩
  · next hlast =>
    obtain rfl := (Option.some.inj h).symm
    exact ⟨hcom, ⟨rfl, rfl, rfl, rfl, rfl, rfl, rfl⟩, .inr (.inr ⟨rfl, rfl, rfl, rfl, hcom, hlast⟩)⟩

theorem inv_ended {op : Nat} (hi : Inv r d s) (hop : op ∈ s.active) (he : Ended s s' op)
    (hlive : s'.commits.flatten ++ s'.ended = s.commits.flatten ++ (s.ended ++ [op]))
    (hdone : s'.done = s.done) (hcur : s'.cur = s.cur) (hreach : s'.reached ≤ s'.commits.length)
    (hp : Phase r d s' s'.ctl) : Inv r d s' := by
  have hperm : (s'.commits.flatten ++ s'.ended ++ s'.active).Perm
      (s.commits.flatten ++ s.ended ++ s.active) := by
    rw [hlive, he.active]; exact perm_end_op hop
  refine ⟨?_, ?_, ?_, ?_, ?_, ?_, ?_, ?_, ?_, hreach, hp⟩
  · rw [he.disk, hdone]; exact hi.recov
  · rw [he.cache, he.disk]; exact hi.clean
  · rw [he.hist, hdone, hcur]; exact hi.split
  · rw [he.lh]; exact hi.nodup
  · rw [he.lh]; exact hi.home
  · rw [he.lh]; exact hi.room
  · rw [he.count, he.active, length_erase_of_mem hop, hi.count]
  · exact hperm.nodup_iff.mpr hi.fresh
  · intro x hx
    rw [he.bound]; exact hi.bound x (hperm.mem_iff.mp hx)

theorem running_ended {op : Nat} (hr : Running r d s) (he : Ended s s' op)
    (hcur : s'.cur = s.cur) (hnone : (s.commits.drop s.reached).flatten = [])
    (hlive : ∀ x ∈ s.ended ++ [op], x ∈ (s'.commits.drop s'.reached).flatten ++ s'.ended ∨
      s.cur = []) : Running r d s' where
  shows b hb := by
    rw [he.hist, ← hr.shows b hb]
    simp only [State.content, he.cache, he.disk]
  dirty := by rw [he.cache, he.lh]; exact hr.dirty
  pinned := by rw [he.cache, he.lh]; exact hr.pinned
  logged := by rw [hcur, he.lh]; exact hr.logged
  mine w hw := by
    rw [hcur] at hw
    have hne : s.cur ≠ [] := ne_nil_of_mem hw
    have hm := hr.mine w hw
    rw [hnone, nil_append, mem_append] at hm
    rw [he.active, mem_append]
    by_cases hwo : w.op = op
    · left
      exact (hlive w.op (by simp [hwo])).resolve_right hne
    · rcases hm with hm | hm
      · left
        exact (hlive w.op (by simp [hm])).resolve_right hne
      · right
        exact (mem_erase_of_ne hwo).mpr hm

theorem inv_end_op (hi : Inv r d s) {op : Nat} (hop : op ∈ s.active) (h : end_op s op = some s') :
    Inv r d s' := by
  have hc := hi.idle_of_active hop
  obtain ⟨h1, h2, h3, h4⟩ := hi.idle hc
  have hnone : (s.commits.drop s.reached).flatten = [] := by rw [h3, drop_length]; rfl
  obtain ⟨-, he, hcases⟩ := end_op_cases h
  have hquiet : s'.outstanding = 0 → s'.ended = [] → Quiet s' := by
    intro hz hend
    refine ⟨hz, eq_nil_of_length_eq_zero ?_, hend⟩
    rw [he.active, length_erase_of_mem hop, ← hi.count, ← he.count, hz]
  rcases hcases with ⟨hz, hlh, hcom, hend, hre, hctl, hcm⟩ | ⟨hz, hcom, hend, hre, hctl, hcm⟩ |
    ⟨hcom, hend, hre, hctl, hcm, -⟩
  · -- Nothing was logged, so the commit is over and covers no write.
    have hcur : s.cur = [] := by
      rcases hl : s.cur with _ | ⟨w, ws⟩
      · rfl
      · have := h4.logged w (by simp [hl])
        rw [hlh] at this
        simp at this
    have hall : ∀ w ∈ s.hist, w.op ∈ s.reachedOps := by
      intro w hw
      rw [hi.split, hcur, append_nil] at hw
      simpa using (mem_filter.mp hw).2
    have hall' : ∀ w ∈ s'.hist, w.op ∈ s'.reachedOps := by
      intro w hw
      rw [State.reachedOps, hcom, hre, reachedOps_snoc _ _ h3]
      exact mem_append_left _ (hall w (he.hist ▸ hw))
    have hcur' : s'.cur = s.cur := by rw [hcur, cur_of_all hall']
    refine inv_ended hi hop he (by simp [hcom, hend]) ?_ hcur' (by simp [hre, hcom, h3]) ?_
    · rw [done_of_all hall, done_of_all hall', he.hist]
    · rw [hctl, hc]
      refine ⟨by rw [he.disk]; exact h1, hcm, by simp [hre, hcom, h3], ?_⟩
      exact running_ended h4 he hcur' hnone (fun _ _ => .inr hcur)
  · -- The commit starts. Its operations are those of every write not yet on the disk.
    have hrops : s'.reachedOps = s.reachedOps := by
      simp only [State.reachedOps, hcom, hre, h3]
      simp
    have hdone : s'.done = s.done := by simp only [State.done, hrops, he.hist]
    have hcur : s'.cur = s.cur := by simp only [State.cur, hrops, he.hist]
    refine inv_ended hi hop he (by simp [hcom, hend]) hdone hcur (by simp [hre, hcom, h3]) ?_
    rw [hctl]
    refine ⟨by rw [he.disk]; exact h1, hcm, hquiet hz hend, by simp [hre, hcom, h3], ?_, ?_⟩
    · refine running_ended h4 he hcur hnone fun x hx => .inl ?_
      rw [hcom, hre, h3, drop_append_of_le_length (Nat.le_refl _), drop_length]
      simpa [hend] using hx
    · intro i b hi0
      omega
  · have hrops : s'.reachedOps = s.reachedOps := by simp only [State.reachedOps, hcom, hre]
    have hdone : s'.done = s.done := by simp only [State.done, hrops, he.hist]
    have hcur : s'.cur = s.cur := by simp only [State.cur, hrops, he.hist]
    refine inv_ended hi hop he (by simp [hcom, hend]) hdone hcur (by simp [hre, hcom, h3]) ?_
    rw [hctl, hc]
    refine ⟨by rw [he.disk]; exact h1, hcm, by simp [hre, hcom, h3], ?_⟩
    refine running_ended h4 he hcur hnone fun x hx => .inl ?_
    rw [hend]
    exact mem_append_right _ hx

end Xv6.Log
