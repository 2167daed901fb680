import Xv6.Log.Commit

/-!
# Crash atomicity

The history fields of the state are tied to the run: the writes they hold are the `log_write`s of
the run, and the operations of a commit have all made their `end_op`.
-/

open Xv6.Run Function List

namespace Xv6.Log

/-- The `log_write`s of a run, in order. -/
def written (tr : List (State × Act)) : List Write :=
  tr.filterMap fun x =>
    match x.2 with
    | .log_write op b data => some { op := op, block := b, data := data }
    | _ => none

def Completed (tr : List (State × Act)) (op : Nat) : Prop := ∃ s, (s, Act.end_op op) ∈ tr

/-- At this step the header that covers the operations `ops` goes to the disk. -/
def WritesHeader (x : State × Act) (ops : List Nat) : Prop :=
  x.2 = .commit ∧ x.1.ctl = .writeHead ∧ x.1.commits[x.1.reached]? = some ops

/-- The operations that no crash has undone, with those still to come. -/
def Alive (s : State) (op : Nat) : Prop :=
  op ∈ s.commits.flatten ++ s.ended ++ s.active ∨ s.nextOp ≤ op

structure Traced (tr : List (State × Act)) (s : State) : Prop where
  old : ∀ w ∈ written tr, w.op < s.nextOp
  kept : ∃ keep : Nat → Bool, s.hist = (written tr).filter (fun w => keep w.op) ∧
    ∀ op, Alive s op → keep op = true
  complete : ∀ op ∈ s.commits.flatten ++ s.ended, Completed tr op
  headers : ∀ x ∈ tr, ∀ ops, WritesHeader x ops → ∀ op ∈ ops, op ∈ s.reachedOps

variable {r : Region} {d : Nat → Block} {s s' : State} {tr : List (State × Act)} {a : Act}

/-! ## One step -/

theorem written_snoc (tr : List (State × Act)) (s : State) (a : Act) :
    written (tr ++ [(s, a)]) = written tr ++ written [(s, a)] := by
  simp [written]

theorem Completed.snoc {op : Nat} (h : Completed tr op) : Completed (tr ++ [(s, a)]) op := by
  obtain ⟨s0, h0⟩ := h
  exact ⟨s0, mem_append_left _ h0⟩

/-- How a step that is not a `log_write` changes the history. -/
structure Moves (s s' : State) (a : Act) : Prop where
  silent : written [(s, a)] = []
  bound : s.nextOp ≤ s'.nextOp
  hist : s'.hist = s.hist ∨ s'.hist = s.done ∧ ∀ op, Alive s' op → op ∈ s.reachedOps ∨ s.nextOp ≤ op
  alive : ∀ op, Alive s' op → Alive s op
  complete : ∀ op ∈ s'.commits.flatten ++ s'.ended,
    op ∈ s.commits.flatten ++ s.ended ∨ a = .end_op op
  reached : ∀ op ∈ s.reachedOps, op ∈ s'.reachedOps
  header : ∀ ops, WritesHeader (s, a) ops → ∀ op ∈ ops, op ∈ s'.reachedOps

theorem Moves.kept (h : Moves s s' a) (ht : Traced tr s) :
    ∃ keep : Nat → Bool, s'.hist = (written tr).filter (fun w => keep w.op) ∧
      ∀ op, Alive s' op → keep op = true := by
  obtain ⟨keep, hk, hal⟩ := ht.kept
  rcases h.hist with hh | ⟨hh, hdrop⟩
  · exact ⟨keep, hh.trans hk, fun op hop => hal op (h.alive op hop)⟩
  · -- Recovery drops what did not reach the disk, and no write is of an operation still to come.
    refine ⟨fun op => keep op && decide (op ∈ s.reachedOps ∨ s.nextOp ≤ op), ?_, ?_⟩
    · rw [hh, State.done, hk, filter_filter]
      apply filter_congr
      intro w hw
      have hlt := ht.old w hw
      have hno : ¬ s.nextOp ≤ w.op := by omega
      simp [hno, Bool.and_comm]
    · intro op hop
      simp [hal op (h.alive op hop), hdrop op hop]

theorem Moves.traced (h : Moves s s' a) (ht : Traced tr s) : Traced (tr ++ [(s, a)]) s' := by
  have hw : written (tr ++ [(s, a)]) = written tr := by rw [written_snoc, h.silent, append_nil]
  refine ⟨?_, by rw [hw]; exact h.kept ht, ?_, ?_⟩
  · intro w hm
    rw [hw] at hm
    exact Nat.lt_of_lt_of_le (ht.old w hm) h.bound
  · intro op hop
    rcases h.complete op hop with hop | rfl
    · exact (ht.complete op hop).snoc
    · exact ⟨s, by simp⟩
  · intro x hx ops hops op hop
    rcases mem_append.mp hx with hx | hx
    · exact h.reached op (ht.headers x hx ops hops op hop)
    · rw [mem_singleton] at hx
      subst hx
      exact h.header ops hops op hop

theorem moves_same (hw : written [(s, a)] = []) (hh : ∀ ops, ¬ WritesHeader (s, a) ops)
    (h : s'.nextOp = s.nextOp ∧ s'.hist = s.hist ∧ s'.commits = s.commits ∧ s'.reached = s.reached ∧
      s'.active = s.active ∧ s'.ended = s.ended) : Moves s s' a := by
  obtain ⟨h1, h2, h3, h4, h5, h6⟩ := h
  refine ⟨hw, Nat.le_of_eq h1.symm, .inl h2, ?_, ?_, ?_, fun ops hops => absurd hops (hh ops)⟩
  · intro op hop
    simpa only [Alive, h1, h3, h5, h6] using hop
  · intro op hop
    rw [h3, h6] at hop
    exact .inl hop
  · intro op hop
    simpa only [State.reachedOps, h3, h4] using hop

theorem moves_cache (cache : Nat → Option Buf) (hw : written [(s, a)] = []) (ha : a ≠ .commit) :
    Moves s { s with cache := cache } a :=
  moves_same hw (fun _ hops => ha hops.1) ⟨rfl, rfl, rfl, rfl, rfl, rfl⟩

theorem moves_begin_op (h : begin_op s = some s') : Moves s s' .begin_op := by
  unfold begin_op at h
  split at h
  · obtain rfl := (Option.some.inj h).symm
    refine ⟨rfl, Nat.le_succ _, .inl rfl, ?_, fun op hop => .inl hop, fun op hop => hop, ?_⟩
    · intro op hop
      simp only [Alive, mem_append, mem_cons] at hop ⊢
      rcases hop with (hop | rfl | hop) | hop
      · exact .inl (.inl hop)
      · exact .inr (Nat.le_refl _)
      · exact .inl (.inr hop)
      · exact .inr (by omega)
    · rintro ops ⟨h, -⟩
      cases h
  · cases h

theorem moves_end_op {op : Nat} (hi : Inv r d s) (hop : op ∈ s.active) (h : end_op s op = some s') :
    Moves s s' (.end_op op) := by
  obtain ⟨-, he, hcases⟩ := end_op_cases h
  have hlive : s'.commits.flatten ++ s'.ended = s.commits.flatten ++ (s.ended ++ [op]) := by
    rcases hcases with ⟨-, -, hc, hn, -⟩ | ⟨-, hc, hn, -⟩ | ⟨hc, hn, -⟩ <;> simp [hc, hn]
  have hreach : ∀ x ∈ s.reachedOps, x ∈ s'.reachedOps := by
    intro x hx
    have htake : ∀ n, s.reached ≤ n →
        x ∈ ((s.commits ++ [s.ended ++ [op]]).take n).flatten := by
      intro n hn
      obtain ⟨l, hl, hxl⟩ := mem_flatten.mp hx
      refine mem_flatten.mpr ⟨l, ?_, hxl⟩
      rw [← take_append_of_le_length hi.reach] at hl
      exact (take_prefix_take_left hn).subset hl
    rcases hcases with ⟨-, -, hc, -, hr, -⟩ | ⟨-, hc, -, hr, -⟩ | ⟨hc, -, hr, -⟩
    · simpa only [State.reachedOps, hc, hr] using htake _ (Nat.le_succ _)
    · simpa only [State.reachedOps, hc, hr] using htake _ (Nat.le_refl _)
    · simpa only [State.reachedOps, hc, hr] using hx
  refine ⟨rfl, Nat.le_of_eq he.bound.symm, .inl he.hist, ?_, ?_, hreach, ?_⟩
  · intro x hx
    have hperm := perm_end_op hop
    rcases hx with hx | hx
    · rw [hlive, he.active] at hx
      exact .inl (hperm.mem_iff.mp hx)
    · exact .inr (he.bound ▸ hx)
  · intro x hx
    rw [hlive, ← append_assoc, mem_append, mem_singleton] at hx
    rcases hx with hx | rfl
    · exact .inl hx
    · exact .inr rfl
  · rintro ops ⟨h, -⟩
    cases h

theorem moves_commit (h : commit r s = some s') : Moves s s' .commit := by
  have hno : s.ctl ≠ .writeHead → ∀ ops, ¬ WritesHeader (s, .commit) ops :=
    fun hc ops hops => hc hops.2.1
  unfold commit at h
  split at h
  · next tail hc =>
    split at h <;> obtain rfl := Option.some.inj h <;>
      exact moves_same rfl (hno (by simp [hc])) ⟨rfl, rfl, rfl, rfl, rfl, rfl⟩
  · next hc =>
    obtain rfl := Option.some.inj h
    refine ⟨rfl, Nat.le_refl _, .inl rfl, fun op hop => hop, fun op hop => .inl hop, ?_, ?_⟩
    · intro op hop
      obtain ⟨l, hl, hol⟩ := mem_flatten.mp hop
      exact mem_flatten.mpr ⟨l, (take_prefix_take_left (Nat.le_succ _)).subset hl, hol⟩
    · rintro ops ⟨-, -, hops⟩ op hop
      refine mem_flatten.mpr ⟨ops, ?_, hop⟩
      have hlt := (List.getElem?_eq_some_iff.mp hops).1
      refine mem_iff_getElem?.mpr ⟨s.reached, ?_⟩
      change (s.commits.take (s.reached + 1))[s.reached]? = some ops
      rw [List.getElem?_take_of_lt (Nat.lt_succ_self _)]
      exact hops
  · next tail hc =>
    obtain rfl := Option.some.inj h
    unfold install_trans
    split <;> exact moves_same rfl (hno (by simp [hc])) ⟨rfl, rfl, rfl, rfl, rfl, rfl⟩
  · next hc =>
    obtain rfl := Option.some.inj h
    exact moves_same rfl (hno (by simp [hc])) ⟨rfl, rfl, rfl, rfl, rfl, rfl⟩
  · cases h

theorem moves_crash : Moves s (crash s) .crash := by
  refine ⟨rfl, Nat.le_refl _, .inl rfl, ?_, ?_, fun op hop => hop, ?_⟩
  · intro op hop
    simp only [Alive, crash, append_nil] at hop ⊢
    rcases hop with hop | hop
    · exact .inl (by simp [hop])
    · exact .inr hop
  · intro op hop
    refine .inl (mem_append_left _ ?_)
    simpa [crash] using hop
  · rintro ops ⟨h, -⟩
    cases h

theorem moves_recover_from_log (hi : Inv r d s) (h : recover_from_log r s = some s') :
    Moves s s' .recover_from_log := by
  have hno : ∀ ops, ¬ WritesHeader (s, .recover_from_log) ops := by
    rintro ops ⟨h, -⟩
    cases h
  have h0 := h
  unfold recover_from_log at h
  split at h
  · next hc =>
    obtain rfl := Option.some.inj h
    exact moves_same rfl hno ⟨rfl, rfl, rfl, rfl, rfl, rfl⟩
  · next tail hc =>
    obtain rfl := Option.some.inj h
    unfold install_trans
    split <;> exact moves_same rfl hno ⟨rfl, rfl, rfl, rfl, rfl, rfl⟩
  · next hc =>
    have hr := recovered hi hc h0
    have hids : s'.commits.flatten = s.reachedOps := by rw [hr.commits]; rfl
    refine ⟨rfl, Nat.le_of_eq hr.nextOp.symm, .inr ⟨hr.hist, ?_⟩, ?_, ?_, ?_,
      fun ops hops => absurd hops (hno ops)⟩
    · intro op hop
      simpa [Alive, hids, hr.ended, hr.active, hr.nextOp] using hop
    · intro op hop
      simp only [Alive, hids, hr.ended, hr.active, hr.nextOp, append_nil] at hop
      rcases hop with hop | hop
      · exact .inl (by simp [reachedOps_subset hop])
      · exact .inr hop
    · intro op hop
      rw [hids, hr.ended, append_nil] at hop
      exact .inl (mem_append_left _ (reachedOps_subset hop))
    · intro op hop
      rw [hr.reachedOps]
      exact hop
  · cases h

theorem traced_log_write {op b : Nat} {data : Block} (hi : Inv r d s) (ht : Traced tr s)
    (hop : op ∈ s.active) : Traced (tr ++ [(s, .log_write op b data)]) (log_write s op b data) := by
  have hw : written (tr ++ [(s, .log_write op b data)]) =
      written tr ++ [{ op := op, block := b, data := data }] := written_snoc tr s _
  have halive : op ∈ s.commits.flatten ++ s.ended ++ s.active := mem_append_right _ hop
  refine ⟨?_, ?_, fun x hx => (ht.complete x hx).snoc, ?_⟩
  · intro w hm
    rw [hw, mem_append, mem_singleton] at hm
    rcases hm with hm | rfl
    · exact ht.old w hm
    · exact hi.bound op halive
  · obtain ⟨keep, hk, hal⟩ := ht.kept
    refine ⟨keep, ?_, hal⟩
    rw [hw, filter_append, ← hk]
    simp [log_write, State.record, hal op (.inl halive)]
  · intro x hx ops hops
    rcases mem_append.mp hx with hx | hx
    · exact ht.headers x hx ops hops
    · rw [mem_singleton] at hx
      subst hx
      cases hops.1

theorem moves_log_check (op : Nat) : Moves s (log_check r s op) (.log_check op) := by
  have hno : ∀ ops, ¬ WritesHeader (s, .log_check op) ops := by
    rintro ops ⟨h, -⟩
    cases h
  unfold log_check
  split
  · exact moves_same rfl hno ⟨rfl, rfl, rfl, rfl, rfl, rfl⟩
  · split <;> exact moves_same rfl hno ⟨rfl, rfl, rfl, rfl, rfl, rfl⟩

theorem traced_next (hi : Inv r d s) (ht : Traced tr s) (hn : next r s a = some s') :
    Traced (tr ++ [(s, a)]) s' := by
  have h := (next_up hn).1
  cases a with
  | begin_op => exact (moves_begin_op h).traced ht
  | log_check op =>
    simp only [up] at h
    split at h
    · obtain rfl := Option.some.inj h
      exact (moves_log_check op).traced ht
    · cases h
  | log_write op b data =>
    simp only [up] at h
    split at h
    · next hg =>
      obtain rfl := Option.some.inj h
      exact traced_log_write hi ht hg.1
    · cases h
  | end_op op =>
    simp only [up] at h
    split at h
    · next hg => exact (moves_end_op hi hg.1 h).traced ht
    · cases h
  | fill b =>
    simp only [up] at h
    split at h
    · obtain rfl := Option.some.inj h
      exact (moves_cache _ rfl (by simp)).traced ht
    · cases h
  | evict b =>
    simp only [up] at h
    split at h
    · split at h
      · cases h
      · obtain rfl := Option.some.inj h
        exact (moves_cache _ rfl (by simp)).traced ht
    · cases h
  | commit => exact (moves_commit h).traced ht
  | crash =>
    obtain rfl := Option.some.inj h
    exact moves_crash.traced ht
  | recover_from_log => exact (moves_recover_from_log hi h).traced ht

/-! ## A whole run -/

theorem traced_fresh (h : Fresh r d s) : Traced [] s := by
  obtain ⟨-, -, -, -, -, -, -, -, -, ha, he, hcs, -, hh⟩ := h
  exact ⟨by simp [written], ⟨fun _ => true, by simp [written, hh], fun _ _ => rfl⟩,
    by simp [hcs, he], by simp⟩

theorem inv_run {s0 : State} (hpos : 0 < r.size) (h0 : Fresh r d s0)
    (hrun : Path (Next (next r)) s0 tr s) (hroom : Meets (KeepsRoom r) tr) :
    Inv r d s ∧ Traced tr s := by
  induction hrun with
  | nil => exact ⟨inv_fresh hpos h0, traced_fresh h0⟩
  | snoc _ hs ih =>
    rw [meets_snoc] at hroom
    obtain ⟨hi, ht⟩ := ih hroom.1
    exact ⟨inv_next hi hroom.2 hs, traced_next hi ht hs⟩

/-! ## Recovery -/

theorem follow_recover {n : Nat} (hp : s.panicked = none) (h : recover_from_log r s = some s')
    (hn : ∃ s'', follow (next r) s' (List.replicate n .recover_from_log) = some s'' ∧
      s''.ctl = .idle) :
    ∃ s'', follow (next r) s (List.replicate (n + 1) .recover_from_log) = some s'' ∧
      s''.ctl = .idle := by
  obtain ⟨s'', hf, hc⟩ := hn
  refine ⟨s'', ?_, hc⟩
  rw [replicate_succ, follow]
  simp only [next_of_up hp, up, h, Option.bind_some]
  exact hf

theorem recover_loop (k : Nat) : ∀ s : State, ∀ tail, s.ctl = .recover tail → s.panicked = none →
    s.lh.length = tail + k →
    ∃ s', follow (next r) s (List.replicate (k + 2) .recover_from_log) = some s' ∧
      s'.ctl = .idle := by
  induction k with
  | zero =>
    intro s tail hc hp hlen
    have hb : s.lh[tail]? = none := List.getElem?_eq_none_iff.mpr (by omega)
    have hstep : recover_from_log r s = some { s with lh := [], ctl := .recoverClear } := by
      simp only [recover_from_log, hc, install_trans, hb]
    exact follow_recover hp hstep (follow_recover (by exact hp) rfl ⟨_, rfl, rfl⟩)
  | succ k ih =>
    intro s tail hc hp hlen
    obtain ⟨b, hb⟩ : ∃ b, s.lh[tail]? = some b :=
      ⟨_, List.getElem?_eq_getElem (by omega)⟩
    have hstep : recover_from_log r s =
        some { s.bwrite b (s.content (r.start + 1 + tail)) with ctl := .recover (tail + 1) } := by
      simp only [recover_from_log, hc, install_trans, hb]
    refine follow_recover hp hstep (ih _ (tail + 1) rfl (by exact hp) ?_)
    simp only [State.bwrite]
    omega

theorem recovery_ends (hc : s.ctl = .down) (hp : s.panicked = none) :
    ∃ s', follow (next r) s
      (List.replicate ((getHeader (s.content r.start)).length + 3) .recover_from_log) = some s' ∧
      s'.ctl = .idle := by
  have hstep : recover_from_log r s =
      some { s with lh := getHeader (s.content r.start), ctl := .recover 0 } := by
    simp only [recover_from_log, hc]
  exact follow_recover hp hstep (recover_loop _ _ 0 rfl (by exact hp) (by simp))

theorem Traced.done_eq (ht : Traced tr s) :
    s.done = (written tr).filter fun w => w.op ∈ s.reachedOps := by
  obtain ⟨keep, hk, hal⟩ := ht.kept
  rw [State.done, hk, filter_filter]
  apply filter_congr
  intro w _
  by_cases hm : w.op ∈ s.reachedOps
  · have : keep w.op = true := by
      apply hal
      left
      rw [append_assoc]
      exact mem_append_left _ (reachedOps_subset hm)
    simp [hm, this]
  · simp [hm]

/-- A disk of zeros, with the log in blocks 2 to 31. -/
def zeroDisk : State where
  disk := fun _ _ => 0
  cache := fun _ => none
  lh := []
  outstanding := 0
  committing := false
  ctl := .idle
  passed := []
  panicked := none
  nextOp := 0
  active := []
  ended := []
  commits := []
  reached := 0
  hist := []

/-! ## Two operations at the last free block

Both find one free block in a log of 30, and then both take it: the 30th block of the log is the first
one after it. -/

/-- Three operations take turns and have logged the `k` blocks from 40 on. -/
structure Filling (k : Nat) (ps : List Nat) (s : State) : Prop where
  ctl : s.ctl = .idle
  panicked : s.panicked = none
  committing : s.committing = false
  outstanding : s.outstanding = 3
  active : s.active = [2, 1, 0]
  ended : s.ended = []
  commits : s.commits = []
  reached : s.reached = 0
  passed : s.passed = ps
  disk : s.disk = fun _ _ => 0
  lh : s.lh = List.range' 40 k
  hist : s.hist = (List.range k).map fun j => { op := j % 3, block := 40 + j, data := fun _ => 7 }
  content : ∀ j < k, s.content (40 + j) = fun _ => 7

theorem filling_zero : ∃ s, follow (next ⟨2, 30⟩) zeroDisk [.begin_op, .begin_op, .begin_op] = some s ∧
    Filling 0 [] s :=
  ⟨_, rfl, rfl, rfl, rfl, rfl, rfl, rfl, rfl, rfl, rfl, rfl, rfl, rfl, fun _ h => by omega⟩

theorem Filling.check {k op : Nat} {ps : List Nat} (h : Filling k ps s) (hk : k < 29) (hop : op < 3)
    (hps : op ∉ ps) : ∃ s', next ⟨2, 30⟩ s (.log_check op) = some s' ∧ Filling k (op :: ps) s' := by
  have hact : op ∈ s.active := by
    rw [h.active]
    simp only [mem_cons, not_mem_nil, or_false]
    omega
  have hlen : s.lh.length = k := by rw [h.lh, length_range']
  have hroom : ¬ (LOGSIZE ≤ s.lh.length ∨ 30 - 1 ≤ s.lh.length) := by
    rw [hlen]
    simp only [LOGSIZE, MAXOPBLOCKS]
    omega
  refine ⟨{ s with passed := op :: s.passed }, ?_, ?_⟩
  · rw [next_of_up h.panicked, up, if_pos ⟨hact, by rw [h.passed]; exact hps⟩, log_check, if_neg hroom,
      if_neg (by rw [h.outstanding]; decide)]
  · exact ⟨h.ctl, h.panicked, h.committing, h.outstanding, h.active, h.ended, h.commits, h.reached,
      congrArg _ h.passed, h.disk, h.lh, h.hist, h.content⟩

theorem Filling.write {k : Nat} {ps : List Nat} (h : Filling k ps s) (hk : k < 30) (hps : k % 3 ∈ ps) :
    ∃ s', next ⟨2, 30⟩ s (.log_write (k % 3) (40 + k) fun _ => 7) = some s' ∧
      Filling (k + 1) (ps.erase (k % 3)) s' := by
  have hact : k % 3 ∈ s.active := by
    rw [h.active]
    simp only [mem_cons, not_mem_nil, or_false]
    omega
  have hnew : 40 + k ∉ s.lh := by
    rw [h.lh, mem_range'_1]
    omega
  have hroom : s.lh.length < LOGSIZE := by
    rw [h.lh, length_range']
    exact hk
  refine ⟨log_write s (k % 3) (40 + k) fun _ => 7, ?_, ?_⟩
  · rw [next_of_up h.panicked, up,
      if_pos ⟨hact, h.passed ▸ hps, .inr (by change 2 + 30 ≤ 40 + k; omega), .inr hroom⟩]
  · refine ⟨h.ctl, h.panicked, h.committing, h.outstanding, h.active, h.ended, h.commits, h.reached,
      congrArg (List.erase · _) h.passed, h.disk, ?_, ?_, fun j hj => ?_⟩
    · change (if 40 + k ∈ s.lh then s.lh else s.lh ++ [40 + k]) = _
      rw [if_neg hnew, h.lh, List.range'_concat, Nat.one_mul]
    · change s.hist ++ [_] = _
      rw [h.hist, range_succ, map_append]
      rfl
    · change (s.record (k % 3) (40 + k) fun _ => 7).content (40 + j) = _
      rw [content_record]
      by_cases hjk : j = k
      · rw [hjk, update_self]
      · rw [update_of_ne (by omega)]
        exact h.content j (by omega)

/-- Every `log_write` of the run is the next of the turns. -/
def Turns (s : State) (a : Act) : Prop :=
  ∀ op b data, a = .log_write op b data → ∃ k ps, Filling k ps s ∧ k < 30 ∧ op = k % 3 ∧ b = 40 + k

theorem filling_run {k : Nat} (hk : k ≤ 29) :
    ∃ tr s, Path (Next (next ⟨2, 30⟩)) zeroDisk tr s ∧ Meets Turns tr ∧ Filling k [] s := by
  induction k with
  | zero =>
    obtain ⟨s, hf, hs⟩ := filling_zero
    obtain ⟨tr, hrun, htr⟩ := path_of_follow hf
    refine ⟨tr, s, hrun, meets_of_labels htr fun a ha s op b data hc => ?_, hs⟩
    subst hc
    simp at ha
  | succ k ih =>
    obtain ⟨tr, s, hrun, hturns, hs⟩ := ih (by omega)
    obtain ⟨s1, hn1, hs1⟩ := hs.check (by omega) (Nat.mod_lt k (by decide)) (by simp)
    obtain ⟨s2, hn2, hs2⟩ := hs1.write (by omega) (by simp)
    refine ⟨_, s2, (hrun.snoc hn1).snoc hn2, ?_, by simpa using hs2⟩
    rw [meets_snoc, meets_snoc]
    refine ⟨⟨hturns, fun op b data hc => by cases hc⟩, fun op b data hc => ?_⟩
    cases hc
    exact ⟨k, _, hs1, by omega, rfl, rfl⟩

theorem overrun_run :
    ∃ tr s, Path (Next (next ⟨2, 30⟩)) zeroDisk tr s ∧ Meets Turns tr ∧ Filling 30 [] s := by
  obtain ⟨tr, s, hrun, hturns, hs⟩ := filling_run (k := 28) (by decide)
  obtain ⟨s1, hn1, hs1⟩ := hs.check (by decide) (by decide : 2 < 3) (by simp)
  obtain ⟨s2, hn2, hs2⟩ := hs1.check (by decide) (by decide : 1 < 3) (by simp)
  obtain ⟨s3, hn3, hs3⟩ := hs2.write (by decide) (by simp)
  obtain ⟨s4, hn4, hs4⟩ := hs3.write (by decide) (by simp)
  refine ⟨_, s4, (((hrun.snoc hn1).snoc hn2).snoc hn3).snoc hn4, ?_, by simpa using hs4⟩
  simp only [meets_snoc]
  refine ⟨⟨⟨⟨hturns, ?_⟩, ?_⟩, fun op b data hc => ?_⟩, fun op b data hc => ?_⟩
  · intro op b data hc
    cases hc
  · intro op b data hc
    cases hc
  · cases hc
    exact ⟨28, _, hs2, by decide, rfl, rfl⟩
  · cases hc
    exact ⟨29, _, hs3, by decide, rfl, rfl⟩

/-- The commit of the 30 blocks is in `write_log` at `tail`. -/
structure Overrun (tail : Nat) (s : State) : Prop where
  ctl : s.ctl = .writeLog tail
  panicked : s.panicked = none
  lh : s.lh = List.range' 40 30
  commits : s.commits = [[2, 1, 0]]
  reached : s.reached = 0
  header : s.disk 2 = fun _ => 0
  logged : ∀ j < tail, s.disk (3 + j) = fun _ => 7
  content : ∀ j < 30, s.content (40 + j) = fun _ => 7

theorem Filling.ends (h : Filling 30 [] s) :
    ∃ s', follow (next ⟨2, 30⟩) s [.end_op 2, .end_op 1, .end_op 0] = some s' ∧ Overrun 0 s' := by
  have hne : s.lh ≠ [] := by
    rw [h.lh]
    decide
  refine ⟨{ s with
    outstanding := 0, active := [], ended := [], commits := [[2, 1, 0]], committing := true,
    ctl := .writeLog 0 }, ?_, ?_⟩
  · simp [follow, next, up, end_op, h.panicked, h.passed, h.active, h.outstanding, h.committing, h.ended,
      h.commits, hne]
  · exact ⟨rfl, h.panicked, h.lh, rfl, h.reached, by rw [h.disk], fun j hj => by omega, h.content⟩

theorem Overrun.commit {t : Nat} (h : Overrun t s) (ht : t < 30) :
    ∃ s', next ⟨2, 30⟩ s .commit = some s' ∧ Overrun (t + 1) s' := by
  have hget : s.lh[t]? = some (40 + t) := by
    rw [h.lh, List.getElem?_range' ht, Nat.one_mul]
  refine ⟨{ s.bwrite (2 + 1 + t) (s.content (40 + t)) with ctl := .writeLog (t + 1) }, ?_, ?_⟩
  · rw [next_of_up h.panicked, up, Log.commit, h.ctl]
    dsimp only
    rw [hget]
  · refine ⟨rfl, h.panicked, h.lh, h.commits, h.reached, ?_, fun j hj => ?_, fun j hj => ?_⟩
    · change update s.disk (2 + 1 + t) _ 2 = _
      rw [update_of_ne (by omega), h.header]
    · change update s.disk (2 + 1 + t) _ (3 + j) = _
      by_cases hj : j = t
      · rw [hj, update_self, h.content t ht]
      · rw [update_of_ne (by omega), h.logged j (by omega)]
    · change (s.bwrite (2 + 1 + t) _).content (40 + j) = _
      rw [content_bwrite, if_neg (by omega), h.content j hj]

theorem Overrun.commits_run {n : Nat} (h : Overrun 0 s) (hn : n ≤ 30) :
    ∃ s', follow (next ⟨2, 30⟩) s (List.replicate n .commit) = some s' ∧ Overrun n s' := by
  induction n with
  | zero => exact ⟨s, rfl, h⟩
  | succ n ih =>
    obtain ⟨s1, hf, h1⟩ := ih (by omega)
    obtain ⟨s2, hs, h2⟩ := h1.commit (by omega)
    refine ⟨s2, ?_, h2⟩
    rw [replicate_succ', follow_append, hf, Option.bind_some, follow, hs]
    rfl

theorem Overrun.recover (h : Overrun 30 s) :
    ∃ s1 s', follow (next ⟨2, 30⟩) s [.crash, .recover_from_log, .recover_from_log] = some s1 ∧
      s1.ctl = .recoverClear ∧ recover_from_log ⟨2, 30⟩ s1 = some s' ∧ s'.disk 32 = fun _ => 7 := by
  have hhead : getHeader ((crash s).content 2) = [] := getHeader_of_zero _ (congrFun h.header 0)
  have hread : recover_from_log ⟨2, 30⟩ (crash s) = some { crash s with ctl := .recover 0 } := by
    simp only [recover_from_log, crash] at hhead ⊢
    rw [hhead]
  refine ⟨{ crash s with ctl := .recoverClear }, _, ?_, rfl, rfl, ?_⟩
  · have hcrash : next ⟨2, 30⟩ s .crash = some (crash s) := by
      rw [next_of_up h.panicked]
      rfl
    rw [follow, hcrash, Option.bind_some, follow, next_of_up rfl, up, hread]
    rfl
  · simp only [write_head, State.bwrite, crash]
    rw [update_of_ne (by decide)]
    exact h.logged 29 (by decide)

theorem written_block {n : Nat} (h : Meets (fun _ a => ∀ op b data, a = .log_write op b data → n ≤ b) tr)
    (w : Write) (hw : w ∈ written tr) : n ≤ w.block := by
  obtain ⟨⟨s, a⟩, hx, hw⟩ := mem_filterMap.mp hw
  cases a with
  | log_write op b data =>
    obtain rfl := Option.some.inj hw
    exact h _ hx op b data rfl
  | _ => cases hw

end Xv6.Log
