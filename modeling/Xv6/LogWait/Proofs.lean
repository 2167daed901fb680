import Xv6.LogWait.Code

/-!
# Nobody waits for an idle log

`outstanding` counts the operations, and `committing` says that one process commits. A process sleeps only
while there is an operation or a commit, or while the process that has ended the commit has its `wakeup`
before it.
-/

open Xv6.Run Function Finset

namespace Xv6.LogWait

variable {ι : Type} {s s' : State ι} {i j : ι} {pc : Pc}

/-- The process counts in `outstanding`. -/
def Pc.counts : Pc → Bool
  | .inOp | .logWrite _ | .endOp => true
  | _ => false

/-- The process commits. -/
def Pc.commits : Pc → Bool
  | .commit | .install | .eraseHead | .clear => true
  | _ => false

/-- The process has `log.lock` between steps. -/
def Pc.holds : Pc → Bool
  | .beginSleep | .endWake | .clearWake => true
  | _ => false

/-- The process sleeps on `&log`, or is about to. -/
def Pc.waits : Pc → Bool
  | .beginSleep | .doze | .asleep => true
  | _ => false

/-- The log was installed. -/
def Pc.installed : Pc → Bool
  | .eraseHead | .clear => true
  | _ => false

/-- There is an operation or a commit. -/
def State.Busy (s : State ι) : Prop := s.outstanding ≠ 0 ∨ s.committing = true

structure Inv [Fintype ι] (s : State ι) : Prop where
  lock : ∀ i, (s.pc i).holds = true ↔ s.lock = some i
  ptable : ∀ i, s.pc i = .doze ↔ s.ptable = some i
  count : s.outstanding = ∑ i, ((s.pc i).counts.toNat : Int)
  commit : s.committing = true ↔ ∃ i, (s.pc i).commits = true
  one : ∀ i j, (s.pc i).commits = true → (s.pc j).commits = true → i = j
  alone : s.committing = true → s.outstanding = 0
  empty : ¬ s.Busy → s.lh = []
  installed : ∀ i, (s.pc i).installed = true → s.lh = []
  waits : ∀ i, (s.pc i).waits = true → s.Busy ∨ ∃ j, s.pc j = .clearWake
  panicked : s.panicked = none ∨ s.panicked = some "too big a transaction"

/-- Process `i` goes to `pc`, and some of those that are asleep are woken. -/
structure Moves (s s' : State ι) (i : ι) (pc : Pc) : Prop where
  self : s'.pc i = pc
  other : ∀ j, j ≠ i → s'.pc j = s.pc j ∨ s.pc j = .asleep ∧ s'.pc j = .ready

theorem moves_goto [DecidableEq ι] (hpc : s'.pc = update s.pc i pc) : Moves s s' i pc := by
  refine ⟨by rw [hpc, update_self], fun j hj => .inl ?_⟩
  rw [hpc, update_of_ne hj]

theorem moves_wakeup [DecidableEq ι] (hpc : s'.pc = update (fun j => (s.pc j).wake) i pc) :
    Moves s s' i pc := by
  refine ⟨by rw [hpc, update_self], fun j hj => ?_⟩
  rw [hpc, update_of_ne hj]
  cases s.pc j <;> simp [Pc.wake]

theorem Moves.keep (hm : Moves s s' i pc) (f : Pc → Bool) (hf : f .ready = f .asleep) (hj : j ≠ i) :
    f (s'.pc j) = f (s.pc j) := by
  rcases hm.other j hj with h | ⟨h, h'⟩
  · rw [h]
  · rw [h, h', hf]

section Moves

variable [Fintype ι] [DecidableEq ι]

theorem count_move (hm : Moves s s' i pc) (h : s.outstanding = ∑ j, ((s.pc j).counts.toNat : Int))
    (hc : s'.outstanding + (s.pc i).counts.toNat = s.outstanding + pc.counts.toNat) :
    s'.outstanding = ∑ j, ((s'.pc j).counts.toNat : Int) := by
  rw [← add_sum_erase Finset.univ _ (mem_univ i)] at h ⊢
  have hrest : ∑ j ∈ Finset.univ.erase i, ((s'.pc j).counts.toNat : Int) =
      ∑ j ∈ Finset.univ.erase i, ((s.pc j).counts.toNat : Int) :=
    sum_congr rfl fun j hj => by rw [hm.keep Pc.counts rfl (ne_of_mem_erase hj)]
  rw [hrest, hm.self]
  omega

omit [Fintype ι] in
theorem lock_move (hm : Moves s s' i pc) (h : ∀ j, (s.pc j).holds = true ↔ s.lock = some j)
    (hl : s'.lock = s.lock ∧ pc.holds = (s.pc i).holds ∨
      s.lock = none ∧ s'.lock = some i ∧ pc.holds = true ∨
      s.lock = some i ∧ s'.lock = none ∧ pc.holds = false) (j : ι) :
    (s'.pc j).holds = true ↔ s'.lock = some j := by
  by_cases hj : j = i
  · subst hj
    rw [hm.self]
    rcases hl with ⟨h1, h2⟩ | ⟨-, h1, h2⟩ | ⟨-, h1, h2⟩
    · rw [h1, h2]
      exact h j
    · simp [h1, h2]
    · simp [h1, h2]
  · rw [hm.keep Pc.holds rfl hj, h j]
    rcases hl with ⟨h1, -⟩ | ⟨h0, h1, -⟩ | ⟨h0, h1, -⟩
    · rw [h1]
    · simp [h0, h1, Ne.symm hj]
    · simp [h0, h1, Ne.symm hj]

omit [Fintype ι] in
theorem ptable_move (hm : Moves s s' i pc) (h : ∀ j, s.pc j = .doze ↔ s.ptable = some j)
    (hl : s'.ptable = s.ptable ∧ (pc = .doze ↔ s.pc i = .doze) ∨
      s.ptable = none ∧ s'.ptable = some i ∧ pc = .doze ∨
      s.ptable = some i ∧ s'.ptable = none ∧ pc ≠ .doze) (j : ι) :
    s'.pc j = .doze ↔ s'.ptable = some j := by
  by_cases hj : j = i
  · subst hj
    rw [hm.self]
    rcases hl with ⟨h1, h2⟩ | ⟨-, h1, h2⟩ | ⟨-, h1, h2⟩
    · rw [h1, h2]
      exact h j
    · simp [h1, h2]
    · simp [h1, h2]
  · have hpc : s'.pc j = .doze ↔ s.pc j = .doze := by
      rcases hm.other j hj with h | ⟨h, h'⟩
      · rw [h]
      · simp [h, h']
    rw [hpc, h j]
    rcases hl with ⟨h1, -⟩ | ⟨h0, h1, -⟩ | ⟨h0, h1, -⟩
    · rw [h1]
    · simp [h0, h1, Ne.symm hj]
    · simp [h0, h1, Ne.symm hj]

theorem commit_move (hm : Moves s s' i pc) (h : Inv s)
    (hc : s'.committing = s.committing ∧ pc.commits = (s.pc i).commits ∨
      s.committing = false ∧ s'.committing = true ∧ pc.commits = true ∨
      (s.pc i).commits = true ∧ s'.committing = false ∧ pc.commits = false) :
    (s'.committing = true ↔ ∃ j, (s'.pc j).commits = true) ∧
      ∀ j k, (s'.pc j).commits = true → (s'.pc k).commits = true → j = k := by
  have hkeep : ∀ j, j ≠ i → (s'.pc j).commits = (s.pc j).commits := fun j hj => hm.keep Pc.commits rfl hj
  have hself := hm.self
  rcases hc with ⟨h1, h2⟩ | ⟨h0, h1, h2⟩ | ⟨h0, h1, h2⟩
  · -- nobody starts or ends
    have hall : ∀ j, (s'.pc j).commits = (s.pc j).commits := by
      intro j
      by_cases hj : j = i
      · rw [hj, hself, h2]
      · exact hkeep j hj
    simp only [hall, h1]
    exact ⟨h.commit, h.one⟩
  · have hnone : ∀ j, (s.pc j).commits = false := by
      intro j
      by_contra hj
      have := h.commit.mpr ⟨j, by simpa using hj⟩
      rw [h0] at this
      cases this
    have honly : ∀ j, (s'.pc j).commits = true → j = i := by
      intro j hj
      by_contra hne
      rw [hkeep j hne, hnone j] at hj
      cases hj
    exact ⟨⟨fun _ => ⟨i, by rw [hself, h2]⟩, fun _ => h1⟩, fun j k hj hk => (honly j hj).trans (honly k hk).symm⟩
  · have hnone : ∀ j, (s'.pc j).commits = false := by
      intro j
      by_cases hj : j = i
      · rw [hj, hself, h2]
      · rw [hkeep j hj]
        by_contra hc
        exact hj (h.one j i (by simpa using hc) h0)
    simp [hnone, h1]

theorem inv_move (h : Inv s) (hm : Moves s s' i pc)
    (hlock : s'.lock = s.lock ∧ pc.holds = (s.pc i).holds ∨
      s.lock = none ∧ s'.lock = some i ∧ pc.holds = true ∨
      s.lock = some i ∧ s'.lock = none ∧ pc.holds = false)
    (hptable : s'.ptable = s.ptable ∧ (pc = .doze ↔ s.pc i = .doze) ∨
      s.ptable = none ∧ s'.ptable = some i ∧ pc = .doze ∨
      s.ptable = some i ∧ s'.ptable = none ∧ pc ≠ .doze)
    (hcount : s'.outstanding + (s.pc i).counts.toNat = s.outstanding + pc.counts.toNat)
    (hcommit : s'.committing = s.committing ∧ pc.commits = (s.pc i).commits ∨
      s.committing = false ∧ s'.committing = true ∧ pc.commits = true ∨
      (s.pc i).commits = true ∧ s'.committing = false ∧ pc.commits = false)
    (halone : s'.committing = true → s'.outstanding = 0) (hempty : ¬ s'.Busy → s'.lh = [])
    (hlh : ∀ j, j ≠ i → (s.pc j).installed = true → s'.lh = []) (hinst : pc.installed = true → s'.lh = [])
    (hwaits : ∀ j, (s'.pc j).waits = true → s'.Busy ∨ ∃ k, s'.pc k = .clearWake)
    (hpanic : s'.panicked = s.panicked) : Inv s' := by
  obtain ⟨hcommit', hone⟩ := commit_move hm h hcommit
  refine ⟨lock_move hm h.lock hlock, ptable_move hm h.ptable hptable, count_move hm h.count hcount, hcommit',
    hone, halone, hempty, fun j hj => ?_, hwaits, hpanic ▸ h.panicked⟩
  by_cases hji : j = i
  · rw [hji, hm.self] at hj
    exact hinst hj
  · rw [hm.keep Pc.installed rfl hji] at hj
    exact hlh j hji hj

omit [Fintype ι] [DecidableEq ι] in
theorem waits_keep (h : ∀ j, (s.pc j).waits = true → s.Busy ∨ ∃ k, s.pc k = .clearWake) (hm : Moves s s' i pc)
    (hpre : s.pc i ≠ .clearWake) (hbusy : s.Busy → s'.Busy ∨ pc = .clearWake)
    (hpost : pc.waits = true → s'.Busy ∨ (s.pc i).waits = true) (j : ι) (hj : (s'.pc j).waits = true) : s'.Busy ∨ ∃ k, s'.pc k = .clearWake := by
  have hback : s.Busy ∨ (∃ k, s.pc k = .clearWake) → s'.Busy ∨ ∃ k, s'.pc k = .clearWake := by
    rintro (hb | ⟨k, hk⟩)
    · rcases hbusy hb with hb' | hpc
      · exact .inl hb'
      · exact .inr ⟨i, hm.self.trans hpc⟩
    · have hki : k ≠ i := by
        rintro rfl
        exact hpre hk
      rcases hm.other k hki with hsame | ⟨hasleep, -⟩
      · exact .inr ⟨k, hsame.trans hk⟩
      · rw [hk] at hasleep
        cases hasleep
  by_cases hji : j = i
  · subst hji
    rw [hm.self] at hj
    rcases hpost hj with hb | hw
    · exact .inl hb
    · exact hback (h j hw)
  · rcases hm.other j hji with hsame | ⟨-, hready⟩
    · exact hback (h j (hsame ▸ hj))
    · rw [hready] at hj
      cases hj

theorem inv_goto (h : Inv s) (hpc : s'.pc = update s.pc i pc) (hlh : s'.lh = s.lh)
    (hout : s'.outstanding = s.outstanding) (hcom : s'.committing = s.committing) (hlock : s'.lock = s.lock)
    (hpanic : s'.panicked = s.panicked)
    (hptable : s'.ptable = s.ptable ∧ (pc = .doze ↔ s.pc i = .doze) ∨
      s.ptable = none ∧ s'.ptable = some i ∧ pc = .doze ∨
      s.ptable = some i ∧ s'.ptable = none ∧ pc ≠ .doze)
    (hholds : pc.holds = (s.pc i).holds) (hcounts : pc.counts = (s.pc i).counts)
    (hcommits : pc.commits = (s.pc i).commits) (hinst : pc.installed = true → s.lh = [])
    (hpre : s.pc i ≠ .clearWake) (hwaits : pc.waits = true → (s.pc i).waits = true) : Inv s' := by
  have hbusy : s'.Busy ↔ s.Busy := by rw [State.Busy, State.Busy, hout, hcom]
  have hm := moves_goto hpc
  refine inv_move h hm (.inl ⟨hlock, hholds⟩) hptable (by rw [hout, hcounts]) (.inl ⟨hcom, hcommits⟩) ?_ ?_
    (fun j _ hj => hlh.trans (h.installed j hj)) (fun hi => hlh.trans (hinst hi))
    (waits_keep h.waits hm hpre (fun hb => .inl (hbusy.mpr hb)) fun hw => .inr (hwaits hw)) hpanic
  · rw [hcom, hout]
    exact h.alone
  · rw [hbusy, hlh]
    exact h.empty

theorem inv_quiet {pc' : Pc} (h : Inv s) (hpc : s.pc i = pc') (hholds : pc.holds = pc'.holds)
    (hcounts : pc.counts = pc'.counts) (hcommits : pc.commits = pc'.commits)
    (hrest : (pc = .doze ↔ pc' = .doze) ∧ pc' ≠ .clearWake ∧ (pc.waits = true → pc'.waits = true))
    (hinst : pc.installed = true → s.lh = []) : Inv (s.goto i pc) := by
  subst hpc
  exact inv_goto h rfl rfl rfl rfl rfl rfl (.inl ⟨rfl, hrest.1⟩) hholds hcounts hcommits hinst hrest.2.1
    hrest.2.2

theorem busy_of_mustWait (h : Inv s) (hw : s.mustWait = true) : s.Busy := by
  by_contra hb
  have hlh := h.empty hb
  simp only [State.Busy, not_or, not_not, Bool.not_eq_true] at hb
  simp [State.mustWait, hlh, hb.1, hb.2, LOGSIZE, MAXOPBLOCKS] at hw

theorem inv_begin_op (h : Inv s) (hpc : s.pc i = .beginOp) (hl : s.lock = none) : Inv (begin_op s i) := by
  unfold begin_op
  split
  · next hw =>
    have hb := busy_of_mustWait h hw
    have hm : Moves s { s.goto i .beginSleep with lock := some i } i .beginSleep := moves_goto rfl
    exact inv_move h hm (.inr (.inl ⟨hl, rfl, rfl⟩)) (.inl ⟨rfl, by simp [hpc]⟩) (by simp [hpc, Pc.counts, State.goto])
      (.inl ⟨rfl, by rw [hpc]; rfl⟩) h.alone h.empty (fun j _ hj => h.installed j hj) (by simp [Pc.installed])
      (waits_keep h.waits hm (by simp [hpc]) (fun hb => .inl hb) fun _ => .inl hb) rfl
  · next hw =>
    have hcom : s.committing = false := by
      simp only [State.mustWait, Bool.or_eq_true, not_or] at hw
      simpa using hw.1
    have hm : Moves s { s.goto i .inOp with outstanding := s.outstanding + 1 } i .inOp := moves_goto rfl
    have hpos : 0 ≤ s.outstanding := by
      rw [h.count]
      exact sum_nonneg fun j _ => Int.natCast_nonneg _
    have hbusy : State.Busy { s.goto i .inOp with outstanding := s.outstanding + 1 } := by
      refine .inl ?_
      simp only [ne_eq]
      omega
    exact inv_move h hm (.inl ⟨rfl, by rw [hpc]; rfl⟩) (.inl ⟨rfl, by simp [hpc]⟩)
      (by simp [hpc, Pc.counts]) (.inl ⟨rfl, by rw [hpc]; rfl⟩)
      (fun hc => by rw [show s.committing = true from hc] at hcom; cases hcom) (fun hb => absurd hbusy hb)
      (fun j _ hj => h.installed j hj) (by simp [Pc.installed])
      (fun _ _ => .inl hbusy) rfl

omit [DecidableEq ι] in
theorem outstanding_pos (h : Inv s) (hi : (s.pc i).counts = true) : 0 < s.outstanding := by
  have hle := single_le_sum (f := fun j => ((s.pc j).counts.toNat : Int))
    (fun j _ => Int.natCast_nonneg _) (mem_univ i)
  rw [← h.count] at hle
  simp only [hi, Bool.toNat_true] at hle
  omega

omit [DecidableEq ι] in
theorem none_commits (h : Inv s) (hi : (s.pc i).counts = true) :
    s.committing = false ∧ ∀ j, (s.pc j).commits = false := by
  have hcom : s.committing = false := by
    by_contra hc
    have := h.alone (by simpa using hc)
    have := outstanding_pos h hi
    omega
  refine ⟨hcom, fun j => ?_⟩
  by_contra hj
  have := h.commit.mpr ⟨j, by simpa using hj⟩
  rw [hcom] at this
  cases this

theorem inv_end_op (h : Inv s) (hpc : s.pc i = .endOp) (hl : s.lock = none) : Inv (end_op s i) := by
  obtain ⟨hcom, -⟩ := none_commits h (by rw [hpc]; rfl : (s.pc i).counts = true)
  unfold end_op
  simp only [hcom, Bool.false_eq_true, if_false]
  split
  · next h0 =>
    refine inv_move h (moves_goto rfl) (.inl ⟨rfl, by rw [hpc]; rfl⟩) (.inl ⟨rfl, by simp [hpc]⟩)
      (by simp [hpc, Pc.counts, State.goto]) (.inr (.inl ⟨hcom, rfl, rfl⟩)) (fun _ => h0)
      (fun hb => absurd (.inr rfl) hb) (fun j _ hj => h.installed j hj) (by simp [Pc.installed])
      (fun _ _ => .inl (.inr rfl)) rfl
  · next h0 =>
    refine inv_move h (moves_goto rfl) (.inr (.inl ⟨hl, rfl, rfl⟩)) (.inl ⟨rfl, by simp [hpc]⟩)
      (by simp [hpc, Pc.counts, State.goto]) (.inl ⟨hcom.symm, by rw [hpc]; rfl⟩) (fun hc => by simp [State.goto] at hc)
      (fun hb => absurd (.inl h0) hb) (fun j _ hj => h.installed j hj) (by simp [Pc.installed])
      (fun _ _ => .inl (.inl h0)) rfl

theorem none_waits (h : Inv s) (hl : s.lock = some i) (hp : s.ptable = none)
    (hpc : s'.pc = update (fun j => (s.pc j).wake) i .out) (j : ι) : (s'.pc j).waits = false := by
  rw [hpc]
  by_cases hj : j = i
  · rw [hj, update_self]
    rfl
  · rw [update_of_ne hj]
    have hnotlock : (s.pc j).holds = false := by
      by_contra hc
      have := (h.lock j).mp (by simpa using hc)
      rw [hl] at this
      exact hj (Option.some.inj this).symm
    have hnotdoze : s.pc j ≠ .doze := by
      intro hd
      rw [(h.ptable j).mp hd] at hp
      cases hp
    cases hk : s.pc j <;> simp_all [Pc.wake, Pc.waits, Pc.holds]

theorem inv_wake (h : Inv s) (hpc : s.pc i = .endWake ∨ s.pc i = .clearWake) (hp : s.ptable = none) :
    Inv { s.wakeup.goto i .out with lock := none } := by
  have hl : s.lock = some i := (h.lock i).mp (by rcases hpc with hpc | hpc <;> rw [hpc] <;> rfl)
  refine inv_move h (moves_wakeup rfl) (.inr (.inr ⟨hl, rfl, rfl⟩)) (.inl ⟨rfl, ?_⟩) ?_ (.inl ⟨rfl, ?_⟩)
    h.alone h.empty (fun j _ hj => h.installed j hj) (by simp [Pc.installed]) (fun j hj => ?_) rfl
  · rcases hpc with hpc | hpc <;> simp [hpc]
  · rcases hpc with hpc | hpc <;> simp [hpc, Pc.counts, State.goto, State.wakeup]
  · rcases hpc with hpc | hpc <;> rw [hpc] <;> rfl
  · have hnone : (({ s.wakeup.goto i .out with lock := none } : State ι).pc j).waits = false :=
      none_waits h hl hp rfl j
    rw [hnone] at hj
    cases hj

theorem inv_step (h : Inv s) (hs : step s i = some s') : Inv s' := by
  unfold step at hs
  split at hs
  case h_1 hpc =>
    split at hs <;> cases hs
    exact inv_begin_op h hpc (by simp_all)
  case h_2 hpc =>
    split at hs <;> cases hs
    next hp =>
    have hl : s.lock = some i := (h.lock i).mp (by rw [hpc]; rfl)
    refine inv_move h (moves_goto rfl) (.inr (.inr ⟨hl, rfl, rfl⟩)) (.inr (.inl ⟨by simpa using hp, rfl, rfl⟩))
      (by simp [hpc, Pc.counts, State.goto]) (.inl ⟨rfl, by rw [hpc]; rfl⟩) h.alone h.empty
      (fun j _ hj => h.installed j hj) (by simp [Pc.installed])
      (waits_keep h.waits (moves_goto rfl) (by simp [hpc]) (fun hb => .inl hb) fun _ => .inr (by rw [hpc]; rfl)) rfl
  case h_3 hpc =>
    cases hs
    have hp : s.ptable = some i := (h.ptable i).mp hpc
    exact inv_goto h rfl rfl rfl rfl rfl rfl (.inr (.inr ⟨hp, rfl, by simp⟩)) (by rw [hpc]; rfl)
      (by rw [hpc]; rfl) (by rw [hpc]; rfl) (by simp [Pc.installed]) (by simp [hpc]) fun _ => by rw [hpc]; rfl
  case h_4 b hpc =>
    split at hs <;> cases hs
    -- the block is in the log, and an operation keeps it there
    have hcounts : (s.pc i).counts = true := by rw [hpc]; rfl
    have hbusy : s.Busy := .inl (by have := outstanding_pos h hcounts; omega)
    refine inv_move h (moves_goto rfl) (.inl ⟨rfl, by rw [hpc]; rfl⟩) (.inl ⟨rfl, by simp [hpc]⟩)
      (by simp [hpc, Pc.counts, State.goto, State.record]) (.inl ⟨rfl, by rw [hpc]; rfl⟩) h.alone
      (fun hb => absurd hbusy hb) (fun j _ hj => ?_) (by simp [Pc.installed]) (fun _ _ => .inl hbusy) rfl
    have hcommits := (none_commits h hcounts).2 j
    cases hk : s.pc j <;> simp_all [Pc.installed, Pc.commits]
  case h_5 hpc =>
    split at hs <;> cases hs
    exact inv_end_op h hpc (by simp_all)
  case h_6 hpc =>
    split at hs <;> cases hs
    exact inv_wake h (.inl hpc) (by simp_all)
  case h_7 hpc =>
    split at hs <;> cases hs
    · next hlh =>
      exact inv_quiet h hpc rfl rfl rfl (by simp [Pc.waits]) (fun _ => hlh)
    · exact inv_quiet h hpc rfl rfl rfl (by simp [Pc.waits]) (by simp [Pc.installed])
  case h_8 hpc =>
    cases hs
    have hbusy : s.Busy := .inr (h.commit.mpr ⟨i, by rw [hpc]; rfl⟩)
    exact inv_move h (moves_goto rfl) (.inl ⟨rfl, by rw [hpc]; rfl⟩) (.inl ⟨rfl, by simp [hpc]⟩)
      (by simp [hpc, Pc.counts, State.goto]) (.inl ⟨rfl, by rw [hpc]; rfl⟩) h.alone (fun _ => rfl)
      (fun _ _ _ => rfl) (fun _ => rfl) (fun _ _ => .inl hbusy) rfl
  case h_9 hpc =>
    cases hs
    exact inv_quiet h hpc rfl rfl rfl (by simp [Pc.waits]) (fun _ => h.installed i (by rw [hpc]; rfl))
  case h_10 hpc =>
    split at hs <;> cases hs
    next hl =>
    have hlh := h.installed i (by rw [hpc]; rfl)
    exact inv_move h (moves_goto rfl) (.inr (.inl ⟨by simpa using hl, rfl, rfl⟩)) (.inl ⟨rfl, by simp [hpc]⟩)
      (by simp [hpc, Pc.counts, State.goto]) (.inr (.inr ⟨by rw [hpc]; rfl, rfl, rfl⟩)) (by simp)
      (fun _ => hlh) (fun _ _ _ => hlh) (fun _ => hlh)
      (fun _ _ => .inr ⟨i, update_self i _ _⟩) rfl
  case h_11 hpc =>
    split at hs <;> cases hs
    exact inv_wake h (.inr hpc) (by simp_all)
  case h_12 | h_13 | h_14 | h_15 => cases hs

theorem inv_log_write (h : Inv s) (hpc : s.pc i = .inOp) (b : Nat) : Inv (log_write s i b) := by
  have hpos := outstanding_pos h (by rw [hpc]; rfl : (s.pc i).counts = true)
  unfold log_write
  split
  · exact ⟨h.lock, h.ptable, h.count, h.commit, h.one, h.alone, h.empty, h.installed, h.waits, .inr rfl⟩
  · rw [if_neg (by omega)]
    exact inv_quiet h hpc rfl rfl rfl (by simp [Pc.waits]) (by simp [Pc.installed])

theorem inv_next {a : Act ι} (h : Inv s) (hs : next s a = some s') : Inv s' := by
  unfold next at hs
  split at hs
  · cases hs
  · cases a with
    | begin_op i =>
      simp only [act] at hs
      split at hs <;> cases hs
      next hpc =>
      exact inv_quiet h hpc rfl rfl rfl (by simp [Pc.waits]) (by simp [Pc.installed])
    | log_write i b =>
      simp only [act] at hs
      split at hs <;> cases hs
      next hpc => exact inv_log_write h hpc b
    | end_op i =>
      simp only [act] at hs
      split at hs <;> cases hs
      next hpc =>
      exact inv_quiet h hpc rfl rfl rfl (by simp [Pc.waits]) (by simp [Pc.installed])
    | step i => exact inv_step h hs
    | sched i =>
      simp only [act] at hs
      split at hs <;> cases hs
      next hpc =>
      exact inv_quiet h hpc rfl rfl rfl (by simp [Pc.waits]) (by simp [Pc.installed])
    | kill i =>
      simp only [act] at hs
      split at hs <;> cases hs
      by_cases hpc : s.pc i = .asleep
      · exact inv_goto h rfl rfl rfl rfl rfl rfl (.inl ⟨rfl, by simp [hpc, Pc.wake]⟩) (by rw [hpc]; rfl)
          (by rw [hpc]; rfl) (by rw [hpc]; rfl) (by simp [hpc, Pc.wake, Pc.installed]) (by simp [hpc])
          (by simp [hpc, Pc.wake, Pc.waits])
      · have hsame : (s.pc i).wake = s.pc i := by
          cases hk : s.pc i <;> first | rfl | exact absurd hk hpc
        rw [State.goto, hsame, update_eq_self]
        exact h

theorem inv_init (size : Nat) : Inv (init size : State ι) := by
  refine ⟨fun i => ?_, fun i => ?_, ?_, ?_, fun i j hi => ?_, fun _ => rfl, fun _ => rfl, fun _ _ => rfl,
    fun i hi => ?_, .inl rfl⟩
  · simp [init, Pc.holds]
  · simp [init]
  · simp [init, Pc.counts]
  · simp [init, Pc.commits]
  · cases hi
  · cases hi

/-! ## Runs -/

/-- The log as `begin_op` finds it. -/
structure NotStranded (s : State ι) : Prop where
  alone : s.committing = true → s.outstanding = 0
  panicked : s.panicked ≠ some "log.committing"
  empty : s.outstanding = 0 → s.committing = false → s.lh = []
  awake : s.lock = none → ∀ i, s.pc i = .asleep → ¬ (s.outstanding = 0 ∧ s.committing = false)

theorem Inv.notStranded (h : Inv s) : NotStranded s := by
  refine ⟨h.alone, ?_, fun h0 hc => h.empty ?_, fun hl i hi hidle => ?_⟩
  · rcases h.panicked with hp | hp <;> simp [hp]
  · simp [State.Busy, h0, hc]
  · rcases h.waits i (by rw [hi]; rfl) with hb | ⟨j, hj⟩
    · simp [State.Busy, hidle.1, hidle.2] at hb
    · have := (h.lock j).mp (by rw [hj]; rfl)
      rw [hl] at this
      cases this

/-- Nobody is stranded in `begin_op`. -/
theorem begin_op_not_stranded {size : Nat} {tr : List (State ι × Act ι)}
    (hrun : Path (Next next) (init size) tr s) : Along NotStranded tr s :=
  (along_of_all_steps (fun _ _ _ h hs => inv_next h hs) hrun (inv_init size)).mono fun _ h => h.notStranded

/-- The fourth operation waits for the third to end. -/
theorem begin_op_not_stranded_fourth : ∃ s : State (Fin 4), follow next (init 30)
      [.begin_op 0, .step 0, .begin_op 1, .step 1, .begin_op 2, .step 2, .begin_op 3, .step 3, .step 3, .step 3,
        .log_write 0 7, .step 0, .end_op 0, .step 0] = some s ∧ s.pc 3 = .asleep ∧ NotStranded s := by
  have hrun : (follow next (init 30 : State (Fin 4))
      [.begin_op 0, .step 0, .begin_op 1, .step 1, .begin_op 2, .step 2, .begin_op 3, .step 3, .step 3, .step 3,
        .log_write 0 7, .step 0, .end_op 0, .step 0]).map (fun s => s.pc 3) = some .asleep := by
    decide +kernel
  obtain ⟨s, hs, hpc⟩ := Option.map_eq_some_iff.mp hrun
  obtain ⟨tr, hpath, -⟩ := path_of_follow hs
  exact ⟨s, hs, hpc, (begin_op_not_stranded hpath).2⟩

end Moves

end Xv6.LogWait
