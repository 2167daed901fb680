import Xv6.Sleep.Code

/-!
# No wakeup is lost

A process that is on its way to sleep has `ptable.lock` from before it gives up the lock of its channel
until it is `SLEEPING`, and found the condition false. So whoever makes the condition true still has its
scan before it, or there is nobody to wake.
-/

open Xv6.Run Function

namespace Xv6.Sleep

variable {n : Nat} {κ χ L : Type} {lk : χ → Option L} {s s' : State n κ χ L} {i j : Fin n}
  {pc : Pc n χ} {c : χ}

/-- The process stands between making the condition true and the end of its scan. -/
def Pc.Wakes : Pc n χ → χ → Prop
  | .wPtable c', c => c' = c
  | .wScan c' _, c => c' = c
  | _, _ => False

def NoLostWakeup (s : State n κ χ L) : Prop :=
  ∀ c, s.cond c = true → (∃ i, s.state i = .SLEEPING ∧ s.chan i = some c) → ∃ w, (s.pc w).Wakes c

/-! ## Locks -/

/-- The locks that the process has. -/
def Pc.Holds (lk : χ → Option L) : Pc n χ → Option L → Prop
  | .sTest c, m | .sPtable c, m | .sDone c, m | .leave c, m | .wSet c, m | .wPtable c, m => m = lk c
  | .sRelease c, m | .wScan c _, m | .wUnlock c, m => m = lk c ∨ m = none
  | .sChan _, m | .sState _, m | .sSched _, m | .sTidy _, m | .sUnlock _, m | .yState, m | .ySched, m
  | .yRelease, m | .kState _, m | .kRelease, m => m = none
  | .off, _ | .idle, _ | .sAcquire _, _ | .asleep _, _ | .wAcquire _, _ | .yAcquire, _
  | .kAcquire _, _ => False

/-- The statements that a process comes to only when the lock of its channel is not `ptable.lock`. -/
def Pc.Apart (lk : χ → Option L) : Pc n χ → Prop
  | .sPtable c | .sRelease c | .sUnlock c | .wPtable c | .wUnlock c => lk c ≠ none
  | _ => True

structure LockInv (lk : χ → Option L) (s : State n κ χ L) : Prop where
  owner : ∀ i m, (s.pc i).Holds lk m ↔ s.lock m = some (.proc i)
  sched : ∀ k m, s.lock m = some (.cpu k) ↔ m = none ∧ s.cpu k = .scan
  apart : ∀ i, (s.pc i).Apart lk

theorem LockInv.excl {m : Option L} (h : LockInv lk s) (hi : (s.pc i).Holds lk m)
    (hj : (s.pc j).Holds lk m) : i = j := by
  have hij := ((h.owner i m).mp hi).symm.trans ((h.owner j m).mp hj)
  cases hij
  rfl

theorem lock_move (h : LockInv lk s) (hpc : s'.pc = update s.pc i pc) (hcpu : s'.cpu = s.cpu)
    (hap : pc.Apart lk)
    (hm : ∀ m, (s'.lock m = s.lock m ∧ (pc.Holds lk m ↔ (s.pc i).Holds lk m)) ∨
      (s.lock m = none ∧ s'.lock m = some (.proc i) ∧ pc.Holds lk m) ∨
      (s.lock m = some (.proc i) ∧ s'.lock m = none ∧ ¬ pc.Holds lk m)) : LockInv lk s' := by
  have hself : s'.pc i = pc := by rw [hpc, update_self]
  have hother : ∀ k, k ≠ i → s'.pc k = s.pc k := fun k hk => by rw [hpc, update_of_ne hk]
  refine ⟨fun k m => ?_, fun k m => ?_, fun k => ?_⟩
  · by_cases hk : k = i
    · subst hk
      rw [hself]
      rcases hm m with ⟨hl, hp⟩ | ⟨-, hl, hp⟩ | ⟨-, hl, hp⟩
      · rw [hp, hl]
        exact h.owner k m
      · simp [hl, hp]
      · simp [hl, hp]
    · rw [hother k hk, h.owner k m]
      rcases hm m with ⟨hl, -⟩ | ⟨hn, hl, -⟩ | ⟨hn, hl, -⟩
      · rw [hl]
      · simp [hn, hl, Ne.symm hk]
      · simp [hn, hl, Ne.symm hk]
  · rw [hcpu, ← h.sched k m]
    rcases hm m with ⟨hl, -⟩ | ⟨hn, hl, -⟩ | ⟨hn, hl, -⟩
    · rw [hl]
    · simp [hn, hl]
    · simp [hn, hl]
  · by_cases hk : k = i
    · subst hk
      rwa [hself]
    · rw [hother k hk]
      exact h.apart k

theorem lock_goto (h : LockInv lk s) (hpc : s'.pc = update s.pc i pc) (hcpu : s'.cpu = s.cpu)
    (hlock : s'.lock = s.lock) (hap : pc.Apart lk)
    (hm : ∀ m, pc.Holds lk m ↔ (s.pc i).Holds lk m) : LockInv lk s' :=
  lock_move h hpc hcpu hap fun m => .inl ⟨by rw [hlock], hm m⟩

variable [DecidableEq χ] [DecidableEq L]

theorem acquire_some {m : Option L} (h : s.acquire m i pc = some s') :
    s.lock m = none ∧ s' = { s.goto i pc with lock := update s.lock m (some (.proc i)) } := by
  unfold State.acquire at h
  split at h
  · next hl => exact ⟨hl, (Option.some.inj h).symm⟩
  · cases h

theorem lock_acquire {m : Option L} (h : LockInv lk s) (hs : s.acquire m i pc = some s')
    (hap : pc.Apart lk) (hm : ∀ m', pc.Holds lk m' ↔ (s.pc i).Holds lk m' ∨ m' = m) : LockInv lk s' := by
  obtain ⟨hfree, rfl⟩ := acquire_some hs
  refine lock_move h rfl rfl hap fun m' => ?_
  by_cases hmm : m' = m
  · subst hmm
    exact .inr (.inl ⟨hfree, update_self m' _ _, (hm m').mpr (.inr rfl)⟩)
  · exact .inl ⟨update_of_ne hmm _ _, by simp [hm m', hmm]⟩

theorem lock_release {m : Option L} (h : LockInv lk s) (hi : (s.pc i).Holds lk m) (hap : pc.Apart lk)
    (hm : ∀ m', pc.Holds lk m' ↔ (s.pc i).Holds lk m' ∧ m' ≠ m) : LockInv lk (s.release m i pc) := by
  refine lock_move h rfl rfl hap fun m' => ?_
  by_cases hmm : m' = m
  · subst hmm
    exact .inr (.inr ⟨(h.owner i m').mp hi, update_self m' _ _, by simp [hm m']⟩)
  · exact .inl ⟨update_of_ne hmm _ _, by simp [hm m', hmm]⟩

theorem lock_step (h : LockInv lk s) (hs : step lk s i = some s') : LockInv lk s' := by
  have hap := h.apart i
  unfold step at hs
  split at hs
  all_goals
    rename_i hpc
    rw [hpc] at hap
  case h_1 | h_11 | h_13 | h_16 | h_19 => exact lock_acquire h hs trivial fun m => by simp [hpc, Pc.Holds]
  case h_2 c =>
    split at hs
    · cases hs
      exact lock_goto h rfl rfl rfl trivial fun m => by simp [hpc, Pc.Holds]
    · split at hs
      · next l hl =>
        cases hs
        exact lock_goto h rfl rfl rfl (by simp [Pc.Apart, hl]) fun m => by simp [hpc, Pc.Holds]
      · next hl =>
        cases hs
        exact lock_goto h rfl rfl rfl trivial fun m => by simp [hpc, Pc.Holds, hl]
  case h_3 c => exact lock_acquire h hs hap fun m => by simp [hpc, Pc.Holds]
  case h_4 | h_15 =>
    cases hs
    refine lock_release h (by simp [hpc, Pc.Holds]) trivial fun m => ?_
    simp only [hpc, Pc.Holds]
    grind [Pc.Apart]
  case h_5 | h_6 | h_9 | h_17 =>
    cases hs
    exact lock_goto h rfl rfl rfl trivial fun m => by simp [hpc, Pc.Holds]
  case h_7 | h_12 =>
    dsimp only at hs
    split at hs
    · next l hl =>
      cases hs
      exact lock_goto h rfl rfl rfl (by simp [Pc.Apart, hl]) fun m => by simp [hpc, Pc.Holds]
    · next hl =>
      cases hs
      exact lock_goto h rfl rfl rfl trivial fun m => by simp [hpc, Pc.Holds, hl]
  case h_8 | h_10 | h_18 | h_21 =>
    cases hs
    exact lock_release h (by simp [hpc, Pc.Holds]) trivial fun m => by simp [hpc, Pc.Holds]
  case h_14 c k =>
    split at hs
    · split at hs <;> cases hs
      all_goals exact lock_goto h rfl rfl rfl trivial fun m => by simp [hpc, Pc.Holds]
    · split at hs
      · next l hl =>
        cases hs
        exact lock_goto h rfl rfl rfl (by simp [Pc.Apart, hl]) fun m => by simp [hpc, Pc.Holds]
      · next hl =>
        cases hs
        exact lock_goto h rfl rfl rfl trivial fun m => by simp [hpc, Pc.Holds, hl]
  case h_20 p =>
    split at hs <;> cases hs
    all_goals exact lock_goto h rfl rfl rfl trivial fun m => by simp [hpc, Pc.Holds]
  case h_22 | h_23 | h_24 | h_25 | h_26 => cases hs

/-! ## Sleepers -/

/-- The process has found the condition false and still has the lock of the channel. -/
def Pc.Tested : Pc n χ → χ → Prop
  | .sPtable c', c | .sRelease c', c => c' = c
  | _, _ => False

/-- The process is about to be `SLEEPING`. -/
def Pc.Falls : Pc n χ → χ → Prop
  | .sChan c', c | .sState c', c => c' = c
  | _, _ => False

def State.Sleeps (s : State n κ χ L) (j : Fin n) (c : χ) : Prop :=
  s.state j = .SLEEPING ∧ s.chan j = some c

/-- Nobody sleeps on the channel or is about to. -/
def State.Empty (s : State n κ χ L) (c : χ) : Prop := ∀ j, ¬ (s.pc j).Falls c ∧ ¬ s.Sleeps j c

structure SleepInv (s : State n κ χ L) : Prop where
  tested : ∀ i c, (s.pc i).Tested c → s.cond c = false
  scanned : ∀ i c k, s.pc i = .wScan c k → ∀ j : Fin n, j.val < k → ¬ s.Sleeps j c
  chan : ∀ i c, s.pc i = .sState c → s.chan i = some c
  met : ∀ c, s.cond c = true → (∃ w, (s.pc w).Wakes c) ∨ s.Empty c

omit [DecidableEq χ] [DecidableEq L] in
theorem SleepInv.noLostWakeup (h : SleepInv s) : NoLostWakeup s := by
  rintro c hc ⟨i, hi⟩
  rcases h.met c hc with hw | hempty
  · exact hw
  · exact absurd hi (hempty i).2

omit [DecidableEq χ] [DecidableEq L] in
theorem sleep_move (h : SleepInv s) (hpc : s'.pc = update s.pc i pc)
    (hrise : ∀ c, s'.cond c = true → s.cond c = true ∨ pc.Wakes c)
    (hkeep : ∀ j c, j ≠ i → (s.pc j).Tested c → s.cond c = false → s'.cond c = false)
    (hchan : ∀ j, j ≠ i → s'.chan j = s.chan j)
    (hsleeps : ∀ j c, s'.Sleeps j c → s.Sleeps j c ∨ (s.pc i).Falls c ∧ ∀ w k, s.pc w ≠ .wScan c k)
    (htested : ∀ c, pc.Tested c → s'.cond c = false)
    (hscanned : ∀ c k, pc = .wScan c k → ∀ j : Fin n, j.val < k → ¬ s'.Sleeps j c)
    (hstate : ∀ c, pc = .sState c → s'.chan i = some c)
    (hfalls : ∀ c, pc.Falls c → (s.pc i).Falls c ∨ s.cond c = false)
    (hwakes : ∀ c, (s.pc i).Wakes c → pc.Wakes c ∨ s.Empty c) : SleepInv s' := by
  have hself : s'.pc i = pc := by rw [hpc, update_self]
  have hother : ∀ k, k ≠ i → s'.pc k = s.pc k := fun k hk => by rw [hpc, update_of_ne hk]
  have hempty : ∀ c, s.cond c = true → s.Empty c → s'.Empty c := by
    intro c hc he j
    refine ⟨fun hf => ?_, fun hs => ?_⟩
    · by_cases hj : j = i
      · subst hj
        rw [hself] at hf
        rcases hfalls c hf with hf | hf
        · exact (he j).1 hf
        · rw [hc] at hf
          cases hf
      · rw [hother j hj] at hf
        exact (he j).1 hf
    · rcases hsleeps j c hs with hs | ⟨hf, -⟩
      · exact (he j).2 hs
      · exact (he i).1 hf
  refine ⟨fun j c hj => ?_, fun j c k hj l hl hs => ?_, fun j c hj => ?_, fun c hc => ?_⟩
  · by_cases hji : j = i
    · subst hji
      exact htested c (hself ▸ hj)
    · rw [hother j hji] at hj
      exact hkeep j c hji hj (h.tested j c hj)
  · by_cases hji : j = i
    · subst hji
      exact hscanned c k (hself.symm.trans hj) l hl hs
    · rw [hother j hji] at hj
      rcases hsleeps l c hs with hs | ⟨-, hno⟩
      · exact h.scanned j c k hj l hl hs
      · exact hno j k hj
  · by_cases hji : j = i
    · subst hji
      exact hstate c (hself.symm.trans hj)
    · rw [hchan j hji]
      exact h.chan j c ((hother j hji).symm.trans hj)
  · rcases hrise c hc with hold | hnew
    · rcases h.met c hold with ⟨w, hw⟩ | he
      · by_cases hwi : w = i
        · subst hwi
          rcases hwakes c hw with hw' | he
          · exact .inl ⟨w, hself.symm ▸ hw'⟩
          · exact .inr (hempty c hold he)
        · exact .inl ⟨w, (hother w hwi).symm ▸ hw⟩
      · exact .inr (hempty c hold he)
    · exact .inl ⟨i, hself.symm ▸ hnew⟩

omit [DecidableEq χ] [DecidableEq L] in
theorem sleep_plain (h : SleepInv s) (hpc : s'.pc = update s.pc i pc)
    (hcond : ∀ c, s'.cond c = true → s.cond c = true) (hchan : ∀ j, j ≠ i → s'.chan j = s.chan j)
    (hsleeps : ∀ j c, s'.Sleeps j c → s.Sleeps j c) (hpre : ∀ c, ¬ (s.pc i).Wakes c)
    (hpost : ∀ c, ¬ pc.Tested c ∧ ¬ pc.Falls c ∧ ∀ k, pc ≠ .wScan c k) : SleepInv s' := by
  refine sleep_move h hpc (fun c hc => .inl (hcond c hc)) (fun j c _ _ hf => ?_) hchan
    (fun j c hs => .inl (hsleeps j c hs)) (fun c hc => absurd hc (hpost c).1)
    (fun c k hk => absurd hk ((hpost c).2.2 k)) (fun c hc => ?_) (fun c hc => absurd hc (hpost c).2.1)
    (fun c hc => absurd hc (hpre c))
  · by_contra hc
    rw [hcond c (by simpa using hc)] at hf
    cases hf
  · subst hc
    exact absurd rfl (hpost c).2.1

omit [DecidableEq χ] [DecidableEq L] in
theorem sleeps_setState {p : Fin n} {st : ProcState} (hst : st ≠ .SLEEPING)
    (h : (s.setState p st).Sleeps j c) : s.Sleeps j c := by
  obtain ⟨h1, h2⟩ := h
  by_cases hj : j = p
  · subst hj
    simp only [State.setState, update_self] at h1
    exact absurd h1 hst
  · simp only [State.setState, update_of_ne hj] at h1
    exact ⟨h1, h2⟩

theorem not_tested (hl : LockInv lk s) (hi : (s.pc i).Holds lk (lk c)) (hji : j ≠ i) :
    ¬ (s.pc j).Tested c := by
  intro hj
  refine hji (hl.excl (m := lk c) ?_ hi)
  cases hp : s.pc j <;> rw [hp] at hj <;> cases hj
  · rfl
  · exact .inl rfl

theorem no_scan (hl : LockInv lk s) (hi : (s.pc i).Falls c) (w : Fin n) (c' : χ) (k : Nat) :
    s.pc w ≠ .wScan c' k := by
  intro hw
  have hwi : w = i := by
    refine hl.excl (m := none) (by rw [hw]; exact .inr rfl) ?_
    cases hp : s.pc i <;> rw [hp] at hi <;> first | rfl | cases hi
  rw [← hwi, hw] at hi
  exact hi

theorem sleep_signal (hl : LockInv lk s) (h : SleepInv s) (hpc : s.pc i = .wSet c) (hw : pc.Wakes c)
    (hscan : ∀ c' k, pc ≠ .wScan c' (k + 1)) :
    SleepInv ({ s with cond := update s.cond c true }.goto i pc) := by
  have hpcs : ∀ c', ¬ pc.Tested c' ∧ ¬ pc.Falls c' := fun c' => by
    cases pc <;> first | exact ⟨id, id⟩ | cases hw
  refine sleep_move h rfl (fun c' hc => ?_) (fun j c' hji hj hf => ?_) (fun _ _ => rfl)
    (fun _ _ hj => .inl hj) (fun c' hc => absurd hc (hpcs c').1) (fun c' k hk j hj => ?_) (fun c' hc => ?_)
    (fun c' hc => absurd hc (hpcs c').2) (fun c' hc => by rw [hpc] at hc; exact hc.elim)
  · by_cases hcc : c' = c
    · subst hcc
      exact .inr hw
    · exact .inl (by simpa only [State.goto, update_of_ne hcc] using hc)
  · have hne : c' ≠ c := by
      rintro rfl
      exact not_tested hl (by rw [hpc]; rfl) hji hj
    simpa only [State.goto, update_of_ne hne] using hf
  · cases k with
    | zero => omega
    | succ k => exact absurd hk (hscan c' k)
  · subst hc
    exact absurd rfl (hpcs c').2

theorem sleep_step (hl : LockInv lk s) (h : SleepInv s) (hs : step lk s i = some s') : SleepInv s' := by
  have htested := h.tested i
  unfold step at hs
  split at hs
  all_goals
    rename_i hpc
    rw [hpc] at htested
  case h_1 c | h_11 c | h_16 | h_19 p =>
    obtain ⟨-, rfl⟩ := acquire_some hs
    exact sleep_plain h rfl (fun _ hc => hc) (fun _ _ => rfl) (fun _ _ hj => hj)
      (fun c => by simp [hpc, Pc.Wakes]) fun c => by simp [Pc.Tested, Pc.Falls]
  case h_2 c =>
    split at hs
    · cases hs
      exact sleep_plain h rfl (fun _ hc => hc) (fun _ _ => rfl) (fun _ _ hj => hj)
        (fun c => by simp [hpc, Pc.Wakes]) fun c => by simp [Pc.Tested, Pc.Falls]
    · next hfalse =>
      have hfalse : s.cond c = false := by simpa using hfalse
      split at hs
      · cases hs
        refine sleep_move h rfl (fun _ hc => .inl hc) (fun _ _ _ _ hf => hf) (fun _ _ => rfl)
          (fun _ _ hj => .inl hj) (fun c' hc => ?_) (fun c' k hk => by cases hk) (fun c' hc => by cases hc)
          (fun c' hc => hc.elim) (fun c' hc => by rw [hpc] at hc; exact hc.elim)
        cases hc
        exact hfalse
      · cases hs
        refine sleep_move h rfl (fun _ hc => .inl hc) (fun _ _ _ _ hf => hf) (fun _ _ => rfl)
          (fun _ _ hj => .inl hj) (fun c' hc => hc.elim) (fun c' k hk => by cases hk)
          (fun c' hc => by cases hc) (fun c' hc => .inr ?_)
          (fun c' hc => by rw [hpc] at hc; exact hc.elim)
        cases hc
        exact hfalse
  case h_3 c =>
    obtain ⟨-, rfl⟩ := acquire_some hs
    exact sleep_move h rfl (fun _ hc => .inl hc) (fun _ _ _ _ hf => hf) (fun _ _ => rfl)
      (fun _ _ hj => .inl hj) htested (fun c' k hk => by cases hk) (fun c' hc => by cases hc)
      (fun c' hc => hc.elim) (fun c' hc => by rw [hpc] at hc; exact hc.elim)
  case h_4 c =>
    cases hs
    refine sleep_move h rfl (fun _ hc => .inl hc) (fun _ _ _ _ hf => hf) (fun _ _ => rfl)
      (fun _ _ hj => .inl hj) (fun c' hc => hc.elim) (fun c' k hk => by cases hk)
      (fun c' hc => by cases hc) (fun c' hc => .inr (htested c' hc))
      (fun c' hc => by rw [hpc] at hc; exact hc.elim)
  case h_5 c =>
    cases hs
    have hfalls : (s.pc i).Falls c := by rw [hpc]; rfl
    refine sleep_move h rfl (fun _ hc => .inl hc) (fun _ _ _ _ hf => hf)
      (fun j hj => update_of_ne hj _ _) (fun j c' hj => ?_) (fun c' hc => hc.elim)
      (fun c' k hk => by cases hk) (fun c' hc => ?_) (fun c' hc => .inl ?_)
      (fun c' hc => by rw [hpc] at hc; exact hc.elim)
    · by_cases hji : j = i
      · subst hji
        have hc : some c = some c' := by
          simpa only [State.Sleeps, State.goto, update_self] using hj.2
        obtain rfl := Option.some.inj hc
        exact .inr ⟨hfalls, fun w k => no_scan hl hfalls w c k⟩
      · refine .inl ⟨hj.1, ?_⟩
        simpa only [State.Sleeps, State.goto, update_of_ne hji] using hj.2
    · cases hc
      exact update_self i _ _
    · rw [hpc]
      exact hc
  case h_6 c =>
    cases hs
    have hfalls : (s.pc i).Falls c := by rw [hpc]; rfl
    refine sleep_move h rfl (fun _ hc => .inl hc) (fun _ _ _ _ hf => hf) (fun _ _ => rfl)
      (fun j c' hj => ?_) (fun c' hc => hc.elim) (fun c' k hk => by cases hk) (fun c' hc => by cases hc)
      (fun c' hc => hc.elim) (fun c' hc => by rw [hpc] at hc; exact hc.elim)
    by_cases hji : j = i
    · subst hji
      obtain rfl := Option.some.inj ((h.chan j c hpc).symm.trans hj.2)
      exact .inr ⟨hfalls, fun w k => no_scan hl hfalls w c k⟩
    · refine .inl ⟨?_, hj.2⟩
      simpa only [State.Sleeps, State.setState, State.goto, update_of_ne hji] using hj.1
  case h_7 c =>
    have hmove : ∀ pc : Pc n χ, (∀ c, ¬ pc.Tested c ∧ ¬ pc.Falls c ∧ ∀ k, pc ≠ .wScan c k) →
        SleepInv ({ s with chan := update s.chan i none }.goto i pc) := by
      intro pc hpost
      refine sleep_plain h rfl (fun _ hc => hc) (fun j hj => update_of_ne hj _ _) (fun j c' hj => ?_)
        (fun c => by simp [hpc, Pc.Wakes]) hpost
      have hji : j ≠ i := by
        rintro rfl
        simp [State.Sleeps, State.goto] at hj
      exact ⟨hj.1, by simpa only [State.goto, update_of_ne hji] using hj.2⟩
    dsimp only at hs
    split at hs <;> cases hs
    · exact hmove _ fun c => by simp [Pc.Tested, Pc.Falls]
    · exact hmove _ fun c => by simp [Pc.Tested, Pc.Falls]
  case h_8 c | h_9 c | h_10 c | h_15 c | h_18 | h_21 =>
    cases hs
    exact sleep_plain h rfl (fun _ hc => hc) (fun _ _ => rfl) (fun _ _ hj => hj)
      (fun c => by simp [hpc, Pc.Wakes]) fun c => by simp [Pc.Tested, Pc.Falls]
  case h_12 c =>
    dsimp only at hs
    split at hs <;> cases hs
    · exact sleep_signal hl h hpc rfl fun c' k hk => by cases hk
    · exact sleep_signal hl h hpc rfl fun c' k hk => by cases hk
  case h_13 c =>
    obtain ⟨-, rfl⟩ := acquire_some hs
    refine sleep_move h rfl (fun _ hc => .inl hc) (fun _ _ _ _ hf => hf) (fun _ _ => rfl)
      (fun _ _ hj => .inl hj) (fun c' hc => hc.elim) (fun c' k hk j hj => ?_) (fun c' hc => by cases hc)
      (fun c' hc => hc.elim) (fun c' hc => .inl (by rw [hpc] at hc; exact hc))
    cases hk
    omega
  case h_14 c k =>
    split at hs
    · next hk =>
      -- the slots up to `k` have been looked at
      have hscan : ∀ t : State n κ χ L, (∀ j c', t.Sleeps j c' → s.Sleeps j c') →
          t.pc = s.pc → t.cond = s.cond → t.chan = s.chan → ¬ t.Sleeps ⟨k, hk⟩ c →
          SleepInv (t.goto i (.wScan c (k + 1))) := by
        intro t hfew htpc htcond htchan hnot
        have hgoto : (t.goto i (.wScan c (k + 1))).pc = update s.pc i (.wScan c (k + 1)) := by
          rw [← htpc]
          rfl
        refine sleep_move h hgoto (fun c' hc => .inl (htcond ▸ hc))
          (fun _ c' _ _ hf => htcond.symm ▸ hf) (fun j _ => congrFun htchan j)
          (fun j c' hj => .inl (hfew j c' hj)) (fun c' hc => hc.elim) (fun c' k' hk' j hj hsl => ?_)
          (fun c' hc => by cases hc) (fun c' hc => hc.elim)
          (fun c' hc => .inl (by rw [hpc] at hc; exact hc))
        cases hk'
        rcases Nat.lt_succ_iff_lt_or_eq.mp hj with hlt | heq
        · exact h.scanned i c k hpc j hlt (hfew j c hsl)
        · obtain rfl : j = ⟨k, hk⟩ := Fin.ext heq
          exact hnot hsl
      split at hs <;> cases hs
      · refine hscan (s.setState ⟨k, hk⟩ .RUNNABLE) (fun j c' hj => sleeps_setState (by decide) hj) rfl rfl
          rfl fun hc => ?_
        simp [State.Sleeps, State.setState] at hc
      · next hnot => exact hscan s (fun _ _ hj => hj) rfl rfl rfl hnot
    · next hk =>
      -- the scan is over
      have hempty : s.Empty c := by
        refine fun j => ⟨fun hf => no_scan hl hf i c k hpc, h.scanned i c k hpc j ?_⟩
        have := j.isLt
        omega
      have hmove : ∀ pc : Pc n χ, (∀ c, ¬ pc.Tested c ∧ ¬ pc.Falls c ∧ ∀ k, pc ≠ .wScan c k) →
          SleepInv (s.goto i pc) := by
        intro pc hpost
        refine sleep_move h rfl (fun _ hc => .inl hc) (fun _ _ _ _ hf => hf) (fun _ _ => rfl)
          (fun _ _ hj => .inl hj) (fun c' hc => absurd hc (hpost c').1)
          (fun c' k hk => absurd hk ((hpost c').2.2 k)) (fun c' hc => ?_)
          (fun c' hc => absurd hc (hpost c').2.1) (fun c' hc => .inr ?_)
        · subst hc
          exact absurd rfl (hpost c').2.1
        · rw [hpc] at hc
          cases hc
          exact hempty
      split at hs <;> cases hs
      · exact hmove _ fun c => by simp [Pc.Tested, Pc.Falls]
      · exact hmove _ fun c => by simp [Pc.Tested, Pc.Falls]
  case h_17 =>
    cases hs
    exact sleep_plain h rfl (fun _ hc => hc) (fun _ _ => rfl)
      (fun j c hj => sleeps_setState (by decide) hj)
      (fun c => by simp [hpc, Pc.Wakes]) fun c => by simp [Pc.Tested, Pc.Falls]
  case h_20 p =>
    split at hs <;> cases hs
    · exact sleep_plain h rfl (fun _ hc => hc) (fun _ _ => rfl)
        (fun j c hj => sleeps_setState (by decide) hj)
        (fun c => by simp [hpc, Pc.Wakes]) fun c => by simp [Pc.Tested, Pc.Falls]
    · exact sleep_plain h rfl (fun _ hc => hc) (fun _ _ => rfl) (fun _ _ hj => hj)
        (fun c => by simp [hpc, Pc.Wakes]) fun c => by simp [Pc.Tested, Pc.Falls]
  case h_22 | h_23 | h_24 | h_25 | h_26 => cases hs

/-! ## The scheduler -/

variable [DecidableEq κ]

omit [DecidableEq χ] [DecidableEq L] [DecidableEq κ] in
theorem lock_hand (h : LockInv lk s) (hlock : ∀ m, m ≠ none → s'.lock m = s.lock m)
    (hother : ∀ j m, m ≠ none → ((s'.pc j).Holds lk m ↔ (s.pc j).Holds lk m))
    (hproc : ∀ j, (s'.pc j).Holds lk none ↔ s'.lock none = some (.proc j))
    (hcpu : ∀ k, s'.lock none = some (.cpu k) ↔ s'.cpu k = .scan) (hap : ∀ j, (s'.pc j).Apart lk) :
    LockInv lk s' := by
  refine ⟨fun j m => ?_, fun k m => ?_, hap⟩
  · by_cases hm : m = none
    · subst hm
      exact hproc j
    · rw [hother j m hm, hlock m hm]
      exact h.owner j m
  · by_cases hm : m = none
    · subst hm
      rw [hcpu k]
      simp
    · rw [hlock m hm, h.sched k m]
      simp [hm]

theorem lock_swtch {k : κ} (h : LockInv lk s) (hi : ∀ m, (s.pc i).Holds lk m ↔ m = none)
    (hpc : ∀ m, ¬ pc.Holds lk m) (hap : pc.Apart lk) :
    LockInv lk ({ s with
      lock := update s.lock none (some (.cpu k))
      cpu := update s.cpu k .scan }.goto i pc) := by
  have hmine : s.lock none = some (.proc i) := (h.owner i none).mp ((hi none).mpr rfl)
  refine lock_hand h (fun m hm => update_of_ne hm _ _) (fun j m hm => ?_) (fun j => ?_)
    (fun k' => ?_) fun j => ?_
  · by_cases hj : j = i
    · subst hj
      simp [State.goto, hpc, hi, hm]
    · simp [State.goto, update_of_ne hj]
  · by_cases hj : j = i
    · subst hj
      simp [State.goto, hpc]
    · simp only [State.goto, update_of_ne hj, update_self]
      refine ⟨fun hc => absurd (h.excl hc ((hi none).mpr rfl)) hj, fun hc => by cases hc⟩
  · by_cases hk : k' = k
    · subst hk
      simp [State.goto]
    · simp only [State.goto, update_of_ne hk, update_self]
      have hnot : s.cpu k' ≠ .scan := fun hc => by
        have := (h.sched k' none).mpr ⟨rfl, hc⟩
        rw [hmine] at this
        cases this
      simp [hnot, Ne.symm hk]
  · by_cases hj : j = i
    · subst hj
      simpa [State.goto] using hap
    · simpa [State.goto, update_of_ne hj] using h.apart j

theorem lock_pick {k : κ} {p : Fin n} (h : LockInv lk s) (hk : s.cpu k = .scan)
    (hp : ∀ m, ¬ (s.pc p).Holds lk m) (hpc : ∀ m, pc.Holds lk m ↔ m = none) (hap : pc.Apart lk) :
    LockInv lk ({ s.setState p .RUNNING with
      lock := update s.lock none (some (.proc p))
      cpu := update s.cpu k (.run p) }.goto p pc) := by
  have hmine : s.lock none = some (.cpu k) := (h.sched k none).mpr ⟨rfl, hk⟩
  refine lock_hand h (fun m hm => update_of_ne hm _ _) (fun j m hm => ?_) (fun j => ?_)
    (fun k' => ?_) fun j => ?_
  · by_cases hj : j = p
    · subst hj
      simp [State.goto, hpc, hp, hm]
    · simp [State.goto, State.setState, update_of_ne hj]
  · by_cases hj : j = p
    · subst hj
      simp [State.goto, hpc]
    · simp only [State.goto, State.setState, update_of_ne hj, update_self]
      refine ⟨fun hc => ?_, fun hc => ?_⟩
      · rw [h.owner j none, hmine] at hc
        cases hc
      · cases hc
        exact absurd rfl hj
  · by_cases hk' : k' = k
    · subst hk'
      simp [State.goto]
    · simp only [State.goto, update_of_ne hk', update_self]
      have hnot : s.cpu k' ≠ .scan := fun hc => by
        have := ((h.sched k' none).mpr ⟨rfl, hc⟩).symm.trans hmine
        cases this
        exact hk' rfl
      simp [State.setState, hnot]
  · by_cases hj : j = p
    · subst hj
      simpa [State.goto] using hap
    · simpa [State.goto, State.setState, update_of_ne hj] using h.apart j

theorem lock_next {a : Act n κ χ} (h : LockInv lk s) (hs : next lk s a = some s') : LockInv lk s' := by
  cases a with
  | await i c | signal i c | yield i | kill i p =>
    simp only [next] at hs
    split at hs
    · next hpc =>
      cases hs
      exact lock_goto h rfl rfl rfl trivial fun m => by simp [hpc, Pc.Holds]
    · cases hs
  | step i => exact lock_step h hs
  | consume i =>
    simp only [next] at hs
    split at hs
    · next c hpc =>
      cases hs
      exact lock_goto h rfl rfl rfl trivial fun m => by simp [hpc, Pc.Holds]
    · cases hs
  | swtch k i =>
    simp only [next] at hs
    split at hs
    · split at hs
      · split at hs
        · next c hpc =>
          cases hs
          exact lock_swtch h (fun m => by simp [hpc, Pc.Holds]) (fun m => by simp [Pc.Holds]) trivial
        · next hpc =>
          cases hs
          exact lock_swtch h (fun m => by simp [hpc, Pc.Holds]) (fun m => by simp [Pc.Holds]) trivial
        · cases hs
      · cases hs
    · cases hs
  | enter k =>
    simp only [next] at hs
    split at hs
    · next hk hfree =>
      cases hs
      refine lock_hand h (fun m hm => update_of_ne hm _ _) (fun j m _ => Iff.rfl) (fun j => ?_)
        (fun k' => ?_) h.apart
      · rw [h.owner j none, hfree]
        simp
      · by_cases hk' : k' = k
        · subst hk'
          simp
        · have hnot := (h.sched k' none).symm
          rw [hfree] at hnot
          simpa [update_of_ne hk', Ne.symm hk'] using hnot
    · cases hs
  | pick k p =>
    simp only [next] at hs
    split at hs
    · next hk =>
      split at hs
      · split at hs
        · next c hpc =>
          cases hs
          have hp : s.pc p = .asleep c := hpc
          exact lock_pick h hk (fun m => by simp [hp, Pc.Holds]) (fun m => by simp [Pc.Holds]) trivial
        · next hpc =>
          cases hs
          have hp : s.pc p = .off := hpc
          exact lock_pick h hk (fun m => by simp [hp, Pc.Holds]) (fun m => by simp [Pc.Holds]) trivial
        · cases hs
      · cases hs
    · cases hs
  | exit k =>
    simp only [next] at hs
    split at hs
    · next hk =>
      cases hs
      have hmine : s.lock none = some (.cpu k) := (h.sched k none).mpr ⟨rfl, hk⟩
      refine lock_hand h (fun m hm => update_of_ne hm _ _) (fun j m _ => Iff.rfl) (fun j => ?_)
        (fun k' => ?_) h.apart
      · rw [h.owner j none, hmine]
        simp
      · by_cases hk' : k' = k
        · subst hk'
          simp
        · have hnot := h.sched k' none
          rw [hmine] at hnot
          simpa [update_of_ne hk', Ne.symm hk'] using hnot
    · cases hs

theorem sleep_next {a : Act n κ χ} (hl : LockInv lk s) (h : SleepInv s) (hs : next lk s a = some s') :
    SleepInv s' := by
  cases a with
  | await i c | signal i c | yield i | kill i p =>
    simp only [next] at hs
    split at hs
    · next hpc =>
      cases hs
      exact sleep_plain h rfl (fun _ hc => hc) (fun _ _ => rfl) (fun _ _ hj => hj)
        (fun c => by simp [hpc, Pc.Wakes]) fun c => by simp [Pc.Tested, Pc.Falls]
    · cases hs
  | step i => exact sleep_step hl h hs
  | consume i =>
    simp only [next] at hs
    split at hs
    · next c hpc =>
      cases hs
      refine sleep_plain h rfl (fun c' hc => ?_) (fun _ _ => rfl) (fun _ _ hj => hj)
        (fun c => by simp [hpc, Pc.Wakes]) fun c => by simp [Pc.Tested, Pc.Falls]
      by_cases hcc : c' = c
      · subst hcc
        simp at hc
      · simpa only [update_of_ne hcc] using hc
    · cases hs
  | swtch k i =>
    simp only [next] at hs
    split at hs
    · split at hs
      · split at hs
        all_goals
          rename_i hpc
          cases hs
        · exact sleep_plain h rfl (fun _ hc => hc) (fun _ _ => rfl) (fun _ _ hj => hj)
            (fun c => by simp [show s.pc i = _ from hpc, Pc.Wakes]) fun c => by simp [Pc.Tested, Pc.Falls]
        · exact sleep_plain h rfl (fun _ hc => hc) (fun _ _ => rfl) (fun _ _ hj => hj)
            (fun c => by simp [show s.pc i = _ from hpc, Pc.Wakes]) fun c => by simp [Pc.Tested, Pc.Falls]
      · cases hs
    · cases hs
  | enter k | exit k =>
    simp only [next] at hs
    split at hs
    · cases hs
      exact ⟨h.tested, h.scanned, h.chan, h.met⟩
    · cases hs
  | pick k p =>
    simp only [next] at hs
    split at hs
    · split at hs
      · split at hs
        all_goals
          rename_i hpc
          cases hs
        · exact sleep_plain h rfl (fun _ hc => hc) (fun _ _ => rfl)
            (fun j c hj => sleeps_setState (by decide : ProcState.RUNNING ≠ .SLEEPING) hj)
            (fun c => by simp [show s.pc p = _ from hpc, Pc.Wakes]) fun c => by simp [Pc.Tested, Pc.Falls]
        · exact sleep_plain h rfl (fun _ hc => hc) (fun _ _ => rfl)
            (fun j c hj => sleeps_setState (by decide : ProcState.RUNNING ≠ .SLEEPING) hj)
            (fun c => by simp [show s.pc p = _ from hpc, Pc.Wakes]) fun c => by simp [Pc.Tested, Pc.Falls]
      · cases hs
    · cases hs

/-! ## Runs -/

omit [DecidableEq χ] [DecidableEq L] [DecidableEq κ] in
theorem lock_init (cond : χ → Bool) : LockInv lk (init cond : State n κ χ L) where
  owner i m := by simp [init, Pc.Holds]
  sched k m := by simp [init]
  apart i := trivial

omit [DecidableEq χ] [DecidableEq L] [DecidableEq κ] in
theorem sleep_init (cond : χ → Bool) : SleepInv (init cond : State n κ χ L) where
  tested i c h := h.elim
  scanned i c k h := by cases h
  chan i c h := by cases h
  met c _ := .inr fun j => ⟨id, fun h => by cases h.1⟩

/-- In no state of any run is a condition true, a process `SLEEPING` on its channel, and no waker between
making the condition true and the end of its scan. -/
theorem no_lost_wakeup {cond : χ → Bool} {tr : List (State n κ χ L × Act n κ χ)}
    (hrun : Path (Next (next lk)) (init cond) tr s) : Along NoLostWakeup tr s := by
  have hinv : Along (fun s => LockInv lk s ∧ SleepInv s) tr s :=
    along_of_all_steps (fun _ _ _ h hs => ⟨lock_next h.1 hs, sleep_next h.1 h.2 hs⟩) hrun
      ⟨lock_init cond, sleep_init cond⟩
  exact hinv.mono fun _ h => h.2.noLostWakeup

/-- A process sleeps, and a second one has just made its condition true. -/
theorem no_lost_wakeup_before_scan :
    ∃ tr s, Path (Next (next fun _ => some ())) (init fun _ => false : State 2 Unit Unit Unit) tr s ∧
      s.cond () = true ∧ s.state 0 = .SLEEPING ∧ s.chan 0 = some () ∧ s.pc 1 = .wPtable () ∧
      Along NoLostWakeup tr s := by
  obtain ⟨s, hs⟩ : ∃ s, follow (next fun _ => some ()) (init fun _ => false : State 2 Unit Unit Unit)
      [.enter (), .pick () 0, .step 0, .await 0 (), .step 0, .step 0, .step 0, .step 0, .step 0, .step 0,
        .swtch () 0, .pick () 1, .step 1, .signal 1 (), .step 1, .step 1] = some s := ⟨_, rfl⟩
  obtain ⟨tr, hrun, -⟩ := path_of_follow hs
  refine ⟨tr, s, hrun, ?_, ?_, ?_, ?_, no_lost_wakeup hrun⟩ <;> cases hs <;> rfl

/-! ## Critical sections -/

/-- No two contexts are between `acquire` and `release` of one lock. A scheduler that looks at the table
counts for `ptable.lock`, which goes from one context to the next across `swtch`. -/
structure Exclusive (lk : χ → Option L) (s : State n κ χ L) : Prop where
  procs : ∀ m i j, (s.pc i).Holds lk m → (s.pc j).Holds lk m → i = j
  cpus : ∀ k l, s.cpu k = .scan → s.cpu l = .scan → k = l
  apart : ∀ i k, (s.pc i).Holds lk none → s.cpu k ≠ .scan

omit [DecidableEq χ] [DecidableEq L] [DecidableEq κ] in
theorem LockInv.exclusive (h : LockInv lk s) : Exclusive lk s where
  procs _ _ _ hi hj := h.excl hi hj
  cpus k l hk hl := by
    have hkl := ((h.sched k none).mpr ⟨rfl, hk⟩).symm.trans ((h.sched l none).mpr ⟨rfl, hl⟩)
    simpa using hkl
  apart i k hi hk := by
    have hik := ((h.owner i none).mp hi).symm.trans ((h.sched k none).mpr ⟨rfl, hk⟩)
    simp at hik

theorem critical_sections_exclude {cond : χ → Bool} {tr : List (State n κ χ L × Act n κ χ)}
    (hrun : Path (Next (next lk)) (init cond) tr s) : Along (Exclusive lk) tr s := by
  apply (along_of_all_steps (fun _ _ _ h hs => lock_next h hs) hrun (lock_init cond)).mono
  intro _ h
  exact h.exclusive

/-- The scheduler has picked a process, and the process has `ptable.lock` until `forkret` releases it. -/
theorem critical_sections_exclude_first :
    ∃ tr s, Path (Next (next fun _ => some ())) (init fun _ => false : State 2 Unit Unit Unit) tr s ∧
      (s.pc 0).Holds (fun _ => some ()) none ∧ Along (Exclusive fun _ => some ()) tr s := by
  obtain ⟨s, hs⟩ : ∃ s, follow (next fun _ => some ()) (init fun _ => false : State 2 Unit Unit Unit)
      [.enter (), .pick () 0] = some s := ⟨_, rfl⟩
  obtain ⟨tr, hrun, -⟩ := path_of_follow hs
  refine ⟨tr, s, hrun, ?_, critical_sections_exclude hrun⟩
  cases hs
  rfl

end Xv6.Sleep
