import Xv6.Sleep.Proofs

/-!
# A process runs on one CPU

Between `p->state = SLEEPING` or `p->state = RUNNABLE` and the `swtch` of `sched` a process is still on its
CPU, and its state says otherwise. It has `ptable.lock` then, so no scheduler looks.
-/

open Xv6.Run Function

namespace Xv6.Sleep

variable {n : Nat} {κ χ L : Type} {lk : χ → Option L} {s s' : State n κ χ L} {i p : Fin n} {pc : Pc n χ}

/-- Its context is saved, and no CPU is on its stack. -/
def Pc.Off : Pc n χ → Prop
  | .off | .asleep _ => True
  | _ => False

/-- About to leave the CPU. -/
def Pc.Parts : Pc n χ → Prop
  | .sSched _ | .ySched => True
  | _ => False

structure CpuInv (s : State n κ χ L) : Prop where
  off : ∀ k p, s.cpu k = .run p → ¬ (s.pc p).Off
  one : ∀ k l p, s.cpu k = .run p → s.cpu l = .run p → k = l
  runs : ∀ p, ¬ (s.pc p).Off → s.state p = .RUNNING ∨ (s.pc p).Parts

theorem Pc.Parts.holds (h : pc.Parts) : pc.Holds lk none := by
  cases pc <;> first | rfl | exact h.elim

/-- A process moves on where it runs. Of the others it wakes only sleepers, with `ptable.lock` held. -/
theorem cpu_move (hl : LockInv lk s) (h : CpuInv s) (hpc : s'.pc = update s.pc i pc) (hcpu : s'.cpu = s.cpu)
    (hi : ¬ (s.pc i).Off) (hoff : ¬ pc.Off) (hself : s'.state i = s.state i ∧ ¬ (s.pc i).Parts ∨ pc.Parts)
    (hother : ∀ p, p ≠ i → s'.state p = s.state p ∨ s.state p = .SLEEPING ∧ (s.pc i).Holds lk none) :
    CpuInv s' := by
  have hpcs : ∀ p, ¬ (s'.pc p).Off ↔ ¬ (s.pc p).Off := by
    intro p
    by_cases hp : p = i <;> simp [hpc, hp, hi, hoff]
  constructor
  · intro k p hk
    rw [hpcs]
    exact h.off k p (hcpu ▸ hk)
  · rw [hcpu]
    exact h.one
  · intro p hp
    have hrun := h.runs p ((hpcs p).mp hp)
    by_cases hpi : p = i
    · subst hpi
      rw [hpc, update_self]
      rcases hself with ⟨hst, hparts⟩ | hparts
      · exact .inl (hst.trans (hrun.resolve_right hparts))
      · exact .inr hparts
    · rw [hpc, update_of_ne hpi]
      rcases hother p hpi with hst | ⟨hsl, hlock⟩
      · rwa [hst]
      · -- A sleeper on a CPU has the lock itself.
        have hparts : (s.pc p).Parts := hrun.resolve_left (by simp [hsl])
        exact absurd (hl.excl hparts.holds hlock) hpi

theorem cpu_wake (hl : LockInv lk s) (h : CpuInv s) (hp : s.state p = .SLEEPING) (hlock : (s.pc i).Holds lk none)
    (hi : ¬ (s.pc i).Off) (hparts : ¬ (s.pc i).Parts) (hoff : ¬ pc.Off) :
    CpuInv ((s.setState p .RUNNABLE).goto i pc) := by
  have hip : i ≠ p := by
    rintro rfl
    have hrun := (h.runs i hi).resolve_right hparts
    simp [hp] at hrun
  refine cpu_move hl h rfl rfl hi hoff (.inl ⟨update_of_ne hip _ _, hparts⟩) fun q _ => ?_
  by_cases hq : q = p
  · subst hq
    exact .inr ⟨hp, hlock⟩
  · exact .inl (update_of_ne hq _ _)

variable [DecidableEq χ] [DecidableEq L]

theorem cpu_step (hl : LockInv lk s) (h : CpuInv s) (hs : step lk s i = some s') : CpuInv s' := by
  unfold step at hs
  split at hs
  all_goals rename_i hpc
  case h_1 | h_3 | h_11 | h_13 | h_16 | h_19 =>
    obtain ⟨-, rfl⟩ := acquire_some hs
    refine cpu_move hl h rfl rfl ?_ ?_ ?_ ?_ <;> simp [hpc, Pc.Off, Pc.Parts, State.goto]
  case h_4 | h_5 | h_8 | h_9 | h_10 | h_15 | h_18 | h_21 =>
    cases hs
    refine cpu_move hl h rfl rfl ?_ ?_ ?_ ?_ <;> simp [hpc, Pc.Off, Pc.Parts, State.goto, State.release]
  case h_6 | h_17 =>
    cases hs
    refine cpu_move hl h rfl rfl ?_ ?_ ?_ ?_ <;> simp +contextual [hpc, Pc.Off, Pc.Parts, State.goto, State.setState]
  case h_2 =>
    repeat' split at hs
    all_goals
      cases hs
      refine cpu_move hl h rfl rfl ?_ ?_ ?_ ?_ <;> simp [hpc, Pc.Off, Pc.Parts, State.goto]
  case h_7 | h_12 =>
    dsimp only at hs
    split at hs
    all_goals
      cases hs
      refine cpu_move hl h rfl rfl ?_ ?_ ?_ ?_ <;> simp [hpc, Pc.Off, Pc.Parts, State.goto]
  case h_14 c k =>
    repeat' split at hs
    all_goals cases hs
    · next hsl => apply cpu_wake hl h hsl.1 <;> simp [hpc, Pc.Holds, Pc.Off, Pc.Parts]
    all_goals refine cpu_move hl h rfl rfl ?_ ?_ ?_ ?_ <;> simp [hpc, Pc.Off, Pc.Parts, State.goto]
  case h_20 p =>
    split at hs
    all_goals cases hs
    · next hsl => apply cpu_wake hl h hsl <;> simp [hpc, Pc.Holds, Pc.Off, Pc.Parts]
    · refine cpu_move hl h rfl rfl ?_ ?_ ?_ ?_ <;> simp [hpc, Pc.Off, Pc.Parts, State.goto]
  case h_22 | h_23 | h_24 | h_25 | h_26 => cases hs

variable [DecidableEq κ]

omit [DecidableEq χ] [DecidableEq L] in
theorem cpu_turn {k : κ} {c : Cpu n} (h : CpuInv s) (hcpu : s'.cpu = update s.cpu k c)
    (hnew : ∀ q, c = .run q → ¬ (s'.pc q).Off ∧ ∀ l, s.cpu l ≠ .run q)
    (hkeep : ∀ l q, l ≠ k → s.cpu l = .run q → ¬ (s'.pc q).Off)
    (hruns : ∀ q, ¬ (s'.pc q).Off → s'.state q = .RUNNING ∨ (s'.pc q).Parts) : CpuInv s' := by
  have hself : ∀ {q}, s'.cpu k = .run q → c = .run q := by simp [hcpu]
  have hother : ∀ {l q}, l ≠ k → s'.cpu l = .run q → s.cpu l = .run q := fun hl hq => by
    rwa [hcpu, update_of_ne hl] at hq
  constructor
  · intro l q hq
    by_cases hl : l = k
    · subst hl
      exact (hnew q (hself hq)).1
    · exact hkeep l q hl (hother hl hq)
  · intro l l' q hq hq'
    by_cases hl : l = k <;> by_cases hl' : l' = k
    · exact hl.trans hl'.symm
    · subst hl
      exact absurd (hother hl' hq') ((hnew q (hself hq)).2 l')
    · subst hl'
      exact absurd (hother hl hq) ((hnew q (hself hq')).2 l)
    · exact h.one l l' q (hother hl hq) (hother hl' hq')
  · exact hruns

theorem cpu_next {a : Act n κ χ} (hl : LockInv lk s) (h : CpuInv s) (hs : next lk s a = some s') : CpuInv s' := by
  cases a with
  | await i c | signal i c | yield i | kill i p | consume i =>
    simp only [next] at hs
    split at hs
    · next hpc =>
      cases hs
      refine cpu_move hl h rfl rfl ?_ ?_ ?_ ?_ <;> simp [hpc, Pc.Off, Pc.Parts, State.goto]
    · cases hs
  | step i => exact cpu_step hl h hs
  | swtch k i =>
    have hpark : s.cpu k = .run i → ∀ pc : Pc n χ, pc.Off →
        CpuInv ({ s with lock := update s.lock none (some (.cpu k)), cpu := update s.cpu k .scan }.goto i pc) := by
      intro hk pc hoff
      refine cpu_turn h rfl (fun q hq => by cases hq) (fun l q hlk hq => ?_) fun q hq => ?_
      · have hqi : q ≠ i := by
          rintro rfl
          exact hlk (h.one l k q hq hk)
        simpa [State.goto, hqi] using h.off l q hq
      · by_cases hqi : q = i
        · subst hqi
          simp [State.goto, hoff] at hq
        · simp only [State.goto, update_of_ne hqi] at hq ⊢
          exact h.runs q hq
    simp only [next] at hs
    split at hs
    · next q hk =>
      split at hs
      · next hqi =>
        subst hqi
        split at hs
        all_goals cases hs
        · exact hpark hk _ trivial
        · exact hpark hk _ trivial
      · cases hs
    · cases hs
  | enter k =>
    simp only [next] at hs
    split at hs
    · next hk hfree =>
      cases hs
      exact cpu_turn h rfl (fun q hq => by cases hq) (fun l q _ hq => h.off l q hq) h.runs
    · cases hs
  | exit k =>
    simp only [next] at hs
    split at hs
    · next hk =>
      cases hs
      exact cpu_turn h rfl (fun q hq => by cases hq) (fun l q _ hq => h.off l q hq) h.runs
    · cases hs
  | pick k p =>
    have hpick : (s.pc p).Off → ∀ pc : Pc n χ, ¬ pc.Off →
        CpuInv ({ s.setState p .RUNNING with
          lock := update s.lock none (some (.proc p)), cpu := update s.cpu k (.run p) }.goto p pc) := by
      intro hp pc hoff
      have hfree : ∀ l, s.cpu l ≠ .run p := fun l hl => h.off l p hl hp
      refine cpu_turn h rfl (fun q hq => ?_) (fun l q _ hq => ?_) fun q hq => ?_
      · cases hq
        exact ⟨by simpa [State.goto] using hoff, hfree⟩
      · have hqp : q ≠ p := by
          rintro rfl
          exact hfree l hq
        simpa [State.goto, State.setState, hqp] using h.off l q hq
      · by_cases hqp : q = p
        · subst hqp
          exact .inl (update_self q _ _)
        · simp only [State.goto, State.setState, update_of_ne hqp] at hq ⊢
          exact h.runs q hq
    simp only [next] at hs
    split at hs
    · split at hs
      · split at hs
        all_goals
          rename_i hpc
          cases hs
        · exact hpick (by rw [show s.pc p = _ from hpc]; trivial) _ id
        · exact hpick (by rw [show s.pc p = _ from hpc]; trivial) _ id
      · cases hs
    · cases hs

omit [DecidableEq χ] [DecidableEq L] [DecidableEq κ] in
theorem cpu_init (cond : χ → Bool) : CpuInv (init cond : State n κ χ L) where
  off k p hk := by cases hk
  one k l p hk := by cases hk
  runs p hp := absurd trivial hp

/-- No two CPUs run one process, and a process that a scheduler finds `RUNNABLE` runs on none: its context
has been saved. -/
theorem runs_on_one_cpu {cond : χ → Bool} {tr : List (State n κ χ L × Act n κ χ)}
    (hrun : Path (Next (next lk)) (init cond) tr s) :
    Along (fun s => (∀ k l p, s.cpu k = .run p → s.cpu l = .run p → k = l) ∧
      ∀ k p, s.cpu k = .scan → s.state p = .RUNNABLE → (s.pc p).Off ∧ ∀ l, s.cpu l ≠ .run p) tr s := by
  have hinv : Along (fun s => LockInv lk s ∧ CpuInv s) tr s :=
    along_of_all_steps (fun _ _ _ h hs => ⟨lock_next h.1 hs, cpu_next h.1 h.2 hs⟩) hrun ⟨lock_init cond, cpu_init cond⟩
  apply hinv.mono
  rintro s ⟨hl, h⟩
  refine ⟨h.one, fun k p hk hp => ?_⟩
  have hoff : (s.pc p).Off := by
    by_contra hon
    -- On a CPU and not `RUNNING`, it would have the lock that the scheduler has.
    have hparts := (h.runs p hon).resolve_left (by simp [hp])
    exact hl.exclusive.apart p k hparts.holds hk
  exact ⟨hoff, fun l hrun => h.off l p hrun hoff⟩

/-- One of two CPUs runs the first process, and the other looks at the table. -/
theorem runs_on_one_cpu_two :
    ∃ tr s, Path (Next (next fun _ => none)) (init fun _ => false : State 2 Bool Unit Unit) tr s ∧
      s.cpu true = .run 0 ∧ s.cpu false = .scan ∧ s.state 1 = .RUNNABLE ∧ (s.pc 1).Off := by
  obtain ⟨s, hs⟩ : ∃ s, follow (next fun _ => none) (init fun _ => false : State 2 Bool Unit Unit)
      [.enter true, .pick true 0, .step 0, .enter false] = some s := ⟨_, rfl⟩
  obtain ⟨tr, hrun, -⟩ := path_of_follow hs
  have hone := (runs_on_one_cpu hrun).2.2 false 1
  refine ⟨tr, s, hrun, ?_⟩
  cases hs
  exact ⟨rfl, rfl, rfl, (hone rfl rfl).1⟩

end Xv6.Sleep
