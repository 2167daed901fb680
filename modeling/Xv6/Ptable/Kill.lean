import Xv6.Ptable.Moves

/-!
# `kill`

`kill` does not look at the state of the slot it finds, and `allocproc` does not clear `killed`. A `kill`
that finds a slot that is not in use, or a `fork` that fails after its child was killed, leaves `killed`
set for the next process in the slot.
-/

open Xv6.Run Function

namespace Xv6.Ptable

variable {s s' : State} {i k : Slot}

structure KillOk (s : State) : Prop where
  /-- A `kill` that has returned 0 has found a process. -/
  found : ∀ pid, s.said = some (.kill pid true) → ∃ k, (s.proc k).state ≠ .UNUSED ∧ (s.proc k).pid = pid
  /-- A process is killed only for a reason. -/
  blamed : ∀ k, (s.proc k).state ≠ .UNUSED → (s.proc k).killed = true → s.blamed k = true

/-- The slot that a `kill` finds is in use, and the child of a `fork` that fails has not been killed. -/
def HitsLive (s : State) : Act → Prop
  | .kill _ pid => ∀ k, s.find pid = some k → (s.proc k).state ≠ .UNUSED
  | .forkNext i false => ∀ np, s.pc i = .forkStack np ∨ s.pc i = .forkCopy np → (s.proc np).killed = false
  | _ => True

/-- Only a slot in use is marked, and for a reason. -/
def Marked (s : State) : Prop :=
  ∀ k, (s.proc k).killed = true → (s.proc k).state ≠ .UNUSED ∧ s.blamed k = true

theorem find_spec {pid : BitVec 32} (h : s.find pid = some k) : (s.proc k).pid = pid := by
  simpa using List.find?_some h

theorem unused_of_stage {p q : Proc} (h : p.state.stage = q.state.stage) (hq : q.state ≠ .UNUSED) :
    p.state ≠ .UNUSED := by
  intro hp
  rw [hp] at h
  cases hst : q.state <;> rw [hst] at h <;> first | exact hq hst | cases h

theorem Marked.set {p : Proc} (h : Marked s) (hp : p.killed = true → p.state ≠ .UNUSED ∧ s.blamed k = true) :
    Marked (s.set k p) := by
  intro l hl
  by_cases hlk : l = k
  · subst hlk
    simp only [State.set, update_self] at hl ⊢
    exact hp hl
  · simp only [State.set, update_of_ne hlk] at hl ⊢
    exact h l hl

theorem Marked.same {proc : Slot → Proc} (h : Marked s)
    (hstage : ∀ k, (proc k).state.stage = (s.proc k).state.stage)
    (hkilled : ∀ k, (proc k).killed = (s.proc k).killed) : Marked { s with proc := proc } := by
  intro k hk
  obtain ⟨hu, hb⟩ := h k ((hkilled k).symm.trans hk)
  exact ⟨unused_of_stage (hstage k) hu, hb⟩

theorem Marked.taken (h : Marked s) (hun : s.unused = some k) : Marked (s.taken k) := by
  have hkilled : (s.proc k).killed = false := by
    by_contra hc
    exact (h k (by simpa using hc)).1 (unused_spec hun)
  intro l hl
  by_cases hlk : l = k
  · subst hlk
    simp only [State.taken, State.set, update_self, hkilled] at hl
    cases hl
  · simp only [State.taken, State.set, update_of_ne hlk] at hl ⊢
    exact h l hl

theorem Marked.wait (h : Marked s) (hrun : (s.proc i).state = .RUNNING) : Marked (wait s i) := by
  unfold Ptable.wait
  split
  · exact h.set (k := _) fun hc => by cases hc
  · split
    · exact h
    · exact h.set fun hc => ⟨by simp, (h i hc).2⟩

theorem Marked.kill {pid : BitVec 32} (h : Marked s)
    (hlive : ∀ k, s.find pid = some k → (s.proc k).state ≠ .UNUSED) : Marked (kill s pid) := by
  have hmore : Marked { s with blamed := fun k => s.blamed k || (s.proc k).pid == pid } := by
    intro l hl
    obtain ⟨hu, hb⟩ := h l hl
    exact ⟨hu, by simp [hb]⟩
  unfold Ptable.kill
  dsimp only
  split
  · next k hk =>
    have hlk := hlive k hk
    have hpid : (s.proc k).pid = pid := find_spec hk
    refine hmore.set fun _ => ⟨?_, ?_⟩
    · unfold Proc.kill
      dsimp only
      split
      · simp
      · exact hlk
    · simp [hpid]
  · exact hmore

theorem marked_move {a : Act} (h : Marked s) (hok : HitsLive s a) (hm : Move s a s') : Marked s' := by
  cases hm with
  | turn _ proc hp => exact h.same (fun k => (hp k).stage) fun k => (hp k).killed
  | bootAlloc p hboot hun => exact h.taken hun
  | bootRun p hboot => exact h.set fun hc => ⟨by simp, (h p hc).2⟩
  | forkFull i => exact h
  | fork i np hi hun => exact h.taken hun
  | forkOn i ok pc hmk => exact h
  | forkFail i np hpc =>
    refine h.set (k := np) fun hc => ?_
    rw [hok np hpc] at hc
    cases hc
  | forkParent i np ok hpc => exact h.set fun hc => h np hc
  | forkRun i np ok hpc => exact h.set fun hc => ⟨by simp, (h np hc).2⟩
  | panic i => exact h
  | exit i proc hi hroot hk =>
    have hall : Marked { s with proc := proc } := h.same (fun k => (hk k).stage) fun k => (hk k).killed
    exact hall.set fun hc => ⟨by simp, (hall i hc).2⟩
  | wait _ i proc hp hrun _ =>
    exact Marked.wait (s := { s with proc := proc })
      (h.same (fun k => (hp k).stage) fun k => (hp k).killed) hrun
  | kill i pid => exact h.kill hok
  | trap i hi =>
    have hrun := ((free_iff s i).mp hi).1
    intro l hl
    by_cases hli : l = i
    · subst hli
      simp [State.set, hrun]
    · simp only [State.set, update_of_ne hli] at hl ⊢
      exact h l hl

theorem found_move {a : Act} {pid : BitVec 32} (hsaid : s.said = none) (hok : HitsLive s a)
    (hm : Move s a s') (hs : s'.said = some (.kill pid true)) :
    ∃ k, (s'.proc k).state ≠ .UNUSED ∧ (s'.proc k).pid = pid := by
  have hsilent : ∀ {t : State}, t.said = s.said → t.said ≠ some (.kill pid true) := fun ht hc => by
    rw [ht, hsaid] at hc
    cases hc
  cases hm with
  | wait _ i proc hp hrun _ =>
    unfold wait at hs
    split at hs
    · cases hs
    · split at hs
      · cases hs
      · exact absurd hs (hsilent rfl)
  | kill i pid' =>
    unfold kill at hs ⊢
    dsimp only at hs ⊢
    split at hs
    · next k hk =>
      cases hs
      have hlive : (s.proc k).state ≠ .UNUSED := hok k hk
      refine ⟨k, ?_, ?_⟩
      · simp only [State.set, update_self, Proc.kill]
        split
        · simp
        · exact hlive
      · simp only [State.set, update_self, Proc.kill]
        exact find_spec hk
    · cases hs
  | _ => exact absurd hs (hsilent rfl)

theorem hitsLive_silent {a : Act} (h : HitsLive s a) : HitsLive { s with said := none } a := by
  cases a with
  | kill i pid => exact h
  | forkNext i ok => cases ok <;> exact h
  | _ => trivial

/-! ## Runs -/

/-- When every `kill` of a run finds a slot in use or none, and no `fork` fails after its child was killed,
`kill` reaches only its target, in every state of the run. -/
theorem kill_reaches_target {tr : List (State × Act)} (hrun : Path (Next next) init tr s)
    (hok : Meets HitsLive tr) : Along KillOk tr s := by
  have hboth : Along (fun s => Marked s ∧ KillOk s) tr s := by
    refine along_of_step (fun s a s' h hg hs => ?_) hrun ⟨?_, ?_⟩ hok
    · have hmove := next_move hs
      have hmarked := marked_move (s := { s with said := none }) h.1 (hitsLive_silent hg) hmove
      exact ⟨hmarked, fun pid => found_move rfl (hitsLive_silent hg) hmove, fun k _ hk => (hmarked k hk).2⟩
    · intro k hk
      cases hk
    · exact ⟨fun pid hs => (by cases hs), fun k hk => absurd rfl hk⟩
  exact hboth.mono fun _ h => h.2

/-- The first process makes a child and kills it. -/
theorem kill_reaches_child :
    ∃ tr s, Path (Next next) init tr s ∧ Meets HitsLive tr ∧ s.said = some (.kill 2 true) ∧
      (s.proc 1).killed = true ∧ Along KillOk tr s := by
  have hfork : (follow next init [.userinit, .userinit, .sched 0, .fork 0, .forkNext 0 true,
      .forkNext 0 true, .forkNext 0 true, .forkNext 0 true]).map (fun s => (s.find 2, (s.proc 1).state)) =
      some (some 1, .RUNNABLE) := by decide +kernel
  have hkill : ((follow next init [.userinit, .userinit, .sched 0, .fork 0, .forkNext 0 true,
      .forkNext 0 true, .forkNext 0 true, .forkNext 0 true]).bind fun s => next s (.kill 0 2)).map
        (fun s => (s.said, (s.proc 1).killed)) = some (some (.kill 2 true), true) := by decide +kernel
  obtain ⟨s1, hs1, hfinal1⟩ := Option.map_eq_some_iff.mp hfork
  rw [hs1, Option.bind_some] at hkill
  obtain ⟨s2, hs2, hfinal2⟩ := Option.map_eq_some_iff.mp hkill
  simp only [Prod.mk.injEq] at hfinal1 hfinal2
  obtain ⟨tr, hp1, htr⟩ := path_of_follow hs1
  have hok1 : Meets HitsLive tr := by
    refine meets_of_labels htr fun a ha s => ?_
    simp only [List.mem_cons, List.not_mem_nil, or_false] at ha
    rcases ha with rfl | rfl | rfl | rfl | rfl | rfl | rfl | rfl <;> trivial
  have hok : Meets HitsLive (tr ++ [(s1, .kill 0 2)]) := by
    refine (meets_snoc _ _ _ _).mpr ⟨hok1, fun k hk => ?_⟩
    obtain rfl := Option.some.inj (hfinal1.1.symm.trans hk)
    rw [hfinal1.2]
    decide
  have hp : Path (Next next) init (tr ++ [(s1, .kill 0 2)]) s2 := hp1.snoc hs2
  exact ⟨_, s2, hp, hok, hfinal2.1, hfinal2.2, kill_reaches_target hp hok⟩

/-- The first process calls `kill(0)`, which finds the unused slot 1 and returns 0. Then it makes a child
in that slot: the child is killed before it runs, and nobody has called `kill` with its pid. -/
theorem kill_zero_hits_next_child :
    ∃ tr1 s1 tr2 s2, Path (Next next) init tr1 s1 ∧ s1.said = some (.kill 0 true) ∧
      (∀ k, (s1.proc k).pid = 0 → (s1.proc k).state = .UNUSED) ∧ ¬ KillOk s1 ∧
      Path (Next next) s1 tr2 s2 ∧ (s2.proc 1).pid = 2 ∧ (s2.proc 1).state = .RUNNABLE ∧
      (s2.proc 1).killed = true ∧ ¬ KillOk s2 := by
  have hkill : (follow next init [.userinit, .userinit, .sched 0, .kill 0 0]).map (fun s =>
      (s.said, decide (∀ k, (s.proc k).pid = 0 → (s.proc k).state = .UNUSED))) =
      some (some (.kill 0 true), true) := by decide +kernel
  have hfork : ((follow next init [.userinit, .userinit, .sched 0, .kill 0 0]).bind fun s =>
      follow next s [.fork 0, .forkNext 0 true, .forkNext 0 true, .forkNext 0 true, .forkNext 0 true]).map
        (fun s => ((s.proc 1).pid, (s.proc 1).state, (s.proc 1).killed, s.blamed 1)) =
      some (2, .RUNNABLE, true, false) := by decide +kernel
  obtain ⟨s1, hs1, hfinal1⟩ := Option.map_eq_some_iff.mp hkill
  rw [hs1, Option.bind_some] at hfork
  obtain ⟨s2, hs2, hfinal2⟩ := Option.map_eq_some_iff.mp hfork
  simp only [Prod.mk.injEq, decide_eq_true_eq] at hfinal1 hfinal2
  obtain ⟨hsaid, hunused⟩ := hfinal1
  obtain ⟨hpid, hstate, hkilled, hblamed⟩ := hfinal2
  obtain ⟨tr1, hp1, -⟩ := path_of_follow hs1
  obtain ⟨tr2, hp2, -⟩ := path_of_follow hs2
  refine ⟨tr1, s1, tr2, s2, hp1, hsaid, hunused, fun hc => ?_, hp2, hpid, hstate, hkilled, fun hc => ?_⟩
  · obtain ⟨k, hk, hkp⟩ := hc.found 0 hsaid
    exact hk (hunused k hkp)
  · have := hc.blamed 1 (by rw [hstate]; decide) hkilled
    rw [hblamed] at this
    cases this

end Xv6.Ptable
