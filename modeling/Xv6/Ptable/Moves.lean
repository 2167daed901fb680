import Xv6.Ptable.Code
import Xv6.Ptable.Family

/-!
# What a step does

Every step of the process table is one of a few moves. What holds in every state is proved from these.
-/

open Function

namespace Xv6.Ptable

variable {s s' : State} {i k : Slot}

def ProcState.stage : ProcState → Stage
  | .UNUSED => .empty
  | .EMBRYO => .embryo
  | .SLEEPING => .alive
  | .RUNNABLE => .alive
  | .RUNNING => .alive
  | .ZOMBIE => .dead

def Pc.making : Pc → Option (Slot × Bool)
  | .forkStack np => some (np, false)
  | .forkCopy np => some (np, false)
  | .forkParent np => some (np, false)
  | .forkRun np => some (np, true)
  | .run => none
  | .wait => none

/-- A process that has at most gone to sleep, or been woken, or got or lost the CPU. -/
structure SameProc (p q : Proc) : Prop where
  stage : p.state.stage = q.state.stage
  pid : p.pid = q.pid
  parent : p.parent = q.parent
  killed : p.killed = q.killed

theorem SameProc.refl (p : Proc) : SameProc p p := ⟨rfl, rfl, rfl, rfl⟩

theorem sameProc_update {p : Proc} (h : SameProc p (s.proc k)) (l : Slot) :
    SameProc (update s.proc k p l) (s.proc l) := by
  by_cases hl : l = k
  · subst hl
    rwa [update_self]
  · rw [update_of_ne hl]
    exact .refl _

theorem Proc.sameProc_wakeup1 (c : Option Chan) (p : Proc) : SameProc (p.wakeup1 c) p := by
  unfold Proc.wakeup1
  split
  · next h => exact ⟨by rw [h.1]; rfl, rfl, rfl, rfl⟩
  · exact ⟨rfl, rfl, rfl, rfl⟩

/-! ## `exit` -/

/-- What the loop of `exit` makes of the process `q`, when it has come by or not. -/
structure Orphaned (i : Slot) (root : Option Slot) (past : Prop) (p q : Proc) : Prop where
  stage : p.state.stage = q.state.stage
  pid : p.pid = q.pid
  killed : p.killed = q.killed
  orphan : past → q.parent = some i → p.parent = root
  other : ¬ (past ∧ q.parent = some i) → p.parent = q.parent

theorem Orphaned.wakeup1 {root : Option Slot} {past : Prop} {p q : Proc} (h : Orphaned i root past p q)
    (c : Option Chan) : Orphaned i root past (p.wakeup1 c) q :=
  have hs := p.sameProc_wakeup1 c
  ⟨hs.stage.trans h.stage, hs.pid.trans h.pid, hs.killed.trans h.killed,
    fun hp hq => hs.parent.trans (h.orphan hp hq), fun hn => hs.parent.trans (h.other hn)⟩

theorem Orphaned.trans {root : Option Slot} {past past' : Prop} {p q r : Proc} (hroot : root ≠ some i)
    (h' : Orphaned i root past' p q) (h : Orphaned i root past q r) :
    Orphaned i root (past ∨ past') p r := by
  refine ⟨h'.stage.trans h.stage, h'.pid.trans h.pid, h'.killed.trans h.killed, fun hp hr => ?_,
    fun hn => ?_⟩
  · by_cases hpast : past
    · have hq := h.orphan hpast hr
      exact (h'.other fun hc => hroot (hq.symm.trans hc.2)).trans hq
    · have hq := h.other fun hc => hpast hc.1
      exact h'.orphan (hp.resolve_left hpast) (hq.trans hr)
  · have hq := h.other fun hc => hn ⟨.inl hc.1, hc.2⟩
    exact (h'.other fun hc => hn ⟨.inr hc.1, hq.symm.trans hc.2⟩).trans hq

theorem abandon_spec (s : State) (i a : Slot) :
    ∃ proc, abandon i s a = { s with proc := proc } ∧
      ∀ k, Orphaned i s.initproc (k = a) (proc k) (s.proc k) := by
  unfold abandon
  split
  · next hpar =>
    have hset : ∀ k, Orphaned i s.initproc (k = a)
        (update s.proc a { s.proc a with parent := s.initproc } k) (s.proc k) := by
      intro k
      by_cases hk : k = a
      · subst hk
        rw [update_self]
        exact ⟨rfl, rfl, rfl, fun _ _ => rfl, fun hn => absurd ⟨rfl, hpar⟩ hn⟩
      · rw [update_of_ne hk]
        exact ⟨rfl, rfl, rfl, fun hc => absurd hc hk, fun _ => rfl⟩
    dsimp only
    split
    · exact ⟨_, rfl, fun k => (hset k).wakeup1 _⟩
    · exact ⟨_, rfl, hset⟩
  · next hpar =>
    refine ⟨s.proc, rfl, fun k => ⟨rfl, rfl, rfl, fun hk hp => ?_, fun _ => rfl⟩⟩
    subst hk
    exact absurd hp hpar

theorem foldl_abandon (hroot : s.initproc ≠ some i) (l : List Slot) :
    ∃ proc, l.foldl (abandon i) s = { s with proc := proc } ∧
      ∀ k, Orphaned i s.initproc (k ∈ l) (proc k) (s.proc k) := by
  induction l generalizing s with
  | nil => exact ⟨s.proc, rfl, fun k => ⟨rfl, rfl, rfl, fun hk => (List.not_mem_nil hk).elim, fun _ => rfl⟩⟩
  | cons a l ih =>
    obtain ⟨proc1, h1, hk1⟩ := abandon_spec s i a
    obtain ⟨proc2, h2, hk2⟩ := ih (s := { s with proc := proc1 }) hroot
    refine ⟨proc2, by rw [List.foldl_cons, h1, h2], fun k => ?_⟩
    rw [List.mem_cons]
    exact (hk2 k).trans hroot (hk1 k)

theorem exit_spec (hroot : s.initproc ≠ some i) :
    ∃ proc, exit s i = { (({ s with proc := proc } : State).setState i .ZOMBIE) with
        exited := s.exited ++ [(s.proc i).pid] } ∧
      ∀ k, Orphaned i s.initproc True (proc k) (s.proc k) := by
  have hwake : ∀ k, Orphaned i s.initproc False
      ((wakeup1 s ((s.proc i).parent.map .proc)).proc k) (s.proc k) := fun k =>
    Orphaned.wakeup1 ⟨rfl, rfl, rfl, fun hc => hc.elim, fun _ => rfl⟩ _
  obtain ⟨proc, h, hk⟩ := foldl_abandon (s := wakeup1 s ((s.proc i).parent.map .proc)) hroot
    (List.finRange NPROC)
  refine ⟨proc, ?_, fun k => ?_⟩
  · unfold exit
    rw [if_neg hroot]
    dsimp only
    rw [h]
    rfl
  · have := (hk k).trans hroot (hwake k)
    simpa using this

/-! ## The moves -/

theorem free_iff (s : State) (i : Slot) : s.free i = true ↔ (s.proc i).state = .RUNNING ∧ s.pc i = .run := by
  unfold State.free
  cases s.pc i <;> simp

theorem unused_spec (h : s.unused = some k) : (s.proc k).state = .UNUSED := by
  simpa using List.find?_some h

theorem zombie_spec (h : s.zombie i = some k) :
    (s.proc k).parent = some i ∧ (s.proc k).state = .ZOMBIE := by
  simpa using List.find?_some h

/-- After `allocproc` has taken the slot `np`. -/
def State.taken (s : State) (np : Slot) : State :=
  { s.set np { s.proc np with state := .EMBRYO, pid := s.nextpid } with
    calls := s.calls + 1, nextpid := s.nextpid + 1, blamed := Function.update s.blamed np false }

theorem allocproc_cases {r : Option Slot} (h : allocproc s = (r, s')) :
    (r = none ∧ s' = { s with calls := s.calls + 1 }) ∨
    ∃ np, r = some np ∧ s.unused = some np ∧ s' = s.taken np := by
  unfold allocproc at h
  dsimp only at h
  split at h
  · cases h
    exact .inl ⟨rfl, rfl⟩
  · next np hnp =>
    cases h
    exact .inr ⟨np, rfl, hnp, rfl⟩

inductive Move (s : State) : Act → State → Prop
  /-- Processes sleep, wake up, or take turns. -/
  | turn (a : Act) (proc : Slot → Proc) : (∀ k, SameProc (proc k) (s.proc k)) →
      Move s a { s with proc := proc }
  | bootAlloc (p : Slot) : s.boot = .start → s.unused = some p →
      Move s .userinit { s.taken p with initproc := some p, boot := .embryo p }
  | bootRun (p : Slot) : s.boot = .embryo p →
      Move s .userinit { s.setState p .RUNNABLE with boot := .done }
  | forkFull (i : Slot) : Move s (.fork i) { s with calls := s.calls + 1 }
  | fork (i np : Slot) : s.free i = true → s.unused = some np →
      Move s (.fork i) ((s.taken np).goto i (.forkStack np))
  | forkOn (i : Slot) (ok : Bool) (pc : Pc) : pc.making = (s.pc i).making →
      Move s (.forkNext i ok) (s.goto i pc)
  | forkFail (i np : Slot) : s.pc i = .forkStack np ∨ s.pc i = .forkCopy np →
      Move s (.forkNext i false) ((s.setState np .UNUSED).goto i .run)
  | forkParent (i np : Slot) (ok : Bool) : s.pc i = .forkParent np →
      Move s (.forkNext i ok) ((s.set np { s.proc np with parent := some i }).goto i (.forkRun np))
  | forkRun (i np : Slot) (ok : Bool) : s.pc i = .forkRun np →
      Move s (.forkNext i ok) { (s.setState np .RUNNABLE).goto i .run with
        forked := s.forked ++ [((s.proc np).pid, (s.proc i).pid)] }
  | panic (i : Slot) : Move s (.exit i) { s with panicked := some "init exiting" }
  | exit (i : Slot) (proc : Slot → Proc) : s.free i = true → s.initproc ≠ some i →
      (∀ k, Orphaned i s.initproc True (proc k) (s.proc k)) →
      Move s (.exit i) { (({ s with proc := proc } : State).setState i .ZOMBIE) with
        exited := s.exited ++ [(s.proc i).pid] }
  /-- One turn of the loop of `wait`, by a process that runs or has just been given the CPU. -/
  | wait (a : Act) (i : Slot) (proc : Slot → Proc) : (∀ k, SameProc (proc k) (s.proc k)) →
      (proc i).state = .RUNNING → (s.pc i).making = none → Move s a (wait { s with proc := proc } i)
  | kill (i : Slot) (pid : BitVec 32) : Move s (.kill i pid) (kill s pid)
  | trap (i : Slot) : s.free i = true →
      Move s (.trap i) { s.set i { s.proc i with killed := true } with
        blamed := Function.update s.blamed i true }

theorem move_userinit (h : userinit s = some s') : Move s .userinit s' := by
  unfold userinit at h
  split at h
  · next hboot =>
    split at h
    · next p s1 ha =>
      cases h
      rcases allocproc_cases ha with ⟨hc, -⟩ | ⟨np, hnp, hun, rfl⟩
      · cases hc
      · cases hnp
        exact .bootAlloc p hboot hun
    · cases h
  · next p hboot =>
    cases h
    exact .bootRun p hboot
  · cases h

theorem move_forkNext {ok : Bool} (h : forkNext s i ok = some s') : Move s (.forkNext i ok) s' := by
  unfold forkNext at h
  split at h
  · next np hpc =>
    split at h
    · cases h
      exact .forkOn i ok _ (by rw [hpc]; rfl)
    · next hok =>
      cases h
      obtain rfl : ok = false := by simpa using hok
      exact .forkFail i np (.inl hpc)
  · next np hpc =>
    split at h
    · cases h
      exact .forkOn i ok _ (by rw [hpc]; rfl)
    · next hok =>
      cases h
      obtain rfl : ok = false := by simpa using hok
      exact .forkFail i np (.inr hpc)
  · next np hpc =>
    cases h
    exact .forkParent i np ok hpc
  · next np hpc =>
    cases h
    exact .forkRun i np ok hpc
  · cases h
  · cases h

theorem move_sched (hi : (s.proc i).state = .RUNNABLE) : Move s (.sched i) (sched s i) := by
  have hset : SameProc { s.proc i with state := .RUNNING, chan := none } (s.proc i) :=
    ⟨by rw [hi]; rfl, rfl, rfl, rfl⟩
  unfold sched
  split
  · next hpc =>
    exact .wait _ i _ (sameProc_update hset) (by rw [update_self]) (congrArg Pc.making hpc)
  · exact .turn _ _ (sameProc_update hset)

theorem act_move {a : Act} (h : act s a = some s') : Move s a s' := by
  cases a with
  | userinit => exact move_userinit h
  | fork i =>
    simp only [act] at h
    split at h
    · next hi =>
      split at h
      · next np s1 ha =>
        cases h
        rcases allocproc_cases ha with ⟨hr, -⟩ | ⟨np, hr, hun, rfl⟩
        · cases hr
        · cases hr
          exact .fork i np hi hun
      · next s1 ha =>
        cases h
        rcases allocproc_cases ha with ⟨-, rfl⟩ | ⟨np, hr, -⟩
        · exact .forkFull i
        · cases hr
    · cases h
  | forkNext i ok =>
    simp only [act] at h
    split at h
    · exact move_forkNext h
    · cases h
  | exit i =>
    simp only [act] at h
    split at h
    · next hi =>
      cases h
      by_cases hroot : s.initproc = some i
      · unfold exit
        rw [if_pos hroot]
        exact .panic i
      · obtain ⟨proc, hp, hk⟩ := exit_spec hroot
        rw [hp]
        exact .exit i proc hi hroot hk
    · cases h
  | wait i =>
    simp only [act] at h
    split at h
    · next hi =>
      cases h
      obtain ⟨hrun, hpc⟩ := (free_iff s i).mp hi
      exact .wait _ i s.proc (fun k => .refl _) hrun (congrArg Pc.making hpc)
    · cases h
  | kill i pid =>
    simp only [act] at h
    split at h <;> cases h
    exact .kill i pid
  | trap i =>
    simp only [act] at h
    split at h
    · next hi =>
      cases h
      exact .trap i hi
    · cases h
  | sleep i n =>
    simp only [act] at h
    split at h
    · next hi =>
      cases h
      have hrun := ((free_iff s i).mp hi).1
      exact .turn _ _ (sameProc_update ⟨by rw [hrun]; rfl, rfl, rfl, rfl⟩)
    · cases h
  | wakeup n =>
    cases h
    exact .turn _ _ fun k => (s.proc k).sameProc_wakeup1 _
  | yield i =>
    simp only [act] at h
    split at h
    · next hrun =>
      cases h
      exact .turn _ _ (sameProc_update ⟨by rw [hrun]; rfl, rfl, rfl, rfl⟩)
    · cases h
  | sched i =>
    simp only [act] at h
    split at h
    · next hi =>
      cases h
      exact move_sched hi
    · cases h

theorem next_move {a : Act} (h : next s a = some s') : Move { s with said := none } a s' := by
  unfold next at h
  split at h
  · cases h
  · exact act_move h

end Xv6.Ptable
