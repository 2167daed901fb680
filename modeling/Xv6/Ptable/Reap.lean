import Xv6.Ptable.Tree

/-!
# `wait`

Every child is reaped once, by its creator or by `initproc`, and `wait` gives up only when there is
nobody left to wait for.
-/

open Xv6.Run

namespace Xv6.Ptable

variable {s s' : State} {i k : Slot}

/-- What the history says about the calls of `wait`. -/
structure ReapOk (s : State) : Prop where
  returned : ∀ i pid, s.said = some (.wait i (some pid)) → 0 ≤ pid.toInt ∧ (pid, (s.proc i).pid) ∈ s.reaped
  /-- A pid that was returned is that of a child that has exited. It was returned to the creator, or to
  `initproc` after the creator had exited. -/
  reaped : ∀ c q, (c, q) ∈ s.reaped → ∃ creator, (c, creator) ∈ s.forked ∧ c ∈ s.exited ∧
    (q = creator ∨ (∃ r, s.initproc = some r ∧ q = (s.proc r).pid) ∧ creator ∈ s.exited)
  once : (s.reaped.map Prod.fst).Nodup
  /-- A `wait` that returns -1 to a process that is not killed leaves no child behind. -/
  refused : ∀ i, s.said = some (.wait i none) → (s.proc i).killed = false →
    ∀ c creator, (c, creator) ∈ s.forked →
      (creator = (s.proc i).pid ∨ s.initproc = some i ∧ creator ∈ s.exited) → c ∈ s.reaped.map Prod.fst

/-- The process whose pid the step returns is a `ZOMBIE` whose parent is the caller. -/
def ReapsOwn (s : State) (a : Act) : Prop :=
  ∀ s', next s a = some s' → ∀ i pid, s'.said = some (.wait i (some pid)) →
    ∃ k, (s.proc k).pid = pid ∧ (s.proc k).parent = some i ∧ (s.proc k).state = .ZOMBIE

/-! ## What a call says -/

/-- What the result of a `wait` says about the state before and after. -/
structure WaitSaid (s s' : State) : Prop where
  returned : ∀ i pid, s'.said = some (.wait i (some pid)) →
    (pid, (s'.proc i).pid) ∈ s'.reaped ∧
    ∃ k, (s.proc k).pid = pid ∧ (s.proc k).parent = some i ∧ (s.proc k).state = .ZOMBIE
  refused : ∀ i, s'.said = some (.wait i none) → (s'.proc i).killed = false →
    s'.family.stage i = .alive ∧ ∀ k, (s'.proc k).parent ≠ some i

theorem WaitSaid.of_silent (h : ∀ i r, s'.said ≠ some (.wait i r)) : WaitSaid s s' :=
  ⟨fun i _ hc => absurd hc (h i _), fun i hc => absurd hc (h i _)⟩

theorem waitSaid_wait (hrun : (s.proc i).state = .RUNNING) (hsaid : s.said = none) :
    WaitSaid s (wait s i) := by
  unfold wait
  split
  · next k hz =>
    obtain ⟨hpar, hk⟩ := zombie_spec hz
    have hik : i ≠ k := by
      rintro rfl
      rw [hrun] at hk
      cases hk
    refine ⟨fun j pid hj => ?_, fun j hj => by cases hj⟩
    cases hj
    refine ⟨?_, k, rfl, hpar, hk⟩
    simp [State.goto, State.set, Function.update_of_ne hik]
  · split
    · next hstop =>
      refine ⟨fun j pid hj => (by cases hj), fun j hj hkilled => ?_⟩
      cases hj
      refine ⟨congrArg ProcState.stage hrun, fun k hk => ?_⟩
      rcases hstop with hno | hno
      · have := List.any_eq_false.mp hno k (List.mem_finRange k)
        simp only [decide_eq_true_eq] at this
        exact this hk
      · change (s.proc i).killed = false at hkilled
        rw [hkilled] at hno
        cases hno
    · refine .of_silent fun j r hj => ?_
      change s.said = _ at hj
      rw [hsaid] at hj
      cases hj

theorem waitSaid_move {a : Act} (hsaid : s.said = none) (h : Move s a s') : WaitSaid s s' := by
  have hsilent : ∀ {t : State}, t.said = s.said → WaitSaid s t := fun ht => .of_silent fun i r hc => by
    rw [ht, hsaid] at hc
    cases hc
  cases h with
  | wait _ i proc hp hrun hm =>
    have hw : WaitSaid { s with proc := proc } (wait { s with proc := proc } i) :=
      waitSaid_wait hrun hsaid
    refine ⟨fun j pid hj => ?_, hw.refused⟩
    obtain ⟨hmem, k, hpid, hpar, hk⟩ := hw.returned j pid hj
    refine ⟨hmem, k, (hp k).pid.symm.trans hpid, (hp k).parent.symm.trans hpar, ?_⟩
    have hstage := (hp k).stage.symm.trans (congrArg ProcState.stage hk)
    cases hst : (s.proc k).state <;> rw [hst] at hstage <;> first | rfl | cases hstage
  | kill i pid =>
    refine .of_silent fun i r hc => ?_
    unfold kill at hc
    dsimp only at hc
    split at hc <;> cases hc
  | _ => exact hsilent rfl

theorem Inv.reapOk (h : Inv s') (hfew : s'.Few) (hw : WaitSaid s s') : ReapOk s' := by
  refine ⟨fun i pid hs => ?_, fun c q hmem => ?_, h.history.once, fun i hs hkilled c cr hmem hcr => ?_⟩
  · have hmem := (hw.returned i pid hs).1
    obtain ⟨cr, hfork, -⟩ := h.history.reaped _ _ hmem
    obtain ⟨-, hlt⟩ := h.history.used _ _ hfork
    have hc := h.counts.2
    unfold State.Few at hfew
    refine ⟨?_, hmem⟩
    rw [BitVec.toInt_eq_toNat_of_lt (by omega)]
    omega
  · obtain ⟨cr, hfork, hex, hq⟩ := h.history.reaped c q hmem
    refine ⟨cr, hfork, hex, hq.imp_right fun ⟨⟨r, hr, _, hpid⟩, hcr⟩ => ⟨⟨r, ?_, hpid⟩, hcr⟩⟩
    exact (family_root hr).symm.trans hr
  · obtain ⟨halive, hno⟩ := hw.refused i hs hkilled
    refine all_reaped h.shape h.history halive hno hmem (hcr.imp_right fun ⟨hroot, hex⟩ => ⟨?_, hex⟩)
    obtain ⟨r, hr, -⟩ := h.shape.rooted i (.inl halive)
    exact (family_root hr).trans hroot

/-! ## Runs -/

/-- In every state of every run, as long as there were fewer than `2 ^ 31 - 1` calls of `allocproc`: each
pid that a `wait` has returned is that of a child of the caller that has exited, no pid was returned
twice, and a `wait` that has just returned -1 to a process that is not killed leaves no child behind. -/
theorem reaped_exactly_once {tr : List (State × Act)} (hrun : Path (Next next) init tr s) :
    Along (fun s => s.Few → ReapOk s) tr s ∧ Meets ReapsOwn tr := by
  refine ⟨?_, fun x _ s' hs i pid hsaid => ?_⟩
  · have hboth : Along (fun s => (s.Few → Inv s) ∧ (s.Few → ReapOk s)) tr s := by
      refine along_of_all_steps (fun s a s' h hs => ?_) hrun ⟨fun _ => inv_init, fun hfew => ?_⟩
      · have hinv := inv_next h.1 hs
        exact ⟨hinv, fun hfew => (hinv hfew).reapOk hfew (waitSaid_move rfl (next_move hs))⟩
      · exact inv_init.reapOk hfew (s := init) (.of_silent fun i r hc => by cases hc)
    exact hboth.mono fun _ h => h.2
  · exact ((waitSaid_move rfl (next_move hs)).returned i pid hsaid).2

/-- The child of an exited child is reaped by `initproc`, whose next `wait` finds one more child, and then
none. -/
theorem orphan_reaped_once :
    ∃ tr s, Path (Next next) init tr s ∧ s.Few ∧ s.reaped = [(2, 1), (3, 1)] ∧
      s.forked = [(2, 1), (3, 2)] ∧ s.said = some (.wait 0 none) ∧ (ReapOk s ∧ Meets ReapsOwn tr) := by
  have hrun : (follow next init [.userinit, .userinit, .sched 0, .fork 0, .forkNext 0 true,
      .forkNext 0 true, .forkNext 0 true, .forkNext 0 true, .sched 1, .fork 1, .forkNext 1 true,
      .forkNext 1 true, .forkNext 1 true, .forkNext 1 true, .exit 1, .sched 2, .exit 2, .wait 0, .wait 0,
      .wait 0]).map (fun s => (s.calls, s.reaped, s.forked, s.said)) =
      some (3, [(2, 1), (3, 1)], [(2, 1), (3, 2)], some (.wait 0 none)) := by decide +kernel
  obtain ⟨s, hs, hfinal⟩ := Option.map_eq_some_iff.mp hrun
  simp only [Prod.mk.injEq] at hfinal
  obtain ⟨hcalls, hreaped, hforked, hsaid⟩ := hfinal
  obtain ⟨tr, hpath, -⟩ := path_of_follow hs
  have hfew : s.Few := by
    unfold State.Few
    omega
  have hok := reaped_exactly_once hpath
  exact ⟨tr, s, hpath, hfew, hreaped, hforked, hsaid, hok.1.2 hfew, hok.2⟩

end Xv6.Ptable
