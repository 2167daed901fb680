import Xv6.Killed.Code

/-!
# Who sleeps through a `kill`

`kill` sets the flag under `ptable.lock`. `wait` tests the flag and goes to sleep under one hold of that
lock, so it never sleeps past the flag. The other loops test the flag without it: a `kill` that comes between
the test and `sleep` finds a process that is not `SLEEPING`, and the process sleeps on with the flag set.
-/

open Xv6.Run Function

namespace Xv6.Killed

variable {ι : Type} {s s' : State ι} {i j p : ι} {pc : Pc ι} {l : Loop} {G : Loop → Prop}

/-- A process that was killed sleeps, and the `kill` has returned. -/
def Stuck (s : State ι) (p : ι) : Prop :=
  s.killed p = true ∧ s.returned p = true ∧ s.state p = .SLEEPING

/-- The process has found the flag 0 and is not in the part of `sleep` that has `ptable.lock`. -/
def Pc.gap : Pc ι → Option Loop
  | .wake k => some (.pipewrite k)
  | .sleep l => some l
  | _ => none

/-- No `kill` sets the flag of a process that has just tested it, before that process has `ptable.lock`. -/
def NoGap (s : State ι) : Act ι → Prop
  | .step i => ∀ p, s.pc i = .killSet p → (s.pc p).gap = none
  | _ => True

instance [Fintype ι] [DecidableEq ι] (s : State ι) (a : Act ι) : Decidable (NoGap s a) :=
  match a with
  | .step i => inferInstanceAs (Decidable (∀ p, s.pc i = .killSet p → (s.pc p).gap = none))
  | .call _ _ | .kill _ _ | .body _ _ | .sched _ | .wakeup _ | .data _ => isTrue trivial

/-! ## The invariant -/

/-- The process has `ptable.lock`. -/
def Pc.Holds : Pc ι → Prop
  | .cond l | .test l | .body l | .leave l => l.lock = .ptable
  | .release _ | .state _ | .sched _ | .tidy _ | .killSet _ | .killWake _ | .killRelease _ => True
  | .out | .enter _ | .wake _ | .sleep _ | .asleep _ | .again _ | .killAcquire _ => False

/-- The statements of `sleep` that are for other locks than `ptable.lock`. -/
def Pc.Apart : Pc ι → Prop
  | .sleep l | .release l | .again l => l.lock ≠ .ptable
  | _ => True

/-- The process has found the flag 0, and does not look at it again before it sleeps. -/
def Pc.blind : Pc ι → Option Loop
  | .wake k => some (.pipewrite k)
  | .sleep l | .release l | .state l | .sched l | .asleep l => some l
  | _ => none

/-- The flag of the process is set by the `kill` that the statement belongs to. -/
def Pc.marks : Pc ι → Option ι
  | .killWake p | .killRelease p => some p
  | _ => none

/-- For the loops of `G`: who has the flag and does not look at it sleeps already, and is about to be woken
by the first `kill`. -/
structure Inv (G : Loop → Prop) (s : State ι) : Prop where
  ptable : ∀ i, (s.pc i).Holds ↔ s.lock .ptable = some i
  apart : ∀ i, (s.pc i).Apart
  asleep : ∀ p, s.state p = .SLEEPING →
    ∃ l, (s.pc p = .sched l ∨ s.pc p = .asleep l) ∧ s.chan p = some (l.chan p)
  marked : ∀ i p, (s.pc i).marks = some p → s.killed p = true
  returned : ∀ p, s.returned p = true → s.killed p = true
  blind : ∀ p l, G l → s.killed p = true → (s.pc p).blind = some l → s.pc p = .asleep l ∧
    (s.state p = .SLEEPING → s.returned p = false ∧ ∃ j, s.pc j = .killWake p)

theorem Inv.excl (h : Inv G s) (hi : (s.pc i).Holds) (hj : (s.pc j).Holds) : i = j :=
  Option.some.inj (((h.ptable i).mp hi).symm.trans ((h.ptable j).mp hj))

theorem Pc.asleep_of_blind (hb : pc.blind = some l) (hg : pc.gap = none) (hh : ¬ pc.Holds) :
    pc = .asleep l := by
  cases pc <;> simp_all [Pc.blind, Pc.gap, Pc.Holds]

variable [DecidableEq ι]

theorem ptable_move (h : ∀ j, (s.pc j).Holds ↔ s.lock .ptable = some j)
    (hpc : s'.pc = update s.pc i pc)
    (hl : s'.lock .ptable = s.lock .ptable ∧ (pc.Holds ↔ (s.pc i).Holds) ∨
      s.lock .ptable = none ∧ s'.lock .ptable = some i ∧ pc.Holds ∨
      s.lock .ptable = some i ∧ s'.lock .ptable = none ∧ ¬ pc.Holds) (j : ι) :
    (s'.pc j).Holds ↔ s'.lock .ptable = some j := by
  rw [hpc]
  by_cases hj : j = i
  · subst hj
    rw [update_self]
    rcases hl with ⟨h1, h2⟩ | ⟨-, h1, h2⟩ | ⟨-, h1, h2⟩
    · rw [h1, h2]
      exact h j
    · simp [h1, h2]
    · simp [h1, h2]
  · rw [update_of_ne hj, h j]
    rcases hl with ⟨h1, -⟩ | ⟨h0, h1, -⟩ | ⟨h0, h1, -⟩
    · rw [h1]
    · simp [h0, h1, Ne.symm hj]
    · simp [h0, h1, Ne.symm hj]

theorem inv_base (h : Inv G s) (hpc : s'.pc = update s.pc i pc)
    (hl : s'.lock .ptable = s.lock .ptable ∧ (pc.Holds ↔ (s.pc i).Holds) ∨
      s.lock .ptable = none ∧ s'.lock .ptable = some i ∧ pc.Holds ∨
      s.lock .ptable = some i ∧ s'.lock .ptable = none ∧ ¬ pc.Holds)
    (hap : pc.Apart) (hkilled : ∀ p, s.killed p = true → s'.killed p = true)
    (hret : ∀ p, s'.returned p = true → s'.killed p = true)
    (hother : ∀ p, p ≠ i → s'.state p = .SLEEPING → s.state p = .SLEEPING ∧ s'.chan p = s.chan p)
    (hself : s'.state i = .SLEEPING →
      ∃ l, (pc = .sched l ∨ pc = .asleep l) ∧ s'.chan i = some (l.chan i))
    (hmarks : ∀ p, pc.marks = some p → s'.killed p = true)
    (hblind : ∀ p l, G l → s'.killed p = true → (s'.pc p).blind = some l → s'.pc p = .asleep l ∧
      (s'.state p = .SLEEPING → s'.returned p = false ∧ ∃ j, s'.pc j = .killWake p)) : Inv G s' := by
  have hi : s'.pc i = pc := by rw [hpc, update_self]
  have hj : ∀ j, j ≠ i → s'.pc j = s.pc j := fun j hj => by rw [hpc, update_of_ne hj]
  refine ⟨ptable_move h.ptable hpc hl, fun j => ?_, fun p hp => ?_, fun j p hm => ?_, hret, hblind⟩
  · by_cases hji : j = i
    · rw [hji, hi]
      exact hap
    · rw [hj j hji]
      exact h.apart j
  · by_cases hpi : p = i
    · subst hpi
      rw [hi]
      exact hself hp
    · obtain ⟨hst, hch⟩ := hother p hpi hp
      rw [hj p hpi, hch]
      exact h.asleep p hst
  · by_cases hji : j = i
    · rw [hji, hi] at hm
      exact hmarks p hm
    · rw [hj j hji] at hm
      exact hkilled p (h.marked j p hm)

theorem blind_other (h : Inv G s) (hpc : s'.pc = update s.pc i pc) (hpi : p ≠ i)
    (hkilled : s'.killed p = s.killed p) (hret : s'.returned p = s.returned p)
    (hstate : s'.state p = .SLEEPING → s.state p = .SLEEPING) (hwake : s.pc i ≠ .killWake p) (hG : G l)
    (hk : s'.killed p = true) (hb : (s'.pc p).blind = some l) : s'.pc p = .asleep l ∧
      (s'.state p = .SLEEPING → s'.returned p = false ∧ ∃ j, s'.pc j = .killWake p) := by
  have hj : ∀ j, j ≠ i → s'.pc j = s.pc j := fun j hj => by rw [hpc, update_of_ne hj]
  rw [hj p hpi] at hb ⊢
  obtain ⟨ha, hs⟩ := h.blind p l hG (hkilled ▸ hk) hb
  refine ⟨ha, fun hp => ?_⟩
  obtain ⟨hr, w, hw⟩ := hs (hstate hp)
  have hwi : w ≠ i := by
    rintro rfl
    exact hwake hw
  exact ⟨hret.trans hr, w, (hj w hwi).trans hw⟩

theorem inv_move (h : Inv G s) (hpc : s'.pc = update s.pc i pc)
    (hl : s'.lock .ptable = s.lock .ptable ∧ (pc.Holds ↔ (s.pc i).Holds) ∨
      s.lock .ptable = none ∧ s'.lock .ptable = some i ∧ pc.Holds ∨
      s.lock .ptable = some i ∧ s'.lock .ptable = none ∧ ¬ pc.Holds)
    (hap : pc.Apart) (hkilled : s'.killed = s.killed) (hret : s'.returned = s.returned)
    (hother : ∀ p, p ≠ i → s'.state p = .SLEEPING → s.state p = .SLEEPING ∧ s'.chan p = s.chan p)
    (hself : s'.state i = .SLEEPING →
      ∃ l, (pc = .sched l ∨ pc = .asleep l) ∧ s'.chan i = some (l.chan i))
    (hmarks : pc.marks = none) (hwake : ∀ p, s.pc i ≠ .killWake p)
    (hblind : ∀ l, G l → s.killed i = true → pc.blind ≠ some l) : Inv G s' := by
  refine inv_base h hpc hl hap (fun p hp => hkilled ▸ hp)
    (fun p hp => by rw [hkilled]; exact h.returned p (hret ▸ hp)) hother hself
    (fun p hp => by rw [hmarks] at hp; cases hp) fun p l hG hk hb => ?_
  by_cases hpi : p = i
  · subst hpi
    rw [hpc, update_self] at hb
    exact absurd hb (hblind l hG (hkilled ▸ hk))
  · exact blind_other h hpc hpi (by rw [hkilled]) (by rw [hret]) (fun hp => (hother p hpi hp).1) (hwake p) hG hk
      hb

omit [DecidableEq ι] in
theorem Inv.runs (h : Inv G s) (hi : ∀ l, s.pc i ≠ .sched l ∧ s.pc i ≠ .asleep l) : s.state i ≠ .SLEEPING := by
  intro hs
  obtain ⟨l, hl | hl, -⟩ := h.asleep i hs
  · exact (hi l).1 hl
  · exact (hi l).2 hl

omit [DecidableEq ι] in
theorem Inv.unmarked (h : Inv G s) (hb : (s.pc i).blind = some l) (hi : s.pc i ≠ .asleep l)
    (hb' : pc.blind = some l) (l' : Loop) (hG : G l') (hk : s.killed i = true) : pc.blind ≠ some l' := by
  intro hl'
  obtain rfl := Option.some.inj (hb'.symm.trans hl')
  exact hi (h.blind i l hG hk hb).1

theorem inv_goto (h : Inv G s) (hpc : s'.pc = update s.pc i pc) (hlock : s'.lock = s.lock)
    (hkilled : s'.killed = s.killed) (hret : s'.returned = s.returned)
    (hstate : ∀ p, s'.state p = .SLEEPING → s.state p = .SLEEPING)
    (hchan : ∀ p, p ≠ i → s'.chan p = s.chan p) (hrun : ∀ l, s.pc i ≠ .sched l ∧ s.pc i ≠ .asleep l)
    (hwake : ∀ p, s.pc i ≠ .killWake p) (hholds : pc.Holds ↔ (s.pc i).Holds) (hap : pc.Apart)
    (hmarks : pc.marks = none) (hblind : ∀ l, G l → s.killed i = true → pc.blind ≠ some l) : Inv G s' :=
  inv_move h hpc (.inl ⟨by rw [hlock], hholds⟩) hap hkilled hret
    (fun p hp hs => ⟨hstate p hs, hchan p hp⟩) (fun hs => absurd (hstate i hs) (h.runs hrun)) hmarks hwake
    hblind

theorem acquire_some {m : Lock} (hs : s.acquire m i pc = some s') :
    s.lock m = none ∧ s' = { s.goto i pc with lock := update s.lock m (some i) } := by
  unfold State.acquire at hs
  split at hs
  · next hl => exact ⟨hl, (Option.some.inj hs).symm⟩
  · cases hs

theorem lock_acquire {m : Lock} (hs : s.acquire m i pc = some s')
    (hh : pc.Holds ↔ (s.pc i).Holds ∨ m = .ptable) :
    s'.lock .ptable = s.lock .ptable ∧ (pc.Holds ↔ (s.pc i).Holds) ∨
      s.lock .ptable = none ∧ s'.lock .ptable = some i ∧ pc.Holds ∨
      s.lock .ptable = some i ∧ s'.lock .ptable = none ∧ ¬ pc.Holds := by
  obtain ⟨hfree, rfl⟩ := acquire_some hs
  by_cases hm : m = .ptable
  · subst hm
    exact .inr (.inl ⟨hfree, by simp, hh.mpr (.inr rfl)⟩)
  · exact .inl ⟨update_of_ne (Ne.symm hm) _ _, by simp [hh, hm]⟩

theorem inv_acquire {m : Lock} (h : Inv G s) (hs : s.acquire m i pc = some s')
    (hh : pc.Holds ↔ (s.pc i).Holds ∨ m = .ptable) (hap : pc.Apart)
    (hrun : ∀ l, s.pc i ≠ .sched l ∧ s.pc i ≠ .asleep l) (hwake : ∀ p, s.pc i ≠ .killWake p)
    (hmarks : pc.marks = none) (hblind : ∀ l, G l → s.killed i = true → pc.blind ≠ some l) : Inv G s' := by
  have hl := lock_acquire hs hh
  obtain ⟨-, rfl⟩ := acquire_some hs
  exact inv_move h rfl hl hap rfl rfl (fun p _ hp => ⟨hp, rfl⟩) (fun hp => absurd hp (h.runs hrun)) hmarks
    hwake hblind

theorem lock_release {m : Lock} (h : Inv G s) (hh : pc.Holds ↔ (s.pc i).Holds ∧ m ≠ .ptable)
    (hm : m = .ptable → (s.pc i).Holds) :
    (s.release m i pc).lock .ptable = s.lock .ptable ∧ (pc.Holds ↔ (s.pc i).Holds) ∨
      s.lock .ptable = none ∧ (s.release m i pc).lock .ptable = some i ∧ pc.Holds ∨
      s.lock .ptable = some i ∧ (s.release m i pc).lock .ptable = none ∧ ¬ pc.Holds := by
  by_cases hp : m = .ptable
  · subst hp
    exact .inr (.inr ⟨(h.ptable i).mp (hm rfl), by simp [State.release], by simp [hh]⟩)
  · exact .inl ⟨update_of_ne (Ne.symm hp) _ _, by simp [hh, hp]⟩

theorem inv_release {m : Lock} (h : Inv G s) (hh : pc.Holds ↔ (s.pc i).Holds ∧ m ≠ .ptable)
    (hm : m = .ptable → (s.pc i).Holds) (hap : pc.Apart)
    (hrun : ∀ l, s.pc i ≠ .sched l ∧ s.pc i ≠ .asleep l) (hwake : ∀ p, s.pc i ≠ .killWake p)
    (hmarks : pc.marks = none) (hblind : ∀ l, G l → s.killed i = true → pc.blind ≠ some l) :
    Inv G (s.release m i pc) :=
  inv_move h rfl (lock_release h hh hm) hap rfl rfl (fun p _ hp => ⟨hp, rfl⟩)
    (fun hp => absurd hp (h.runs hrun)) hmarks hwake hblind

omit [DecidableEq ι] in
theorem wakeup1_sleeping [DecidableEq ι] {c : Chan ι} (hp : (s.wakeup1 c).state p = .SLEEPING) :
    s.state p = .SLEEPING := by
  simp only [State.wakeup1] at hp
  split at hp
  · cases hp
  · exact hp

/-! ## The steps of `kill` -/

/-- `p->killed = 1`. Who is blind for the flag sleeps already, and is going to be woken. -/
theorem inv_killSet (h : Inv G s) (hpc : s.pc i = .killSet p) (hgap : ∀ l, (s.pc p).gap = some l → ¬ G l) :
    Inv G { s.goto i (.killWake p) with killed := update s.killed p true } := by
  have hi : (s.pc i).Holds := by rw [hpc]; trivial
  have hmono : ∀ q, s.killed q = true → update s.killed p true q = true := by
    intro q hq
    by_cases hqp : q = p
    · rw [hqp, update_self]
    · rw [update_of_ne hqp, hq]
  refine inv_base h rfl (.inl ⟨rfl, by simp [hpc, Pc.Holds]⟩) trivial hmono
    (fun q hq => hmono q (h.returned q hq)) (fun q _ hq => ⟨hq, rfl⟩)
    (fun hs => absurd hs (h.runs (by simp [hpc]))) (fun q hq => ?_) fun q l hG hk hb => ?_
  · cases hq
    simp
  · by_cases hqi : q = i
    · rw [hqi] at hb
      simp [State.goto, Pc.blind] at hb
    · by_cases hqp : q = p
      · subst hqp
        simp only [State.goto, update_of_ne hqi] at hb ⊢
        have hnone : (s.pc q).gap = none := by
          by_contra hc
          obtain ⟨l', hl'⟩ := Option.ne_none_iff_exists'.mp hc
          refine hgap l' hl' ?_
          have hll : l' = l := by
            cases hp : s.pc q <;> rw [hp] at hb hl' <;> simp_all [Pc.blind, Pc.gap]
          exact hll ▸ hG
        have hasleep := Pc.asleep_of_blind hb hnone fun hq => hqi (h.excl hq hi)
        refine ⟨hasleep, fun hs => ⟨?_, i, update_self i _ _⟩⟩
        -- a `kill` that has returned has set the flag, and then this one comes too late to find a sleeper
        by_contra hr
        have hk' := h.returned q (by simpa using hr)
        have hr' := ((h.blind q l hG hk' hb).2 hs).1
        rw [hr'] at hr
        exact hr rfl
      · exact blind_other h rfl hqi (update_of_ne hqp _ _) rfl (fun hs => hs) (by simp [hpc]) hG hk hb

theorem inv_killWake (h : Inv G s) (hpc : s.pc i = .killWake p)
    (hpc' : s'.pc = update s.pc i (.killRelease p)) (hstate : ∀ q, q ≠ p → s'.state q = s.state q)
    (hp : s'.state p ≠ .SLEEPING) (hchan : s'.chan = s.chan) (hlock : s'.lock = s.lock)
    (hkilled : s'.killed = s.killed) (hret : s'.returned = s.returned) : Inv G s' := by
  have hmono : ∀ q, s'.state q = .SLEEPING → q ≠ p ∧ s.state q = .SLEEPING := by
    intro q hq
    have hqp : q ≠ p := by
      rintro rfl
      exact hp hq
    exact ⟨hqp, (hstate q hqp).symm.trans hq⟩
  have hk := h.marked i p (by rw [hpc]; rfl)
  refine inv_base h hpc' (.inl ⟨by rw [hlock], by simp [hpc, Pc.Holds]⟩) trivial (fun q hq => hkilled ▸ hq)
    (fun q hq => by rw [hkilled]; exact h.returned q (hret ▸ hq))
    (fun q _ hq => ⟨(hmono q hq).2, by rw [hchan]⟩)
    (fun hs => absurd (hmono i hs).2 (h.runs (by simp [hpc]))) (fun q hq => ?_) fun q l hG hkq hb => ?_
  · cases hq
    rw [hkilled]
    exact hk
  · by_cases hqi : q = i
    · rw [hqi, hpc', update_self] at hb
      cases hb
    · by_cases hqp : q = p
      · subst hqp
        rw [hpc', update_of_ne hqi] at hb ⊢
        exact ⟨(h.blind q l hG hk hb).1, fun hs => absurd hs hp⟩
      · refine blind_other h hpc' hqi (by rw [hkilled]) (by rw [hret]) (fun hs => (hmono q hs).2) ?_ hG hkq hb
        rw [hpc]
        exact fun hc => hqp (Pc.killWake.inj hc).symm

theorem inv_killRelease (h : Inv G s) (hpc : s.pc i = .killRelease p) :
    Inv G { s.release .ptable i .out with returned := update s.returned p true } := by
  have hi : (s.pc i).Holds := by rw [hpc]; trivial
  have hk := h.marked i p (by rw [hpc]; rfl)
  have hlock := (h.ptable i).mp hi
  refine inv_base h rfl (.inr (.inr ⟨hlock, by simp [State.release], id⟩)) trivial (fun _ hq => hq)
    (fun q hq => ?_) (fun q _ hq => ⟨hq, rfl⟩) (fun hs => absurd hs (h.runs (by simp [hpc])))
    (fun q hq => by cases hq) fun q l hG hkq hb => ?_
  · by_cases hqp : q = p
    · exact hqp ▸ hk
    · exact h.returned q ((update_of_ne hqp _ _).symm.trans hq)
  · by_cases hqi : q = i
    · rw [hqi] at hb
      simp [State.release, State.goto, Pc.blind] at hb
    · by_cases hqp : q = p
      · subst hqp
        simp only [State.release, State.goto, update_of_ne hqi] at hb ⊢
        obtain ⟨hasleep, hs⟩ := h.blind q l hG hk hb
        refine ⟨hasleep, fun hsleep => ?_⟩
        -- no other `kill` has `ptable.lock`
        obtain ⟨-, w, hw⟩ := hs hsleep
        have hwi := h.excl (i := w) (by rw [hw]; trivial) hi
        rw [hwi, hpc] at hw
        cases hw
      · exact blind_other h rfl hqi rfl (update_of_ne hqp _ _) (fun hs => hs) (by simp [hpc]) hG hkq hb

theorem inv_step (h : Inv G s) (hgap : ∀ p l, s.pc i = .killSet p → (s.pc p).gap = some l → ¬ G l)
    (hs : step s i = some s') : Inv G s' := by
  have hap := h.apart i
  unfold step at hs
  split at hs
  all_goals
    rename_i hpc
    rw [hpc] at hap
  case h_1 l =>
    refine inv_acquire h hs ?_ trivial (by simp [hpc]) (by simp [hpc]) rfl (by simp [Pc.blind])
    cases l <;> simp [hpc, Pc.Holds, Loop.start, Loop.lock]
  case h_2 l =>
    cases hs
    split
    · exact inv_goto h rfl rfl rfl rfl (fun _ hp => hp) (fun _ _ => rfl) (by simp [hpc]) (by simp [hpc])
        (by rw [hpc]; rfl) trivial rfl (by simp [Pc.blind])
    · exact inv_goto h rfl rfl rfl rfl (fun _ hp => hp) (fun _ _ => rfl) (by simp [hpc]) (by simp [hpc])
        (by rw [hpc]; rfl) trivial rfl (by simp [Pc.blind])
  case h_3 l =>
    split at hs
    · cases hs
      exact inv_goto h rfl rfl rfl rfl (fun _ hp => hp) (fun _ _ => rfl) (by simp [hpc]) (by simp [hpc])
        (by rw [hpc]; rfl) trivial rfl (by simp [Pc.blind])
    · next hk =>
      have hnot : s.killed i = false := by
        simp only [Bool.or_eq_true, not_or] at hk
        simpa using hk.2
      cases l <;> cases hs <;>
        exact inv_goto h rfl rfl rfl rfl (fun _ hp => hp) (fun _ _ => rfl) (by simp [hpc]) (by simp [hpc])
          (by simp [hpc, Pc.Holds, Loop.lock]) (by simp [Pc.Apart, Loop.lock]) rfl (by simp [hnot])
  case h_4 k =>
    split at hs <;> cases hs
    exact inv_goto h rfl rfl rfl rfl (fun _ hp => wakeup1_sleeping hp) (fun _ _ => rfl) (by simp [hpc])
      (by simp [hpc]) (by simp [hpc, Pc.Holds]) (by simp [Pc.Apart, Loop.lock]) rfl
      (h.unmarked (by rw [hpc]; rfl) (by simp [hpc]) rfl)
  case h_5 l =>
    exact inv_acquire h hs (by simp [hpc, Pc.Holds]) hap (by simp [hpc]) (by simp [hpc]) rfl
      (h.unmarked (by rw [hpc]; rfl) (by simp [hpc]) rfl)
  case h_6 l =>
    cases hs
    have hap : l.lock ≠ .ptable := hap
    exact inv_release h (by simp [hpc, Pc.Holds, hap]) (fun hm => absurd hm hap) trivial (by simp [hpc])
      (by simp [hpc]) rfl (h.unmarked (by rw [hpc]; rfl) (by simp [hpc]) rfl)
  case h_7 l =>
    cases hs
    refine inv_move h rfl (.inl ⟨rfl, by simp [hpc, Pc.Holds]⟩) trivial rfl rfl (fun p hpi hp => ?_)
      (fun _ => ⟨l, .inl rfl, by simp [State.goto]⟩) rfl (by simp [hpc])
      (h.unmarked (by rw [hpc]; rfl) (by simp [hpc]) rfl)
    simp only [State.goto, State.setState, update_of_ne hpi] at hp ⊢
    exact ⟨hp, trivial⟩
  case h_8 l =>
    cases hs
    have hh : (s.pc i).Holds := by rw [hpc]; trivial
    refine inv_move h rfl (lock_release h (by simp [Pc.Holds]) fun _ => hh) trivial rfl rfl
      (fun p _ hp => ⟨hp, rfl⟩) (fun hp => ?_) rfl (by simp [hpc])
      (h.unmarked (by rw [hpc]; rfl) (by simp [hpc]) rfl)
    obtain ⟨l', hl', hc⟩ := h.asleep i hp
    rw [hpc] at hl'
    rcases hl' with hl' | hl' <;> cases hl'
    exact ⟨l, .inr rfl, hc⟩
  case h_9 l =>
    dsimp only at hs
    split at hs <;> cases hs
    · next hl =>
      exact inv_goto h rfl rfl rfl rfl (fun _ hp => hp) (fun p hp => update_of_ne hp _ _) (by simp [hpc])
        (by simp [hpc]) (by simp [hpc, Pc.Holds, hl]) trivial rfl (by simp [Pc.blind])
    · next hl =>
      have hh : s.lock .ptable = some i := (h.ptable i).mp (by rw [hpc]; trivial)
      refine inv_move h rfl (.inr (.inr ⟨hh, by simp [State.release], by simp [Pc.Holds]⟩)) hl rfl rfl
        (fun p hp hs => ⟨hs, update_of_ne hp _ _⟩) (fun hp => ?_) rfl (by simp [hpc]) (by simp [Pc.blind])
      exact absurd hp (h.runs (by simp [hpc]))
  case h_10 l =>
    have hap : l.lock ≠ .ptable := hap
    exact inv_acquire h hs (by simp [hpc, Pc.Holds]) trivial (by simp [hpc]) (by simp [hpc]) rfl
      (by simp [Pc.blind])
  case h_11 l =>
    cases hs
    exact inv_release h (by simp [hpc, Pc.Holds]) (fun hm => by rw [hpc]; exact hm) trivial (by simp [hpc])
      (by simp [hpc]) rfl (by simp [Pc.blind])
  case h_12 p =>
    exact inv_acquire h hs (by simp [hpc, Pc.Holds]) trivial (by simp [hpc]) (by simp [hpc]) rfl
      (by simp [Pc.blind])
  case h_13 p =>
    cases hs
    exact inv_killSet h hpc fun l => hgap p l hpc
  case h_14 p =>
    split at hs <;> cases hs
    · exact inv_killWake h hpc rfl (fun q hq => update_of_ne hq _ _) (by simp [State.goto, State.setState])
        rfl rfl rfl rfl
    · next hst => exact inv_killWake h hpc rfl (fun _ _ => rfl) hst rfl rfl rfl rfl
  case h_15 p =>
    cases hs
    exact inv_killRelease h hpc
  case h_16 | h_17 | h_18 => cases hs

theorem inv_next {a : Act ι} (h : Inv G s)
    (hgap : ∀ i, a = .step i → ∀ p l, s.pc i = .killSet p → (s.pc p).gap = some l → ¬ G l)
    (hs : next s a = some s') : Inv G s' := by
  cases a with
  | call i l =>
    simp only [next] at hs
    split at hs <;> cases hs
    next hpc =>
    exact inv_goto h rfl rfl rfl rfl (fun _ hp => hp) (fun _ _ => rfl) (by simp [hpc]) (by simp [hpc])
      (by rw [hpc]; rfl) trivial rfl (by simp [Pc.blind])
  | kill i p =>
    simp only [next] at hs
    split at hs <;> cases hs
    next hpc =>
    exact inv_goto h rfl rfl rfl rfl (fun _ hp => hp) (fun _ _ => rfl) (by simp [hpc]) (by simp [hpc])
      (by rw [hpc]; rfl) trivial rfl (by simp [Pc.blind])
  | step i => exact inv_step h (hgap i rfl) hs
  | body i again =>
    simp only [next] at hs
    split at hs
    · next l hpc =>
      cases hs
      cases again <;>
        exact inv_goto h rfl rfl rfl rfl (fun _ hp => hp) (fun _ _ => rfl) (by simp [hpc]) (by simp [hpc])
          (by rw [hpc]; rfl) trivial rfl (by simp [Pc.blind])
    · cases hs
  | sched i =>
    simp only [next] at hs
    split at hs
    · next l hpc =>
      split at hs
      · have hl := lock_acquire hs (by simp [State.setState, hpc, Pc.Holds])
        obtain ⟨-, rfl⟩ := acquire_some hs
        refine inv_move h rfl hl trivial rfl rfl (fun p hpi hp => ?_) (fun hp => ?_) rfl (by simp [hpc])
          (by simp [Pc.blind])
        · simp only [State.goto, State.setState, update_of_ne hpi] at hp ⊢
          exact ⟨hp, trivial⟩
        · simp [State.goto, State.setState] at hp
      · cases hs
    · cases hs
  | wakeup c =>
    simp only [next] at hs
    split at hs <;> cases hs
    refine ⟨h.ptable, h.apart, fun p hp => h.asleep p (wakeup1_sleeping hp), h.marked, h.returned,
      fun p l hG hk hb => ?_⟩
    obtain ⟨ha, hs⟩ := h.blind p l hG hk hb
    exact ⟨ha, fun hp => hs (wakeup1_sleeping hp)⟩
  | data d =>
    cases hs
    exact ⟨h.ptable, h.apart, h.asleep, h.marked, h.returned, h.blind⟩

omit [DecidableEq ι] in
theorem inv_init (d : Data ι) : Inv G (init d) := by
  refine ⟨fun i => ?_, fun i => trivial, fun p hp => ?_, fun i p hm => ?_, fun p hp => ?_, fun p l _ hk => ?_⟩
  · simp [init, Pc.Holds]
  · cases hp
  · cases hm
  · cases hp
  · cases hk

omit [DecidableEq ι] in
theorem Inv.stuck (h : Inv G s) (hp : Stuck s p) : ∃ l, s.chan p = some (l.chan p) ∧ ¬ G l := by
  obtain ⟨hk, hr, hs⟩ := hp
  obtain ⟨l, hl, hc⟩ := h.asleep p hs
  refine ⟨l, hc, fun hG => ?_⟩
  have hb : (s.pc p).blind = some l := by
    rcases hl with hl | hl <;> rw [hl] <;> rfl
  have hr' := ((h.blind p l hG hk hb).2 hs).1
  rw [hr] at hr'
  cases hr'

/-! ## Runs -/

/-- No process sleeps through a `kill` that has returned, when no `kill` comes into the gap between the test
of `killed` and `sleep`. In `wait` there is no gap. -/
theorem killed_does_not_sleep {d : Data ι} {tr : List (State ι × Act ι)}
    (hrun : Path (Next next) (init d) tr s) :
    Along (fun s => ∀ p, Stuck s p → s.chan p ≠ some (.proc p)) tr s ∧
      (Meets NoGap tr → Along (fun s => ∀ p, ¬ Stuck s p) tr s) := by
  constructor
  · have hall : Along (Inv fun l => l = .wait) tr s := by
      refine along_of_all_steps (fun s a s' h hs => inv_next h (fun i _ p l _ hg => ?_) hs) hrun (inv_init d)
      -- in the gap the lock of the loop is not `ptable.lock`
      rintro rfl
      have hap := h.apart p
      cases hp : s.pc p <;> rw [hp] at hg hap <;> simp_all [Pc.gap, Pc.Apart, Loop.lock]
    refine hall.mono fun s h p hp hc => ?_
    obtain ⟨l, hl, hG⟩ := h.stuck hp
    rw [hl] at hc
    cases l <;> simp_all [Loop.chan]
  · intro hok
    have hall : Along (Inv fun _ => True) tr s := by
      refine along_of_step (fun s a s' h hok hs => inv_next h (fun i ha p l hp hg => ?_) hs) hrun (inv_init d) hok
      subst ha
      rw [hok p hp] at hg
      cases hg
    refine hall.mono fun s h p hp => ?_
    obtain ⟨l, -, hG⟩ := h.stuck hp
    exact hG trivial

/-- An empty pipe with a writer, no input, and no children. -/
def quietData : Data (Fin 2) where
  pipe := fun _ => ⟨0, 0, true, true⟩
  r := 0
  w := 0
  ticks := 0
  havekids := fun _ => false
  zombie := fun _ => false

/-- A reader that sleeps at an empty pipe is woken by a `kill`. -/
theorem killed_reader_wakes : ∃ s, follow next (init quietData)
      [.call 0 (.piperead 0), .step 0, .step 0, .step 0, .step 0, .step 0, .step 0, .step 0, .kill 1 0,
        .step 1, .step 1, .step 1, .step 1] = some s ∧ s.killed 0 = true ∧ s.returned 0 = true ∧
      ∀ p, ¬ Stuck s p := by
  have hrun : (follow next (init quietData)
      [.call 0 (.piperead 0), .step 0, .step 0, .step 0, .step 0, .step 0, .step 0, .step 0, .kill 1 0,
        .step 1, .step 1, .step 1, .step 1]).map (fun s => (s.killed 0, s.returned 0)) = some (true, true) := by
    decide +kernel
  obtain ⟨s, hs, hp⟩ := Option.map_eq_some_iff.mp hrun
  simp only [Prod.mk.injEq] at hp
  have hok : ∀ x ∈ visited next (init quietData)
      [.call 0 (.piperead 0), .step 0, .step 0, .step 0, .step 0, .step 0, .step 0, .step 0, .kill 1 0,
        .step 1, .step 1, .step 1, .step 1], NoGap x.1 x.2 := by
    decide +kernel
  exact ⟨s, hs, hp.1, hp.2, ((killed_does_not_sleep (path_visited hs).1).2 hok).2⟩

/-- A reader has found the flag 0. The `kill` sets it, finds nobody `SLEEPING` and returns, and the reader
goes to sleep at the empty pipe. -/
theorem killed_reader_sleeps : ∃ s tr, Path (Next next) (init quietData) tr s ∧ Stuck s 0 ∧
    s.chan 0 = some (.nread 0) := by
  have hrun : (follow next (init quietData)
      [.call 0 (.piperead 0), .step 0, .step 0, .step 0, .kill 1 0, .step 1, .step 1, .step 1, .step 1,
        .step 0, .step 0, .step 0, .step 0]).map (fun s => (s.killed 0, s.returned 0, s.state 0, s.chan 0)) =
      some (true, true, .SLEEPING, some (.nread 0)) := by
    decide +kernel
  obtain ⟨s, hs, hp⟩ := Option.map_eq_some_iff.mp hrun
  simp only [Prod.mk.injEq] at hp
  obtain ⟨tr, hpath, -⟩ := path_of_follow hs
  exact ⟨s, tr, hpath, ⟨hp.1, hp.2.1, hp.2.2.1⟩, hp.2.2.2⟩

end Xv6.Killed
