import Xv6.Pipe.Fifo

/-!
# No process sleeps past its condition

While `p->lock` is free, a reader sleeps only at an empty pipe and a writer only at a full one. This
fails when a writer that has stored bytes finds the pipe full and gives up: it returns -1 without a
`wakeup(&p->nread)`.
-/

open Xv6.Run Function

namespace Xv6.Pipe

variable {ι : Type} {s s' : State ι} {i j : ι} {c : Chan} {pc : Pc}

/-- What a process that sleeps on the channel waits for is not there yet. -/
def Quiet (s : State ι) : Chan → Prop
  | .nread => s.empty = true ∧ s.writeopen = true
  | .nwrite => s.full = true ∧ s.readopen = true

/-- With `p->lock` free, nobody sleeps on a channel whose condition has come true. -/
def NoneMissed (s : State ι) : Prop :=
  s.lock = none → ∀ i c back, s.pc i = .asleep c back → Quiet s c

/-- No `pipewrite` returns early after it has stored bytes since its last `wakeup(&p->nread)`. -/
def NoEarlyReturn (s : State ι) : Act ι → Prop
  | .step i => ∀ buf k woke, s.pc i = .writeLoop buf k woke → k < buf.length → s.full = true →
      (s.readopen = false ∨ s.killed i = true) → woke = k
  | _ => True

/-! ## The state of the processes -/

/-- The process has `p->lock`. -/
def Pc.holds : Pc → Bool
  | .writeLoop _ _ _ | .writeWake _ _ | .writeSleep _ _ | .writeDone | .readWait _ | .readSleep _
  | .readCopy _ _ | .readDone | .closeFlag _ | .closeWake _ | .release => true
  | .out | .writeAcquire _ | .readAcquire _ | .closeAcquire _ | .doze _ _ | .asleep _ _ | .ready _
  | .awake _ => false

/-- The process has `ptable.lock`. -/
def Pc.dozes : Pc → Bool
  | .doze _ _ => true
  | _ => false

/-- The channel that the process sleeps on, or is about to. -/
def Pc.waits : Pc → Option Chan
  | .doze c _ => some c
  | .asleep c _ => some c
  | _ => none

/-- The process is going to `wakeup` the channel before it releases the lock. -/
def Pc.owes : Pc → Chan → Prop
  | .writeLoop _ k woke, c => c = .nread ∧ woke < k
  | .writeWake _ _, c => c = .nread
  | .writeDone, c => c = .nread
  | .readCopy _ _, c => c = .nwrite
  | .readDone, c => c = .nwrite
  | .closeWake w, c => c = if w then .nread else .nwrite
  | _, _ => False

/-- What the process has found out since it has the lock. -/
def Pc.Checked (s : State ι) : Pc → Prop
  | .writeLoop _ k woke => woke ≤ k
  | .writeWake _ _ => Quiet s .nwrite
  | .writeSleep _ _ => Quiet s .nwrite
  | .readSleep _ => Quiet s .nread
  | _ => True

structure Inv (s : State ι) : Prop where
  lock : ∀ i, (s.pc i).holds = true ↔ s.lock = some i
  ptable : ∀ i, (s.pc i).dozes = true ↔ s.ptable = some i
  waits : ∀ i c, (s.pc i).waits = some c → Quiet s c ∨ ∃ j, s.lock = some j ∧ (s.pc j).owes c
  checked : ∀ i, (s.pc i).Checked s

theorem Pc.checked_of_not_holds (s : State ι) (h : pc.holds = false) : pc.Checked s := by
  cases pc <;> trivial

theorem Pc.eq_out (h : pc.isOut = true) : pc = .out := by
  cases pc <;> first | rfl | cases h

theorem Pc.waits_of_holds (h : pc.holds = true) : pc.waits = none ∧ pc.dozes = false := by
  cases pc <;> first | exact ⟨rfl, rfl⟩ | cases h

theorem inv_init (c : BitVec 32) (data : Nat → UInt8) : Inv (init c data : State ι) where
  lock i := by simp [init, Pc.holds]
  ptable i := by simp [init, Pc.dozes]
  waits i c h := by cases h
  checked i := trivial

theorem Inv.quiet (h : Inv s) (hl : s.lock = none) (hw : (s.pc i).waits = some c) : Quiet s c := by
  rcases h.waits i c hw with hq | ⟨j, hj, -⟩
  · exact hq
  · rw [hl] at hj
    cases hj

theorem Inv.quiet_of_holder (h : Inv s) (hl : s.lock = some j) (ho : ¬ (s.pc j).owes c)
    (hw : (s.pc i).waits = some c) : Quiet s c := by
  rcases h.waits i c hw with hq | ⟨k, hk, hko⟩
  · exact hq
  · obtain rfl := Option.some.inj (hl.symm.trans hk)
    exact absurd hko ho

/-! ## Steps -/

variable [DecidableEq ι]

theorem inv_hold (h : Inv s) (hl : ∀ k, s.lock = some k → k = i) (hd : (s.pc i).dozes = false)
    (hpc : s'.pc = update s.pc i pc) (hlock : s'.lock = some i) (hpt : s'.ptable = s.ptable)
    (hh : pc.holds = true) (hw : ∀ j c, (s.pc j).waits = some c → Quiet s' c ∨ pc.owes c)
    (hchk : pc.Checked s') : Inv s' := by
  have hother : ∀ k, k ≠ i → s'.pc k = s.pc k ∧ (s.pc k).holds = false := by
    intro k hk
    refine ⟨by rw [hpc, update_of_ne hk], ?_⟩
    by_contra hc
    exact hk (hl k ((h.lock k).mp (by simpa using hc)))
  have hself : s'.pc i = pc := by rw [hpc, update_self]
  refine ⟨fun k => ?_, fun k => ?_, fun k c hk => ?_, fun k => ?_⟩
  · by_cases hki : k = i
    · subst hki
      rw [hself, hlock]
      exact ⟨fun _ => rfl, fun _ => hh⟩
    · rw [(hother k hki).1, (hother k hki).2, hlock]
      simp [Ne.symm hki]
  · by_cases hki : k = i
    · subst hki
      rw [hself, hpt, ← h.ptable k, (Pc.waits_of_holds hh).2, hd]
    · rw [(hother k hki).1, hpt]
      exact h.ptable k
  · have hki : k ≠ i := by
      rintro rfl
      rw [hself, (Pc.waits_of_holds hh).1] at hk
      cases hk
    rw [(hother k hki).1] at hk
    refine (hw k c hk).imp_right fun ho => ⟨i, hlock, ?_⟩
    rw [hself]
    exact ho
  · by_cases hki : k = i
    · subst hki
      rw [hself]
      exact hchk
    · rw [(hother k hki).1]
      exact Pc.checked_of_not_holds _ (hother k hki).2

theorem inv_holder (h : Inv s) (hl : s.lock = some i) (hpc : s'.pc = update s.pc i pc)
    (hlock : s'.lock = s.lock) (hpt : s'.ptable = s.ptable) (hh : pc.holds = true)
    (hw : ∀ j c, (s.pc j).waits = some c → Quiet s' c ∨ pc.owes c) (hchk : pc.Checked s') : Inv s' :=
  inv_hold h (fun _ hk => Option.some.inj (hk.symm.trans hl))
    (Pc.waits_of_holds ((h.lock i).mpr hl)).2 hpc (hlock.trans hl) hpt hh hw hchk

theorem inv_leave (h : Inv s) (hpc : s'.pc = update s.pc i pc) (hh : pc.holds = false)
    (hlock : ∀ k, s'.lock = some k ↔ k ≠ i ∧ s.lock = some k)
    (hpti : pc.dozes = true ↔ s'.ptable = some i)
    (hpt : ∀ k, k ≠ i → (s'.ptable = some k ↔ s.ptable = some k)) (ho : ∀ c, ¬ (s.pc i).owes c)
    (hw : ∀ c, pc.waits = some c → (s.pc i).waits = some c ∨ Quiet s c)
    (hq : ∀ c, Quiet s c → Quiet s' c) (hchk : ∀ pc : Pc, pc.Checked s → pc.Checked s') : Inv s' := by
  have hother : ∀ k, k ≠ i → s'.pc k = s.pc k := fun k hk => by rw [hpc, update_of_ne hk]
  have hself : s'.pc i = pc := by rw [hpc, update_self]
  -- whoever owed a `wakeup` still has the lock, so it is not `i`
  have hwait : ∀ k c, (s.pc k).waits = some c →
      Quiet s' c ∨ ∃ j, s'.lock = some j ∧ (s'.pc j).owes c := by
    intro k c hk
    rcases h.waits k c hk with hk | ⟨j, hj, hjo⟩
    · exact .inl (hq c hk)
    · have hji : j ≠ i := by
        rintro rfl
        exact ho c hjo
      exact .inr ⟨j, (hlock j).mpr ⟨hji, hj⟩, (hother j hji).symm ▸ hjo⟩
  refine ⟨fun k => ?_, fun k => ?_, fun k c hk => ?_, fun k => ?_⟩
  · by_cases hki : k = i
    · subst hki
      rw [hself, hh, hlock]
      simp
    · rw [hother k hki, hlock, h.lock k]
      simp [hki]
  · by_cases hki : k = i
    · subst hki
      rw [hself]
      exact hpti
    · rw [hother k hki, hpt k hki]
      exact h.ptable k
  · by_cases hki : k = i
    · subst hki
      rw [hself] at hk
      exact (hw c hk).elim (hwait k c) fun hc => .inl (hq c hc)
    · rw [hother k hki] at hk
      exact hwait k c hk
  · by_cases hki : k = i
    · subst hki
      rw [hself]
      exact Pc.checked_of_not_holds _ hh
    · rw [hother k hki]
      exact hchk _ (h.checked k)

omit [DecidableEq ι] in
theorem Pc.wake_kind (c : Chan) (pc : Pc) :
    (pc.wake c).holds = pc.holds ∧ (pc.wake c).dozes = pc.dozes ∧ (pc.holds = true → pc.wake c = pc) := by
  cases pc with
  | asleep c' back =>
    rw [Pc.wake]
    split
    · exact ⟨rfl, rfl, fun h => by cases h⟩
    · exact ⟨rfl, rfl, fun h => by cases h⟩
  | _ => exact ⟨rfl, rfl, fun _ => rfl⟩

theorem Pc.waits_wake {c' : Chan} (h : (pc.wake c).waits = some c') :
    pc.waits = some c' ∧ (pc.dozes = false → c' ≠ c) := by
  cases pc with
  | asleep c0 back =>
    rw [Pc.wake] at h
    split at h
    · cases h
    · next hne =>
      obtain rfl := Option.some.inj h
      exact ⟨rfl, fun _ => hne⟩
  | doze c0 back => exact ⟨h, fun hd => by cases hd⟩
  | _ => cases h

omit [DecidableEq ι] in
theorem inv_wakeup (h : Inv s) (hpt : s.ptable = none) (c : Chan) :
    Inv (s.wakeup c) ∧ ∀ j, ((s.wakeup c).pc j).waits ≠ some c := by
  have hdoze : ∀ j, (s.pc j).dozes = false := by
    intro j
    by_contra hc
    have := (h.ptable j).mp (by simpa using hc)
    rw [hpt] at this
    cases this
  refine ⟨⟨fun j => ?_, fun j => ?_, fun j c' hj => ?_, fun j => ?_⟩, fun j hj => ?_⟩
  · change ((s.pc j).wake c).holds = true ↔ s.lock = some j
    rw [(Pc.wake_kind c (s.pc j)).1]
    exact h.lock j
  · change ((s.pc j).wake c).dozes = true ↔ s.ptable = some j
    rw [(Pc.wake_kind c (s.pc j)).2.1]
    exact h.ptable j
  · rcases h.waits j c' (Pc.waits_wake hj).1 with hq | ⟨k, hk, ho⟩
    · left
      cases c' <;> exact hq
    · refine .inr ⟨k, hk, ?_⟩
      change ((s.pc k).wake c).owes c'
      rw [(Pc.wake_kind c (s.pc k)).2.2 ((h.lock k).mpr hk)]
      exact ho
  · change ((s.pc j).wake c).Checked _
    cases hh : (s.pc j).holds with
    | false => exact Pc.checked_of_not_holds _ ((Pc.wake_kind c (s.pc j)).1.trans hh)
    | true =>
      rw [(Pc.wake_kind c (s.pc j)).2.2 hh]
      have hc := h.checked j
      cases hp : s.pc j <;> rw [hp] at hc <;> exact hc
  · exact (Pc.waits_wake hj).2 (hdoze j) rfl

theorem inv_wakeThen (h : Inv s) (hl : s.lock = some i) (hpt : s.ptable = none)
    (ho : ∀ c', (s.pc i).owes c' → c' = c) (hh : pc.holds = true) (hchk : pc.Checked s) :
    Inv ((s.wakeup c).goto i pc) := by
  obtain ⟨hw, hnone⟩ := inv_wakeup h hpt c
  have hi : (s.wakeup c).pc i = s.pc i := (Pc.wake_kind c (s.pc i)).2.2 ((h.lock i).mpr hl)
  refine inv_holder hw hl rfl rfl rfl hh (fun j c' hj => .inl ?_) ?_
  · have hne : ¬ ((s.wakeup c).pc i).owes c' := by
      intro hc
      rw [hi] at hc
      exact hnone j (ho c' hc ▸ hj)
    have hq := hw.quiet_of_holder hl hne hj
    cases c' <;> exact hq
  · cases pc <;> exact hchk

theorem inv_fallAsleep {back : Back} (h : Inv s) (hl : s.lock = some i) (hpt : s.ptable = none)
    (ho : ∀ c', ¬ (s.pc i).owes c') (hq : Quiet s c) :
    Inv { s.goto i (.doze c back) with lock := none, ptable := some i } := by
  refine inv_leave h rfl rfl (fun k => ?_) ?_ (fun k hk => ?_) ho (fun c' hc => .inr ?_)
    (fun c' hc => ?_) (fun pc hc => ?_)
  · simp [hl, eq_comm]
  · simp [Pc.dozes]
  · simp [hpt, Ne.symm hk]
  · obtain rfl := Option.some.inj hc
    exact hq
  · cases c' <;> exact hc
  · cases pc <;> exact hc

theorem inv_release (h : Inv s) (hl : s.lock = some i) (ho : ∀ c', ¬ (s.pc i).owes c') :
    Inv { s.goto i .out with lock := none } := by
  have hd := (Pc.waits_of_holds ((h.lock i).mpr hl)).2
  refine inv_leave h rfl rfl (fun k => ?_) ?_ (fun k hk => Iff.rfl) ho (fun c' hc => ?_)
    (fun c' hc => ?_) (fun pc hc => ?_)
  · simp [hl, eq_comm]
  · rw [show ({ s.goto i .out with lock := none } : State ι).ptable = s.ptable from rfl,
      ← h.ptable i, hd]
    exact Iff.rfl
  · cases hc
  · cases c' <;> exact hc
  · cases pc <;> exact hc

theorem inv_outside (h : Inv s) (hi : (s.pc i).holds = false) (hpc : s'.pc = update s.pc i pc)
    (hlock : s'.lock = s.lock) (hh : pc.holds = false) (hpti : pc.dozes = true ↔ s'.ptable = some i)
    (hpt : ∀ k, k ≠ i → (s'.ptable = some k ↔ s.ptable = some k))
    (hw : ∀ c, pc.waits = some c → (s.pc i).waits = some c) (hq : ∀ c, Quiet s c → Quiet s' c)
    (hchk : ∀ pc : Pc, pc.Checked s → pc.Checked s') : Inv s' := by
  refine inv_leave h hpc hh (fun k => ?_) hpti hpt (fun c hc => ?_) (fun c hc => .inl (hw c hc)) hq hchk
  · rw [hlock]
    refine ⟨fun hk => ⟨?_, hk⟩, fun hk => hk.2⟩
    rintro rfl
    rw [(h.lock k).mpr hk] at hi
    cases hi
  · cases hp : s.pc i <;> rw [hp] at hi hc <;> first | exact hc | cases hi

theorem inv_acquire (h : Inv s) (hl : s.lock = none) (hd : (s.pc i).dozes = false) (hh : pc.holds = true)
    (hchk : pc.Checked s) : Inv { s.goto i pc with lock := some i } := by
  refine inv_hold h (fun k hk => ?_) hd rfl rfl rfl hh (fun j c hj => .inl ?_) ?_
  · rw [hl] at hk
    cases hk
  · have hq := h.quiet hl hj
    cases c <;> exact hq
  · cases pc <;> exact hchk

theorem inv_goto (h : Inv s) (hl : s.lock = some i) (hh : pc.holds = true)
    (ho : ∀ c, (s.pc i).owes c → pc.owes c) (hchk : pc.Checked s) : Inv (s.goto i pc) := by
  refine inv_holder h hl rfl rfl rfl hh (fun j c hj => ?_) ?_
  · rcases h.waits j c hj with hq | ⟨k, hk, hko⟩
    · left
      cases c <;> exact hq
    · obtain rfl := Option.some.inj (hl.symm.trans hk)
      exact .inr (ho c hko)
  · cases pc <;> exact hchk

theorem inv_store {buf : List UInt8} {k woke : Nat} (h : Inv s) (hl : s.lock = some i)
    (hi : s.pc i = .writeLoop buf k woke) (hroom : s.full = false) (b : UInt8) :
    Inv ((s.store b).goto i (.writeLoop buf (k + 1) woke)) := by
  have hwoke : woke ≤ k := by
    have := h.checked i
    rwa [hi] at this
  refine inv_holder h hl rfl rfl rfl rfl (fun j c hj => .inr ⟨?_, by omega⟩) (Nat.le_succ_of_le hwoke)
  cases c with
  | nread => rfl
  | nwrite =>
    have hq : Quiet s .nwrite := h.quiet_of_holder hl (by simp [hi, Pc.owes]) hj
    rw [hq.1] at hroom
    cases hroom

theorem inv_take {n : Nat} {got got' : List UInt8} (h : Inv s) (hl : s.lock = some i)
    (hi : s.pc i = .readCopy n got) (hne : s.empty = false) :
    Inv (s.take.goto i (.readCopy n got')) := by
  refine inv_holder h hl rfl rfl rfl rfl (fun j c hj => .inr ?_) trivial
  cases c with
  | nwrite => rfl
  | nread =>
    have hq : Quiet s .nread := h.quiet_of_holder hl (by simp [hi, Pc.owes]) hj
    rw [hq.1] at hne
    cases hne

theorem inv_closeFlag {w : Bool} (h : Inv s) (hl : s.lock = some i) (hi : s.pc i = .closeFlag w) :
    Inv { s.goto i (.closeWake w) with
      writeopen := if w then false else s.writeopen, readopen := if w then s.readopen else false } := by
  refine inv_holder h hl rfl rfl rfl rfl (fun j c hj => ?_) trivial
  have hq : Quiet s c := h.quiet_of_holder hl (by simp [hi, Pc.owes]) hj
  cases w <;> cases c <;> first | exact .inr rfl | exact .inl hq

theorem inv_step (h : Inv s) (hok : NoEarlyReturn s (.step i)) (hs : step s i = some s') : Inv s' := by
  have hchk := h.checked i
  have hlock := h.lock i
  unfold step at hs
  split at hs
  all_goals
    rename_i hpc
    rw [hpc] at hchk hlock
  case h_1 | h_6 | h_11 =>
    obtain ⟨hl, rfl⟩ := acquire_some hs
    exact inv_acquire h hl (by rw [hpc]; rfl) rfl (by first | exact Nat.le_refl 0 | trivial)
  case h_2 buf k woke =>
    have hl := hlock.mp rfl
    split at hs
    · cases hs
      exact inv_goto h hl rfl (fun c hc => by rw [hpc] at hc; exact hc.1) trivial
    · next b hb =>
      split at hs
      · next hfull =>
        split at hs
        · next hstop =>
          cases hs
          have hwoke := hok buf k woke hpc (List.getElem?_eq_some_iff.mp hb).1 hfull hstop
          refine inv_goto h hl rfl (fun c hc => ?_) trivial
          rw [hpc] at hc
          exact absurd hc.2 (by omega)
        · next hgo =>
          cases hs
          refine inv_goto h hl rfl (fun c hc => by rw [hpc] at hc; exact hc.1) ⟨hfull, ?_⟩
          simpa using fun hc => hgo (.inl hc)
      · next hroom =>
        cases hs
        exact inv_store h hl hpc (by simpa using hroom) b
  case h_3 =>
    obtain ⟨hpt, rfl⟩ := wakeThen_some hs
    exact inv_wakeThen h (hlock.mp rfl) hpt (fun c hc => by rw [hpc] at hc; exact hc) rfl hchk
  case h_5 | h_10 | h_13 =>
    obtain ⟨hpt, rfl⟩ := wakeThen_some hs
    exact inv_wakeThen h (hlock.mp rfl) hpt (fun c hc => by rw [hpc] at hc; exact hc) rfl trivial
  case h_4 | h_8 =>
    obtain ⟨hpt, rfl⟩ := fallAsleep_some hs
    exact inv_fallAsleep h (hlock.mp rfl) hpt (fun c hc => by rw [hpc] at hc; exact hc) hchk
  case h_7 n =>
    have hl := hlock.mp rfl
    have ho : ∀ pc' : Pc, ∀ c, (s.pc i).owes c → pc'.owes c := fun pc' c hc => by
      rw [hpc] at hc
      exact hc.elim
    split at hs
    · next hwait =>
      split at hs
      · cases hs
        exact inv_goto h hl rfl (ho _) trivial
      · cases hs
        exact inv_goto h hl rfl (ho _) hwait
    · cases hs
      exact inv_goto h hl rfl (ho _) trivial
  case h_9 n got =>
    have hl := hlock.mp rfl
    split at hs
    · next hne =>
      cases hs
      exact inv_take h hl hpc hne.2
    · cases hs
      exact inv_goto h hl rfl (fun c hc => by rw [hpc] at hc; exact hc) trivial
  case h_12 w =>
    have hc := inv_closeFlag h (hlock.mp rfl) hpc
    cases w <;> cases hs <;> exact hc
  case h_14 =>
    cases hs
    exact inv_release h (hlock.mp rfl) fun c hc => by rw [hpc] at hc; exact hc
  case h_15 c back =>
    cases hs
    have hpt : s.ptable = some i := (h.ptable i).mp (by rw [hpc]; rfl)
    refine inv_outside h (by rw [hpc]; rfl) rfl rfl rfl ?_ (fun k hk => ?_) (fun c' hc => ?_)
      (fun c' hc => ?_) (fun pc hc => ?_)
    · simp [Pc.dozes]
    · simp [hpt, Ne.symm hk]
    · rw [hpc]
      exact hc
    · cases c' <;> exact hc
    · cases pc <;> exact hc
  case h_16 back =>
    obtain ⟨hl, rfl⟩ := acquire_some hs
    cases back with
    | write buf k => exact inv_acquire h hl (by rw [hpc]; rfl) rfl (Nat.le_refl k)
    | read n => exact inv_acquire h hl (by rw [hpc]; rfl) rfl trivial
  case h_17 | h_18 | h_19 => cases hs

theorem inv_turn (h : Inv s) (hi : (s.pc i).holds = false) (hd : (s.pc i).dozes = false)
    (hh : pc.holds = false) (hpd : pc.dozes = false) (hw : pc.waits = none) : Inv (s.goto i pc) := by
  refine inv_outside h hi rfl rfl hh ?_ (fun k hk => Iff.rfl) (fun c hc => ?_) (fun c hc => ?_)
    (fun pc hc => ?_)
  · change _ ↔ s.ptable = some i
    rw [← h.ptable i, hpd, hd]
  · rw [hw] at hc
    cases hc
  · cases c <;> exact hc
  · cases pc <;> exact hc

theorem inv_kill (h : Inv s) :
    Inv { s.goto i (s.pc i).kill with killed := update s.killed i true } := by
  have hsame : Inv { s with killed := update s.killed i true } :=
    ⟨h.lock, h.ptable, fun j c hj => (h.waits j c hj).imp_left fun hq => by cases c <;> exact hq,
      fun j => by
        have hc := h.checked j
        cases hp : s.pc j <;> rw [hp] at hc <;> exact hc⟩
  cases hp : s.pc i with
  | asleep c back => exact inv_turn hsame (by rw [hp]; rfl) (by rw [hp]; rfl) rfl rfl rfl
  | _ =>
    have hself : update s.pc i (s.pc i) = s.pc := update_eq_self i s.pc
    rw [hp] at hself
    unfold State.goto Pc.kill
    rw [hself]
    exact hsame

theorem inv_next {a : Act ι} (h : Inv s) (hok : NoEarlyReturn s a) (hs : next s a = some s') : Inv s' := by
  cases a with
  | write i buf | read i n | close i w =>
    simp only [next] at hs
    split at hs
    · next hout =>
      cases hs
      have hp := Pc.eq_out hout
      exact inv_turn h (by rw [hp]; rfl) (by rw [hp]; rfl) rfl rfl rfl
    · cases hs
  | step i => exact inv_step h hok hs
  | sched i =>
    simp only [next] at hs
    split at hs
    · next hp =>
      cases hs
      exact inv_turn h (by rw [hp]; rfl) (by rw [hp]; rfl) rfl rfl rfl
    · cases hs
  | kill i =>
    simp only [next] at hs
    split at hs
    · cases hs
      exact inv_kill h
    · cases hs

/-! ## Runs -/

/-- When no `pipewrite` gives up between a store and its `wakeup`, nobody sleeps past its condition, in
any state of the run. -/
theorem none_sleeps_past_condition {c : BitVec 32} {data : Nat → UInt8} {tr : List (State ι × Act ι)}
    (hrun : Path (Next next) (init c data) tr s) (hok : Meets NoEarlyReturn tr) :
    Along NoneMissed tr s := by
  refine (along_of_step (fun _ _ _ h hg hs => inv_next h hg hs) hrun (inv_init c data) hok).mono ?_
  intro s h hl i c back hi
  exact h.quiet (i := i) hl (by rw [hi]; rfl)

omit [DecidableEq ι] in
theorem noEarlyReturn_of_room (a : Act ι) (h : s.full = false) : NoEarlyReturn s a := by
  cases a with
  | step i =>
    intro buf k woke _ _ hfull
    rw [h] at hfull
    cases hfull
  | _ => trivial

/-- A reader sleeps at an empty pipe, and a writer stores a byte and wakes it. -/
theorem reader_woken_by_writer :
    ∃ tr s, Path (Next next) (init 0 fun _ => 0 : State Bool) tr s ∧ Meets NoEarlyReturn tr ∧
      (∃ x ∈ tr, x.1.pc false = .asleep .nread (.read 1)) ∧ s.pc false = .ready (.read 1) ∧
      Along NoneMissed tr s := by
  obtain ⟨as, has⟩ : ∃ as : List (Act Bool), as = [.read false 1, .step false, .step false, .step false,
    .step false, .write true [7], .step true, .step true, .step true, .step true, .step true] := ⟨_, rfl⟩
  obtain ⟨s, hs⟩ : ∃ s, follow next (init 0 fun _ => 0) as = some s := by
    rw [has]
    exact ⟨_, rfl⟩
  have hrun := (path_visited hs).1
  have hroom : (visited next (init 0 fun _ => 0) as).all (fun x => !x.1.full) = true := by
    rw [has]
    decide
  have hok : Meets NoEarlyReturn (visited next (init 0 fun _ => 0) as) := fun x hx =>
    noEarlyReturn_of_room x.2 (by simpa using List.all_eq_true.mp hroom x hx)
  refine ⟨_, s, hrun, hok, ?_, ?_, none_sleeps_past_condition hrun hok⟩
  · subst has
    exact ⟨_, List.mem_of_getElem? (i := 5) rfl, rfl⟩
  · subst has
    cases hs
    rfl

/-! ## The writer that gives up -/

/-- A killed writer has stored `k` of its bytes while the reader sleeps. -/
structure Storing (buf : List UInt8) (k : Nat) (s : State Bool) : Prop where
  writer : s.pc true = .writeLoop buf k 0
  reader : s.pc false = .asleep .nread (.read 1)
  killed : s.killed true = true
  nread : s.nread = 0
  nwrite : s.nwrite = BitVec.ofNat 32 k

theorem Storing.full_iff {buf : List UInt8} {k : Nat} {s : State Bool} (h : Storing buf k s)
    (hk : k ≤ PIPESIZE) : s.full = true ↔ k = PIPESIZE := by
  simp only [State.full, h.nread, h.nwrite, PIPESIZE, beq_iff_eq] at *
  constructor
  · intro he
    bv_omega
  · rintro rfl
    rfl

theorem Storing.store {buf : List UInt8} {k : Nat} {s : State Bool} (h : Storing buf k s)
    (hk : k < PIPESIZE) (hbuf : k < buf.length) :
    ∃ s', next s (.step true) = some s' ∧ Storing buf (k + 1) s' := by
  have hroom : s.full = false := by
    by_contra hc
    have := (h.full_iff (Nat.le_of_lt hk)).mp (by simpa using hc)
    omega
  refine ⟨(s.store buf[k]).goto true (.writeLoop buf (k + 1) 0), ?_, ?_⟩
  · simp only [next, step, h.writer, List.getElem?_eq_getElem hbuf, hroom, Bool.false_eq_true, if_false]
  · refine ⟨update_self true _ s.pc, ?_, h.killed, h.nread, ?_⟩
    · change update s.pc true (.writeLoop buf (k + 1) 0) false = _
      rw [update_of_ne (by decide), h.reader]
    · change s.nwrite + 1 = _
      rw [h.nwrite, BitVec.ofNat_add]
      rfl

theorem storing_run (buf : List UInt8) :
    ∀ k ≤ PIPESIZE, k ≤ buf.length →
      ∃ tr s, Path (Next next) (init 0 fun _ => 0 : State Bool) tr s ∧ Storing buf k s
  | 0, _, _ => by
    obtain ⟨s, hs⟩ : ∃ s, follow next (init 0 fun _ => 0) [.read false 1, .step false, .step false,
      .step false, .step false, .kill true, .write true buf, .step true] = some s := ⟨_, rfl⟩
    refine ⟨_, s, (path_visited hs).1, ?_⟩
    cases hs
    exact ⟨rfl, rfl, rfl, rfl, rfl⟩
  | k + 1, hk, hbuf => by
    obtain ⟨tr, s, hrun, hs⟩ := storing_run buf k (by omega) (by omega)
    obtain ⟨s', hn, hs'⟩ := hs.store (by omega) (by omega)
    exact ⟨_, s', hrun.snoc hn, hs'⟩

/-- The reader sleeps at the empty pipe. The killed writer fills the pipe, has a byte left, and returns
-1: `p->lock` is free, the pipe is full, and the reader still sleeps. -/
theorem killed_writer_wakes_nobody :
    ∃ tr s, Path (Next next) (init 0 fun _ => 0 : State Bool) tr s ∧ s.lock = none ∧
      s.pc true = .out ∧ s.pc false = .asleep .nread (.read 1) ∧ s.full = true ∧ ¬ NoneMissed s := by
  obtain ⟨tr, s, hrun, hs⟩ := storing_run (List.replicate 513 7) PIPESIZE (Nat.le_refl _)
    (by rw [List.length_replicate]; decide)
  have hfull := (hs.full_iff (Nat.le_refl _)).mpr rfl
  have hn1 : Next next s (.step true) (s.goto true .release) := by
    have hb : (List.replicate 513 (7 : UInt8))[PIPESIZE]? = some 7 := by
      rw [List.getElem?_replicate]
      rfl
    simp only [Next, next, step, hs.writer, hb, hfull, hs.killed, if_true, or_true]
  have hn2 : Next next (s.goto true .release) (.step true)
      { (s.goto true .release).goto true .out with lock := none } := by
    simp only [Next, next, step, State.goto, Function.update_self]
  have hreader : ({ (s.goto true .release).goto true .out with lock := none } : State Bool).pc false =
      .asleep .nread (.read 1) := by
    simp [State.goto, hs.reader]
  refine ⟨_, _, (hrun.snoc hn1).snoc hn2, rfl,
    Function.update_self true _ (s.goto true .release).pc, hreader, hfull, fun hc => ?_⟩
  have hq := hc rfl false .nread _ hreader
  have hempty : s.empty = true := hq.1
  simp only [State.empty, hs.nread, hs.nwrite] at hempty
  cases hempty

end Xv6.Pipe
