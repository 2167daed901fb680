import Xv6.File.Count

/-!
# The counts are exact

Every step keeps the invariant, so between calls the count of a file is the number of its descriptors, and a pipe
is there exactly as long as one of its ends is open.
-/

open Xv6.Owner Xv6.Refs Xv6.Run Function

namespace Xv6.File

variable {n : Nat} {s s' : State n} {p q np : Fin n} {pc : Pc n} {f : Fin NFILE} {fd : Fin NOFILE} {k : After}
  {o : Fin NOFILE → Option (Fin NFILE)}

/-! ## References move -/

theorem hold_fdalloc {pc' : Pc n} (b : Bool) (hfd : o fd = none) (hpend : pc.pending = none)
    (hpend' : pc'.pending = none) (hb : hold pc o (.inr b) = some f)
    (hb' : hold pc' (update o fd (some f)) (.inr b) = none)
    (hother : hold pc' (update o fd (some f)) (.inr !b) = hold pc o (.inr !b))
    (x : Fin NOFILE ⊕ Bool) :
    hold pc' (update o fd (some f)) x = hold pc o (Equiv.swap (.inl fd) (.inr b) x) := by
  rcases x with fd' | c
  · by_cases hne : fd' = fd
    · subst hne
      rw [Equiv.swap_apply_left, hb]
      simp [hold, hpend']
    · rw [Equiv.swap_apply_of_ne_of_ne (by simpa using hne) (by simp)]
      simp [hold, hpend, hpend', hne]
  · by_cases hc : c = b
    · subst hc
      rw [Equiv.swap_apply_right, hb']
      simp [hold, hpend, hfd]
    · rw [Equiv.swap_apply_of_ne_of_ne (by simp) (by simpa using hc), Bool.eq_not.mpr hc]
      exact hother

theorem hold_take {pc' : Pc n} (b : Bool) (hfd : o fd = some f) (hpend : pc.pending = none)
    (hpend' : pc'.pending = none) (hb : hold pc o (.inr b) = none)
    (hb' : hold pc' (update o fd none) (.inr b) = some f)
    (hother : hold pc' (update o fd none) (.inr !b) = hold pc o (.inr !b))
    (x : Fin NOFILE ⊕ Bool) :
    hold pc' (update o fd none) x = hold pc o (Equiv.swap (.inl fd) (.inr b) x) := by
  rcases x with fd' | c
  · by_cases hne : fd' = fd
    · subst hne
      rw [Equiv.swap_apply_left, hb]
      simp [hold, hpend']
    · rw [Equiv.swap_apply_of_ne_of_ne (by simpa using hne) (by simp)]
      simp [hold, hpend, hpend', hne]
  · by_cases hc : c = b
    · subst hc
      rw [Equiv.swap_apply_right, hb']
      simp [hold, hpend, hfd]
    · rw [Equiv.swap_apply_of_ne_of_ne (by simp) (by simpa using hc), Bool.eq_not.mpr hc]
      exact hother

theorem inv_goto (h : Inv s) (hact : s.state p = .ACTIVE) (hown : pc.Own (s.ofile p))
    (hkid : ∀ np i, pc.kid = some (np, i) → ∃ j ≤ i, (s.pc p).kid = some (np, j))
    (hhold : hold pc (s.ofile p) = hold (s.pc p) (s.ofile p)) (hfresh : ∀ f, pc.Fresh f → (s.pc p).Fresh f)
    (hends : pc.ends = (s.pc p).ends) (hshut : pc.shut = (s.pc p).shut) : Inv (s.goto p pc) := by
  refine inv_own h hact rfl (ofile_self s p) rfl hown hkid (.inr true) (.inr true) (fun x => ?_) hfresh hends hshut
  rw [hhold, Equiv.swap_self]
  rfl

theorem filealloc_some {s₁ : State n} (h : filealloc s = some (f, s₁)) : s.freeFile = some f ∧ s₁ = s.setRef f 1 := by
  simp only [filealloc, Option.map_eq_some_iff, Prod.mk.injEq] at h
  obtain ⟨g, hg, rfl, rfl⟩ := h
  exact ⟨hg, rfl⟩

theorem fdalloc_some {s₁ : State n} (h : fdalloc s p f = some (fd, s₁)) :
    s.ofile p fd = none ∧ s₁ = s.setOfile p fd (some f) := by
  simp only [fdalloc, Option.map_eq_some_iff, Prod.mk.injEq] at h
  obtain ⟨fd', hfd, rfl, rfl⟩ := h
  exact ⟨freeFd_none hfd, rfl⟩

theorem inv_fdalloc {s₁ : State n} (h : Inv s) (hact : s.state p = .ACTIVE) (hfd : fdalloc s p f = some (fd, s₁))
    (b : Bool) (hpend : (s.pc p).pending = none) (hpend' : pc.pending = none)
    (hb : hold (s.pc p) (s.ofile p) (.inr b) = some f)
    (hb' : hold pc (update (s.ofile p) fd (some f)) (.inr b) = none)
    (hother : hold pc (update (s.ofile p) fd (some f)) (.inr !b) = hold (s.pc p) (s.ofile p) (.inr !b))
    (hown : pc.Own (update (s.ofile p) fd (some f))) (hkid : pc.kid = none)
    (hfresh : ∀ f, pc.Fresh f → (s.pc p).Fresh f) (hends : pc.ends = (s.pc p).ends)
    (hshut : pc.shut = (s.pc p).shut) : Inv (s₁.goto p pc) := by
  obtain ⟨hnone, rfl⟩ := fdalloc_some hfd
  exact inv_own h hact rfl rfl rfl hown (by simp [hkid]) (.inl fd) (.inr b)
    (hold_fdalloc b hnone hpend hpend' hb hb' hother) hfresh hends hshut

theorem inv_bare (h : Inv s) (hact : s.state p = .ACTIVE) (hown : pc.Own (s.ofile p))
    (hkid : ∀ np i, pc.kid = some (np, i) → ∃ j ≤ i, (s.pc p).kid = some (np, j)) (hbare : (s.pc p).Bare)
    (hbare' : pc.Bare) (hfresh : ∀ f, ¬ pc.Fresh f) (hends : pc.ends = (s.pc p).ends)
    (hshut : pc.shut = (s.pc p).shut) : Inv (s.goto p pc) :=
  inv_goto h hact hown hkid (hold_bare hbare' hbare) (fun f hf => (hfresh f hf).elim) hends hshut

theorem inv_filealloc {s₁ : State n} (h : Inv s) (hact : s.state p = .ACTIVE) (hf : filealloc s = some (f, s₁))
    (hown : pc.Own (s.ofile p)) (hkid : pc.kid = none) (b : Bool)
    (hpend : pc.pending = (s.pc p).pending) (hnone : hold (s.pc p) (s.ofile p) (.inr b) = none)
    (hb : hold pc (s.ofile p) (.inr b) = some f)
    (hother : hold pc (s.ofile p) (.inr !b) = hold (s.pc p) (s.ofile p) (.inr !b))
    (hfresh : ∀ g, pc.Fresh g → g = f ∨ (s.pc p).Fresh g) (hends : pc.ends = (s.pc p).ends)
    (hshut : pc.shut = (s.pc p).shut) : Inv (s₁.goto p pc) := by
  obtain ⟨hfree, rfl⟩ := filealloc_some hf
  refine inv_alloc h hact hfree hown hkid (.inr b) hnone hb (fun x hx => ?_) hfresh hends hshut
  rcases x with fd | c
  · simp only [hold, hpend]
  · have hc : c ≠ b := fun hc => hx (by rw [hc])
    rw [Bool.eq_not.mpr hc]
    exact hother

theorem inv_step {page : Option Nat} (h : Inv s) (hs : step s p page = some s') : Inv s' := by
  have hactive := h.procs.active p
  have hown := h.procs.own p
  cases hpc : s.pc p with
  | user =>
    simp only [step, hpc] at hs
    cases hs
  | openAlloc ip omode =>
    have hact := hactive (by simp [hpc])
    simp only [step, hpc] at hs
    split at hs <;> cases hs
    · next f s₁ hf =>
      exact inv_filealloc h hact hf trivial rfl true (by rw [hpc]; rfl) (by rw [hpc]; rfl) rfl
        (by rw [hpc]; rfl) (fun g hg => .inl hg.symm) (by rw [hpc]; rfl) (by rw [hpc]; rfl)
    · exact inv_bare h hact trivial (by simp [Pc.kid]) (by rw [hpc]; exact ⟨rfl, rfl, rfl⟩) ⟨rfl, rfl, rfl⟩ (fun _ => id)
        (by rw [hpc]; rfl) (by rw [hpc]; rfl)
  | openFd f ip omode =>
    have hact := hactive (by simp [hpc])
    simp only [step, hpc] at hs
    split at hs <;> cases hs
    · next fd s₁ hfd =>
      exact inv_fdalloc h hact hfd true (by rw [hpc]; rfl) rfl (by rw [hpc]; rfl) rfl
        (by rw [hpc]; rfl) (update_self ..) rfl
        (fun g hg => by rw [hpc]; exact hg) (by rw [hpc]; rfl) (by rw [hpc]; rfl)
    · exact inv_goto h hact trivial (by simp [Pc.kid]) (by rw [hpc]; funext x; rcases x with _ | b <;> [rfl; cases b <;> rfl])
        (fun _ hg => hg.elim) (by rw [hpc]; rfl) (by rw [hpc]; rfl)
  | openSet f fd ip omode =>
    simp only [step, hpc] at hs
    cases hs
    exact inv_openSet h hpc rfl rfl
  | dup f fd =>
    simp only [step, hpc] at hs
    cases hs
    exact inv_dup h hpc
  | close f k =>
    simp only [step, hpc] at hs
    cases hs
    exact inv_close h hpc
  | pipeclose pg w k =>
    simp only [step, hpc] at hs
    cases hs
    exact inv_pipeclose h hpc
  | kfree pg k =>
    simp only [step, hpc] at hs
    cases hs
    exact inv_kfree h hpc
  | pipeAlloc0 =>
    have hact := hactive (by simp [hpc])
    simp only [step, hpc] at hs
    split at hs <;> cases hs
    · next f s₁ hf =>
      exact inv_filealloc h hact hf trivial rfl false (by rw [hpc]; rfl) (by rw [hpc]; rfl) rfl
        (by rw [hpc]; rfl) (fun g hg => .inl hg.symm) (by rw [hpc]; rfl) (by rw [hpc]; rfl)
    · exact inv_bare h hact trivial (by simp [Pc.kid]) (by rw [hpc]; exact ⟨rfl, rfl, rfl⟩) ⟨rfl, rfl, rfl⟩ (fun _ => id)
        (by rw [hpc]; rfl) (by rw [hpc]; rfl)
  | pipeAlloc1 f0 =>
    have hact := hactive (by simp [hpc])
    simp only [step, hpc] at hs
    split at hs <;> cases hs
    · next f s₁ hf =>
      exact inv_filealloc h hact hf trivial rfl true (by rw [hpc]; rfl) (by rw [hpc]; rfl) rfl
        (by rw [hpc]; rfl)
        (fun g hg => by rw [hpc]; exact (hg.imp_left id).symm.imp_left Eq.symm) (by rw [hpc]; rfl) (by rw [hpc]; rfl)
    · -- from one hand to the other
      refine inv_own h hact rfl (ofile_self s p) rfl trivial (by simp [Pc.kid]) (.inr false) (.inr true) (fun x => ?_)
        (fun _ hg => hg.elim) (by rw [hpc]; rfl) (by rw [hpc]; rfl)
      rw [hpc]
      rcases x with fd | c
      · rw [Equiv.swap_apply_of_ne_of_ne (by simp) (by simp)]
        rfl
      · cases c
        · rw [Equiv.swap_apply_left]
          rfl
        · rw [Equiv.swap_apply_right]
          rfl
  | pipeKalloc f0 f1 =>
    have hact := hactive (by simp [hpc])
    simp only [step, hpc] at hs
    split at hs
    · split at hs <;> cases hs
      next hlive =>
      exact inv_pipeinit h hpc (by simpa using hlive)
    · cases hs
      exact inv_goto h hact trivial (by simp [Pc.kid]) (by rw [hpc]; funext x; rcases x with _ | b <;> [rfl; cases b <;> rfl])
        (fun _ hg => hg.elim) (by rw [hpc]; rfl) (by rw [hpc]; rfl)
  | pipeFd0 rf wf =>
    have hact := hactive (by simp [hpc])
    simp only [step, hpc] at hs
    split at hs <;> cases hs
    · next fd s₁ hfd =>
      exact inv_fdalloc h hact hfd false (by rw [hpc]; rfl) rfl (by rw [hpc]; rfl) rfl
        (by rw [hpc]; rfl) (update_self ..) rfl
        (fun g hg => hg.elim) (by rw [hpc]; rfl) (by rw [hpc]; rfl)
    · exact inv_goto h hact trivial (by simp [Pc.kid]) (by rw [hpc]; funext x; rcases x with _ | b <;> [rfl; cases b <;> rfl])
        (fun _ hg => hg.elim) (by rw [hpc]; rfl) (by rw [hpc]; rfl)
  | pipeFd1 fd0 rf wf =>
    have hact := hactive (by simp [hpc])
    rw [hpc] at hown
    simp only [step, hpc] at hs
    split at hs <;> cases hs
    · next fd s₁ hfd =>
      exact inv_fdalloc h hact hfd true (by rw [hpc]; rfl) rfl (by rw [hpc]; rfl) rfl
        (by rw [hpc]; rfl) trivial rfl
        (fun g hg => hg.elim) (by rw [hpc]; rfl) (by rw [hpc]; rfl)
    · exact inv_own h hact rfl rfl rfl trivial (by simp [Pc.kid]) (.inl fd0) (.inr false)
        (hold_take false hown (by rw [hpc]; rfl) rfl (by rw [hpc]; rfl) rfl
          (by rw [hpc]; rfl))
        (fun g hg => hg.elim) (by rw [hpc]; rfl) (by rw [hpc]; rfl)
  | forkCopy np =>
    have hact := hactive (by simp [hpc])
    simp only [step, hpc] at hs
    split at hs <;> cases hs
    · refine inv_bare h hact trivial (fun np' i hkid => ?_) (by rw [hpc]; exact ⟨rfl, rfl, rfl⟩) ⟨rfl, rfl, rfl⟩ (fun _ => id)
        (by rw [hpc]; rfl) (by rw [hpc]; rfl)
      cases hkid
      exact ⟨0, le_rfl, by rw [hpc]; rfl⟩
    · exact inv_forkEnd h (by rw [hpc]; rfl) (.inr ⟨rfl, rfl⟩)
  | forkDup np i =>
    have hact := hactive (by simp [hpc])
    simp only [step, hpc] at hs
    split at hs
    · next hi =>
      split at hs <;> cases hs
      · next f hf => exact inv_forkDup h hpc hi hf
      · refine inv_bare h hact trivial (fun np' i' hkid => ?_) (by rw [hpc]; exact ⟨rfl, rfl, rfl⟩) ⟨rfl, rfl, rfl⟩ (fun _ => id)
          (by rw [hpc]; rfl) (by rw [hpc]; rfl)
        cases hkid
        exact ⟨i, by omega, by rw [hpc]; rfl⟩
    · cases hs
      exact inv_forkEnd h (by rw [hpc]; rfl) (.inl rfl)
  | exitFd fd =>
    have hact := hactive (by simp [hpc])
    rw [hpc] at hown
    simp only [step, hpc] at hs
    split at hs
    · next hfd =>
      split at hs <;> cases hs
      · next f hf =>
        exact inv_goto h hact ⟨hf, fun fd' hlt => hown fd' hlt⟩ (by simp [Pc.kid])
          (by rw [hpc]; funext x; rcases x with _ | b <;> [rfl; cases b <;> rfl])
          (fun _ hg => hg.elim) (by rw [hpc]; rfl) (by rw [hpc]; rfl)
      · next hf =>
        refine inv_bare h hact (fun fd' hlt => ?_) (by simp [Pc.kid]) (by rw [hpc]; exact ⟨rfl, rfl, rfl⟩) ⟨rfl, rfl, rfl⟩
          (fun _ => id) (by rw [hpc]; rfl) (by rw [hpc]; rfl)
        rcases Nat.lt_succ_iff_lt_or_eq.mp hlt with hlt | heq
        · exact hown fd' hlt
        · obtain rfl : fd' = ⟨fd, hfd⟩ := Fin.ext heq
          exact hf
    · next hfd =>
      cases hs
      exact inv_exit h hpc hfd
  | exitClear fd =>
    have hact := hactive (by simp [hpc])
    rw [hpc] at hown
    simp only [step, hpc] at hs
    cases hs
    refine inv_own h hact rfl rfl rfl (fun fd' hlt => ?_) (by simp [Pc.kid]) (.inr true) (.inr true) (fun x => ?_)
      (fun g hg => hg.elim) (by rw [hpc]; rfl) (by rw [hpc]; rfl)
    · by_cases heq : fd' = fd
      · rw [heq, update_self]
      · rw [update_of_ne heq]
        have hne : fd'.val ≠ fd.val := fun he => heq (Fin.ext he)
        exact hown fd' (by have := hlt; show fd'.val < fd.val; omega)
    · rw [Equiv.swap_self, hpc]
      rcases x with fd' | b
      · by_cases heq : fd' = fd
        · simp [hold, heq, Pc.pending]
        · simp [hold, heq, Ne.symm heq, Pc.pending]
      · cases b <;> rfl

theorem argfd_some {x : Int} (h : argfd s p x = some (fd, f)) : s.ofile p fd = some f := by
  unfold argfd at h
  split at h
  · simp only [Option.map_eq_some_iff, Prod.mk.injEq] at h
    obtain ⟨g, hg, rfl, rfl⟩ := h
    exact hg
  · cases h

theorem inv_call {c : Call n} (h : Inv s) (hact : s.state p = .ACTIVE) (hpc : s.pc p = .user)
    (hs : call s p c = some s') : Inv s' := by
  have hstart : ∀ pc : Pc n, pc.Own (s.ofile p) → pc.kid = none → pc.Bare → (∀ f, ¬ pc.Fresh f) → pc.ends = none →
      pc.shut = none → Inv (s.goto p pc) := fun pc h1 h2 h3 h4 h5 h6 =>
    inv_bare h hact h1 (by simp [h2]) (by rw [hpc]; exact ⟨rfl, rfl, rfl⟩) h3 h4 (by rw [hpc, h5]; rfl)
      (by rw [hpc, h6]; rfl)
  cases c with
  | «open» ip omode =>
    simp only [call] at hs
    split at hs <;> cases hs
    · exact hstart _ trivial rfl ⟨rfl, rfl, rfl⟩ (fun _ => id) rfl rfl
    · exact h
  | close x =>
    simp only [call] at hs
    split at hs <;> cases hs
    · next fd f hfd =>
      exact inv_own h hact rfl rfl rfl trivial (by simp [Pc.kid]) (.inl fd) (.inr true)
        (hold_take true (argfd_some hfd) (by rw [hpc]; rfl) rfl (by rw [hpc]; rfl) rfl (by rw [hpc]; rfl))
        (fun g hg => hg.elim) (by rw [hpc]; rfl) (by rw [hpc]; rfl)
    · exact h
  | dup x =>
    simp only [call] at hs
    split at hs
    · next fd' f hfd' =>
      have hfd' := argfd_some hfd'
      split at hs <;> cases hs
      · next fd s₁ hfd =>
        obtain ⟨hnone, rfl⟩ := fdalloc_some hfd
        have hne : fd' ≠ fd := by
          rintro rfl
          rw [hnone] at hfd'
          cases hfd'
        refine inv_own h hact rfl rfl rfl ⟨update_self .., fd', hne, ?_⟩ (by simp [Pc.kid]) (.inr true)
          (.inr true) (fun x => ?_) (fun g hg => hg.elim) (by rw [hpc]; rfl) (by rw [hpc]; rfl)
        · rw [update_of_ne hne, hfd']
        · rw [Equiv.swap_self, hpc]
          rcases x with fd₁ | b
          · by_cases heq : fd₁ = fd
            · simp [hold, heq, Pc.pending, hnone]
            · simp [hold, heq, Ne.symm heq, Pc.pending]
          · cases b <;> rfl
      · exact h
    · cases hs
      exact h
  | pipe =>
    cases hs
    exact hstart _ trivial rfl ⟨rfl, rfl, rfl⟩ (fun _ => id) rfl rfl
  | fork np =>
    simp only [call] at hs
    split at hs
    · split at hs <;> cases hs
      next hnp =>
      exact inv_fork h hact hpc hnp
    · cases hs
      exact h
  | exit =>
    simp only [call] at hs
    split at hs <;> cases hs
    exact hstart _ (fun fd hfd => absurd hfd (Nat.not_lt_zero _)) rfl ⟨rfl, rfl, rfl⟩ (fun _ => id) rfl rfl
  | wait z =>
    simp only [call] at hs
    split at hs <;> cases hs
    next hz =>
    exact inv_wait h hpc hz

theorem inv_next (s : State n) (a : Act n) (s' : State n) (h : Inv s) (hs : Next next s a s') : Inv s' := by
  cases a with
  | step p page =>
    simp only [Next, next] at hs
    split at hs
    · cases hs
    · exact inv_step h hs
  | call p c =>
    simp only [Next, next] at hs
    split at hs
    · next hcan => exact inv_call h hcan.2.1 hcan.2.2 hs
    · cases hs

theorem inv_init (p : Fin n) : Inv (init p) := by
  have hempty : ∀ x, (init p).holder x = none := by
    rintro ⟨q, fd | b⟩
    · rfl
    · cases b <;> rfl
  refine ⟨⟨fun _ => trivial, fun q hq => absurd rfl hq, fun _ _ _ => rfl, by simp [init, Pc.kid],
    by simp [init, Pc.kid]⟩, ⟨fun f => ?_, by simp [init], fun _ _ hf => hf.elim⟩, ⟨⟨?_, ?_, ?_⟩, ⟨?_, ?_, ?_⟩, ?_⟩, rfl⟩
  · simp only [count, hempty]
    simp [init]
  all_goals simp [init, State.ends, File.ends, Pc.ends, Pc.shut]

/-! ## Between calls -/

/-- No process is in a call. -/
def Quiet (s : State n) : Prop := ∀ p, s.pc p = .user

/-- File `f` is an end of the pipe in page `pg`. -/
def State.isEnd (s : State n) (f : Fin NFILE) (pg : Nat) (writable : Bool) : Prop :=
  0 < (s.file f).ref ∧ (s.file f).type = .FD_PIPE ∧ (s.file f).pipe = pg ∧ (s.file f).writable = writable

structure Exact (s : State n) : Prop where
  refs : ∀ f, (s.file f).ref =
    (Finset.univ.filter fun x : Fin n × Fin NOFILE => s.ofile x.1 x.2 = some f).card
  free : ∀ f, (s.file f).ref = 0 → (s.file f).type = .FD_NONE ∧ ∀ p fd, s.ofile p fd ≠ some f
  readopen : ∀ pg, s.live pg = true → ((s.pipe pg).readopen = true ↔ ∃ f, s.isEnd f pg false)
  writeopen : ∀ pg, s.live pg = true → ((s.pipe pg).writeopen = true ↔ ∃ f, s.isEnd f pg true)
  /-- A page that a pipe has got and not given back belongs to a pipe with an open end. -/
  kfree : ∀ pg, s.kallocs pg = s.kfrees pg + (if s.live pg then 1 else 0) ∧
    (s.live pg = true → (s.pipe pg).readopen = true ∨ (s.pipe pg).writeopen = true)

/-- What a step frees is a pipe with both ends closed, and it is freed once. -/
def FreesClosed (s : State n) (a : Act n) : Prop :=
  ∀ s', next s a = some s' → ∀ pg, s'.kfrees pg ≠ s.kfrees pg →
    s'.kfrees pg = s.kfrees pg + 1 ∧ s.live pg = true ∧ s'.live pg = false ∧
      (s.pipe pg).readopen = false ∧ (s.pipe pg).writeopen = false

theorem ends_eq_some {x : File} {pg : Nat} {w : Bool} :
    x.ends = some (pg, w) ↔ x.type = .FD_PIPE ∧ x.pipe = pg ∧ x.writable = w := by
  by_cases hx : x.type = .FD_PIPE <;> simp [File.ends, hx]

theorem Inv.isOpen_iff (h : Inv s) (hq : Quiet s) {pg : Nat} (hlive : s.live pg = true) (w : Bool) :
    (s.pipe pg).isOpen w = true ↔ ∃ f, s.isEnd f pg w := by
  have hused := h.pipes.ends.used (pg, w)
  simp only [hlive, true_and, false_or] at hused
  rw [hused]
  constructor
  · rintro ⟨f | p, ho⟩
    · have hend := ends_eq_some.mp ho
      exact ⟨f, h.files.typed f (by simp [hend.1]), hend⟩
    · rw [State.ends, hq p] at ho
      cases ho
  · rintro ⟨f, -, hend⟩
    exact ⟨.inl f, ends_eq_some.mpr hend⟩

theorem Inv.exact (h : Inv s) (hq : Quiet s) : Exact s := by
  have hslot : ∀ p fd, s.holder (p, .inl fd) = s.ofile p fd := by
    intro p fd
    simp [State.holder, hold, hq p, Pc.pending]
  have hhand : ∀ p b, s.holder (p, .inr b) = none := by
    intro p b
    cases b <;> simp [State.holder, hold, hq p, Pc.first, Pc.second]
  refine ⟨fun f => ?_, fun f hf => ⟨?_, fun p fd hfd => ?_⟩, fun pg hlive => h.isOpen_iff hq hlive false,
    fun pg hlive => h.isOpen_iff hq hlive true, fun pg => ⟨h.pipes.count pg, fun hlive => ?_⟩⟩
  · refine (h.files.refs f).trans ?_
    refine (Finset.card_bij (fun x _ => (x.1, .inl x.2)) (fun x hx => ?_) (fun x _ y _ he => ?_)
      (fun x hx => ?_)).symm
    · simpa [hslot] using hx
    · simpa [Prod.ext_iff] using he
    · obtain ⟨p, fd | b⟩ := x
      · exact ⟨(p, fd), by simpa [hslot] using hx, rfl⟩
      · simp [hhand] at hx
  · by_contra hne
    have := h.files.typed f hne
    omega
  · exact h.files.refs.unowned hf (p, .inl fd) ((hslot p fd).trans hfd)
  · -- a live pipe with both ends closed would be about to be freed
    by_contra hclosed
    simp only [not_or, Bool.not_eq_true] at hclosed
    obtain hfalse | ⟨p, hp⟩ := (h.pipes.shut.used pg).mp ⟨hlive, hclosed⟩
    · exact hfalse
    · rw [hq p] at hp
      cases hp

theorem kfrees_filealloc {s₁ : State n} (h : filealloc s = some (f, s₁)) : s₁.kfrees = s.kfrees := by
  rw [(filealloc_some h).2]
  rfl

theorem kfrees_fdalloc {s₁ : State n} (h : fdalloc s p f = some (fd, s₁)) : s₁.kfrees = s.kfrees := by
  rw [(fdalloc_some h).2]
  rfl

theorem kfrees_filedup : (filedup s f).kfrees = s.kfrees := by
  unfold filedup
  split <;> rfl

theorem kfrees_fileclose : (fileclose s p f k).kfrees = s.kfrees := by
  unfold fileclose
  split
  · rfl
  · split
    · rfl
    · dsimp only
      split <;> rfl

theorem kfrees_pipeclose {pg : Nat} {w : Bool} : (pipeclose s p pg w k).kfrees = s.kfrees := by
  unfold pipeclose
  dsimp only
  split <;> split <;> rfl

theorem kfrees_step {page : Option Nat} (hs : step s p page = some s') :
    s'.kfrees = s.kfrees ∨ ∃ pg k, s.pc p = .kfree pg k ∧ s' = (kfree s pg).goto p k.pc := by
  cases hpc : s.pc p <;> simp only [step, hpc] at hs
  case kfree pg k =>
    cases hs
    exact .inr ⟨pg, k, rfl, rfl⟩
  case user => cases hs
  case openSet =>
    cases hs
    exact .inl rfl
  case dup f fd =>
    cases hs
    exact .inl kfrees_filedup
  case close f k =>
    cases hs
    exact .inl kfrees_fileclose
  case pipeclose =>
    cases hs
    exact .inl kfrees_pipeclose
  case openAlloc | pipeAlloc0 | pipeAlloc1 =>
    split at hs <;> cases hs
    · next hf =>
      have hsame := kfrees_filealloc hf
      exact .inl hsame
    · exact .inl rfl
  case openFd | pipeFd0 | pipeFd1 =>
    split at hs <;> cases hs
    · next hfd =>
      have hsame := kfrees_fdalloc hfd
      exact .inl hsame
    · exact .inl rfl
  case pipeKalloc =>
    split at hs
    · split at hs <;> cases hs
      exact .inl rfl
    · cases hs
      exact .inl rfl
  case forkCopy => split at hs <;> cases hs <;> exact .inl rfl
  case forkDup =>
    split at hs
    · split at hs <;> cases hs
      · exact .inl kfrees_filedup
      · exact .inl rfl
    · cases hs
      exact .inl rfl
  case exitFd =>
    split at hs
    · split at hs <;> cases hs <;> exact .inl rfl
    · cases hs
      exact .inl rfl
  case exitClear =>
    cases hs
    exact .inl rfl

theorem kfrees_call {c : Call n} (hs : call s p c = some s') : s'.kfrees = s.kfrees := by
  cases c <;> simp only [call] at hs
  case «open» | close | exit | wait => split at hs <;> cases hs <;> rfl
  case dup =>
    split at hs
    · split at hs <;> cases hs
      · next hfd =>
        have hsame := kfrees_fdalloc hfd
        exact hsame
      · rfl
    · cases hs
      rfl
  case pipe =>
    cases hs
    rfl
  case fork =>
    split at hs
    · split at hs <;> cases hs
      rfl
    · cases hs
      rfl

theorem Inv.freesClosed (h : Inv s) (a : Act n) : FreesClosed s a := by
  intro s' hs pg hpg
  cases a with
  | step p page =>
    simp only [next] at hs
    split at hs
    · cases hs
    · rcases kfrees_step hs with he | ⟨pg', k, hpc, rfl⟩
      · exact absurd (congrFun he pg) hpg
      · obtain ⟨hlive, hclosed⟩ := h.pipes.shut.in_use (o := p) (r := pg') (by rw [hpc]; rfl)
        obtain rfl : pg = pg' := by
          by_contra hne
          exact hpg (by simp [State.goto, kfree, hne])
        exact ⟨by simp [State.goto, kfree], hlive, by simp [State.goto, kfree], hclosed⟩
  | call p c =>
    simp only [next] at hs
    split at hs
    · exact absurd (congrFun (kfrees_call hs) pg) hpg
    · cases hs

/-- Along every run the counts are exact between calls, and a pipe is freed once, when both ends are closed. -/
theorem file_refs_exact {p : Fin n} {tr : List (State n × Act n)} (hrun : Path (Next next) (init p) tr s) :
    Along (fun s => Quiet s → Exact s) tr s ∧ Meets FreesClosed tr := by
  have hall := along_of_all_steps inv_next hrun (inv_init p)
  exact ⟨hall.mono fun s h => h.exact, fun x hx => (hall.1 x hx).freesClosed x.2⟩

/-- A process makes a pipe, duplicates its read end, and closes all three descriptors. -/
def pipeDupClose : List (Act 1) :=
  [.call 0 .pipe, .step 0 none, .step 0 none, .step 0 (some 7), .step 0 none, .step 0 none, .call 0 (.dup 0),
    .step 0 none, .call 0 (.close 0), .step 0 none, .call 0 (.close 1), .step 0 none, .step 0 none,
    .call 0 (.close 2), .step 0 none, .step 0 none, .step 0 none]

theorem file_refs_exact_pipe : ∃ s, follow next (init 0) pipeDupClose = some s ∧ s.kfrees 7 = 1 ∧
    (∃ x ∈ visited next (init 0) pipeDupClose, Quiet x.1 ∧ (x.1.file ⟨0, by decide⟩).ref = 2 ∧ Exact x.1) ∧ Exact s := by
  have hrun : (follow next (init 0) pipeDupClose).map (fun s => (s.kfrees 7, s.pc 0)) = some (1, .user) := by
    decide +kernel
  have htwo : ∃ x ∈ visited next (init 0) pipeDupClose, x.1.pc 0 = .user ∧ (x.1.file ⟨0, by decide⟩).ref = 2 := by
    decide +kernel
  obtain ⟨s, hs, hp⟩ := Option.map_eq_some_iff.mp hrun
  simp only [Prod.mk.injEq] at hp
  have hquiet : ∀ t : State 1, t.pc 0 = .user → Quiet t := fun t ht p => by
    rw [Subsingleton.elim p 0]
    exact ht
  obtain ⟨hexact, -⟩ := file_refs_exact (path_visited hs).1
  obtain ⟨x, hx, hpc, href⟩ := htwo
  exact ⟨s, hs, hp.1, ⟨x, hx, hquiet _ hpc, href, hexact.1 x hx (hquiet _ hpc)⟩, hexact.2 (hquiet _ hp.2)⟩

/-- `filedup` and `fileclose` do not panic. -/
theorem never_panics {p : Fin n} {tr : List (State n × Act n)} (hrun : Path (Next next) (init p) tr s) :
    Along (fun s => s.panicked = false) tr s :=
  (along_of_all_steps inv_next hrun (inv_init p)).mono fun _ h => h.calm

theorem never_panics_pipe : ∃ s, follow next (init 0) pipeDupClose = some s ∧ s.panicked = false := by
  have hrun : (follow next (init 0) pipeDupClose).isSome := by decide +kernel
  obtain ⟨s, hs⟩ := Option.isSome_iff_exists.mp hrun
  exact ⟨s, hs, (never_panics (path_visited hs).1).2⟩

end Xv6.File
