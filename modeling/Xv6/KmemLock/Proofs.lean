import Xv6.KmemLock.Code

/-!
# When the allocator's lock excludes

The code of each function is checked once against a small typing of lock depth and phase. The
typing is kept by every access, and the discipline follows from it.
-/

open Xv6.Run Function

namespace Xv6.KmemLock

/-! ## The typing -/

/-- An access that neither tests nor changes the lock or its flag. -/
def Op.isPlain : Op → Bool
  | .loadRefc _ | .addRefc _ _ | .firstRefc | .loadHead | .popHead | .linkPage _ | .pushPage
  | .addCnt _ | .loadCnt => true
  | _ => false

/-- `Typed k d ph code`: code that may run at depth `d` in phase `ph`, in a call of `kfree` if
`k`. A nested call runs only while the flag is down. -/
inductive Typed (k : Bool) : Nat → Phase → List Op → Prop
  | done : Typed k 0 .out []
  | enter {c : List Op} : Typed k 1 .out c → Typed k 0 .out (.lockTest :: c)
  | acquire {c : List Op} : Typed k 1 .out c → Typed k 0 .out (.acquire :: c)
  | enterNested {d : Nat} {c : List Op} :
      Typed k (d + 2) .cleared c → Typed k (d + 1) .cleared (.lockTest :: c)
  | leave : Typed k 1 .out [.unlockTest]
  | leaveNested {d : Nat} {c : List Op} :
      Typed k (d + 1) .cleared c → Typed k (d + 2) .cleared (.unlockTest :: c)
  | release : Typed k 0 .out [.release]
  | save {c : List Op} : k = true → Typed k 1 .saved c → Typed k 1 .out (.saveFlag :: c)
  | clear {c : List Op} : Typed k 1 .cleared c → Typed k 1 .saved (.clearFlag :: c)
  | restore {c : List Op} : Typed k 1 .out c → Typed k 1 .cleared (.restoreFlag :: c)
  | plain {d : Nat} {ph : Phase} {op : Op} {c : List Op} :
      op.isPlain = true → Typed k (d + 1) ph c → Typed k (d + 1) ph (op :: c)
  | whenPos {d : Nat} {ph : Phase} {b c : List Op} :
      Typed k (d + 1) ph (b ++ c) → Typed k (d + 1) ph c → Typed k (d + 1) ph (.whenPos b :: c)
  | whenZero {d : Nat} {ph : Phase} {b c : List Op} :
      Typed k (d + 1) ph (b ++ c) → Typed k (d + 1) ph c → Typed k (d + 1) ph (.whenZero b :: c)
  | whenPage {d : Nat} {ph : Phase} {b c : List Op} :
      Typed k (d + 1) ph (b ++ c) → Typed k (d + 1) ph c → Typed k (d + 1) ph (.whenPage b :: c)

theorem Typed.depth_pos {k : Bool} {d : Nat} {ph : Phase} {c : List Op} (h : Typed k d ph c)
    (hp : ph ≠ .out) : 0 < d := by
  cases h <;> simp_all

theorem typed_simple {k : Bool} (op : Op) (h : op.isPlain = true) :
    Typed k 0 .out [.lockTest, op, .unlockTest] :=
  .enter (.plain h .leave)

theorem typed_nested {k : Bool} (op : Op) {c : List Op} (h : op.isPlain = true)
    (hc : Typed k 1 .cleared c) : Typed k 1 .cleared ([.lockTest, op, .unlockTest] ++ c) :=
  .enterNested (.plain h (.leaveNested hc))

theorem typed_kalloc {k : Bool} : Typed k 0 .out kalloc := by
  have htail : Typed k 1 .out [.addCnt (-1), .unlockTest] := .plain rfl .leave
  exact .enter (.plain rfl (.whenPage (.plain rfl (.plain rfl htail)) htail))

theorem typed_kfree (pg : Nat) : Typed true 0 .out (kfree pg) := by
  have htail : Typed true 1 .cleared [.restoreFlag, .unlockTest] := .restore .leave
  have hpush : Typed true 1 .cleared
      [.whenZero [.linkPage pg, .pushPage, .addCnt 1], .restoreFlag, .unlockTest] :=
    .whenZero (.plain rfl (.plain rfl (.plain rfl htail))) htail
  have hget := typed_nested (.loadRefc pg) rfl hpush
  have hdecr := typed_nested (.addRefc pg (-1)) rfl hget
  exact .enter (.save rfl (.clear (typed_nested _ rfl (.whenPos hdecr hget))))

theorem typed_code (f : Fn) : Typed f.isKfree 0 .out f.code := by
  cases f with
  | kalloc => exact typed_kalloc
  | kfree pg => exact typed_kfree pg
  | incr_refc pg | decr_refc pg | get_refc pg | countfp => exact typed_simple _ rfl

/-! ## The invariant -/

variable {ι : Type}

/-- Past the entry test and not yet through `release`. -/
def Busy (c : Cpu) : Prop := 0 < c.depth ∨ ∃ rest, c.code = .release :: rest

structure Inv (s : Machine ι) : Prop where
  calm : s.panicked = false
  typed : ∀ i, Typed (s.cpu i).call.isKfree (s.cpu i).depth (s.cpu i).phase (s.cpu i).code
  saved : ∀ i, (s.cpu i).phase ≠ .out → (s.cpu i).islock = true ∧ (s.cpu i).call.isKfree = true
  holder : ∀ i, s.lock = some i ↔ Busy (s.cpu i)
  flag : s.use_lock = true ↔ ∀ i, (s.cpu i).phase ≠ .cleared

theorem inv_kinit2 {s : Machine ι} (h : AfterKinit2 s) : Inv s := by
  obtain ⟨hflag, hlock, hcalm, hidle⟩ := h
  refine ⟨hcalm, ?_, ?_, ?_, ?_⟩
  · intro i
    obtain ⟨hc, hd, hp⟩ := hidle i
    rw [hc, hd, hp]
    exact .done
  · intro i hp
    exact absurd (hidle i).2.2 hp
  · intro i
    simp [hlock, Busy, hidle i]
  · simp [hflag, hidle]

theorem Inv.holder_of_phase {s : Machine ι} (h : Inv s) {i : ι} (hp : (s.cpu i).phase ≠ .out) :
    s.lock = some i :=
  (h.holder i).mpr (.inl ((h.typed i).depth_pos hp))

theorem Inv.phase_out {s : Machine ι} (h : Inv s) {i j : ι} (hi : s.lock = some i) (hne : j ≠ i) :
    (s.cpu j).phase = .out := by
  by_contra hp
  have := h.holder_of_phase hp
  rw [hi] at this
  exact hne (Option.some.inj this).symm

theorem Inv.flag_of_holder {s : Machine ι} (h : Inv s) {i : ι} (hi : s.lock = some i) :
    s.use_lock = true ↔ (s.cpu i).phase ≠ .cleared := by
  rw [h.flag]
  constructor
  · intro hall; exact hall i
  · intro hp j
    by_cases hj : j = i
    · rw [hj]; exact hp
    · rw [h.phase_out hi hj]; decide

theorem Inv.flag_down {s : Machine ι} (h : Inv s) {i : ι} (hp : (s.cpu i).phase = .cleared) :
    s.use_lock = false := by
  have := h.flag_of_holder (h.holder_of_phase (i := i) (by rw [hp]; decide))
  rw [hp] at this
  simpa using this

theorem inv_discipline {s : Machine ι} (h : Inv s) : Discipline s := by
  refine ⟨?_, ?_, ?_⟩
  · intro i j hi hj
    have h1 := (h.holder i).mpr (.inl hi)
    have h2 := (h.holder j).mpr (.inl hj)
    rw [h1] at h2
    exact Option.some.inj h2
  · intro i rest hc
    exact (h.holder i).mpr (.inr ⟨rest, hc⟩)
  · intro hno
    rw [h.flag]
    intro i hp
    have hne : (s.cpu i).phase ≠ .out := by rw [hp]; decide
    exact hno i ⟨(h.saved i hne).2, (h.typed i).depth_pos hne⟩

/-! ## One access -/

variable [DecidableEq ι]

theorem inv_move {s s' : Machine ι} {i : ι} {c : Cpu} (h : Inv s)
    (hcpu : s'.cpu = update s.cpu i c) (hcalm : s'.panicked = false)
    (ht : Typed c.call.isKfree c.depth c.phase c.code)
    (hs : c.phase ≠ .out → c.islock = true ∧ c.call.isKfree = true)
    (hl : ∀ j, s'.lock = some j ↔ Busy (s'.cpu j))
    (hf : s'.use_lock = true ↔ ∀ j, (s'.cpu j).phase ≠ .cleared) : Inv s' := by
  refine ⟨hcalm, ?_, ?_, hl, hf⟩
  · intro j
    rw [hcpu]
    by_cases hj : j = i
    · subst hj; simpa using ht
    · simpa [hj] using h.typed j
  · intro j
    rw [hcpu]
    by_cases hj : j = i
    · subst hj; simpa using hs
    · simpa [hj] using h.saved j

theorem inv_steady {s s' : Machine ι} {i : ι} {c : Cpu} (h : Inv s)
    (hcpu : s'.cpu = update s.cpu i c) (hcalm : s'.panicked = s.panicked)
    (hflag : s'.use_lock = s.use_lock) (ht : Typed c.call.isKfree c.depth c.phase c.code)
    (hphase : c.phase = (s.cpu i).phase) (hislock : c.islock = (s.cpu i).islock)
    (hcall : c.call = (s.cpu i).call) (hl : ∀ j, s'.lock = some j ↔ Busy (s'.cpu j)) : Inv s' := by
  refine inv_move h hcpu (hcalm.trans h.calm) ht ?_ hl ?_
  · rw [hphase, hislock, hcall]; exact h.saved i
  · rw [hflag, hcpu, h.flag]
    apply forall_congr'
    intro j
    by_cases hj : j = i
    · subst hj; simp [hphase]
    · simp [hj]

theorem inv_quiet {s s' : Machine ι} {i : ι} {c : Cpu} (h : Inv s)
    (hcpu : s'.cpu = update s.cpu i c) (hcalm : s'.panicked = s.panicked)
    (hflag : s'.use_lock = s.use_lock) (ht : Typed c.call.isKfree c.depth c.phase c.code)
    (hphase : c.phase = (s.cpu i).phase) (hislock : c.islock = (s.cpu i).islock)
    (hcall : c.call = (s.cpu i).call) (hlock : s'.lock = s.lock)
    (hbusy : Busy c ↔ Busy (s.cpu i)) : Inv s' := by
  refine inv_steady h hcpu hcalm hflag ht hphase hislock hcall ?_
  intro j
  rw [hlock, hcpu]
  by_cases hj : j = i
  · subst hj; simpa [hbusy] using h.holder j
  · simpa [hj] using h.holder j

theorem inv_inside {s s' : Machine ι} {i : ι} {c : Cpu} (h : Inv s)
    (hcpu : s'.cpu = update s.cpu i c) (hcalm : s'.panicked = s.panicked)
    (hflag : s'.use_lock = s.use_lock) (hlock : s'.lock = s.lock)
    (ht : Typed c.call.isKfree c.depth c.phase c.code)
    (hphase : c.phase = (s.cpu i).phase) (hislock : c.islock = (s.cpu i).islock)
    (hcall : c.call = (s.cpu i).call) (hold : 0 < (s.cpu i).depth) (hnew : 0 < c.depth) :
    Inv s' :=
  inv_quiet h hcpu hcalm hflag ht hphase hislock hcall hlock
    ⟨fun _ => .inl hold, fun _ => .inl hnew⟩

theorem not_busy {c : Cpu} (op : Op) {rest : List Op} (hd : c.depth = 0) (hcode : c.code = op :: rest)
    (hop : op ≠ .release) : ¬ Busy c := by
  rintro (h | ⟨r, h⟩)
  · omega
  · rw [hcode] at h
    exact hop (List.cons.inj h).1

theorem inv_enter {s s' : Machine ι} {i : ι} {rest : List Op} (h : Inv s)
    (hok : EntryOutsideWindow s (.exec i)) (hcode : (s.cpu i).code = .lockTest :: rest)
    (hd : (s.cpu i).depth = 0) (hp : (s.cpu i).phase = .out)
    (ht : Typed (s.cpu i).call.isKfree 1 .out rest)
    (hs : execOp s i .lockTest rest = some s') : Inv s' := by
  have hup : s.use_lock = true := by
    rw [h.flag]
    intro j
    by_cases hj : j = i
    · rw [hj, hp]; decide
    · exact hok rest hd hcode j hj
  simp only [execOp, hup, if_true, Option.some.injEq] at hs
  subst hs
  refine inv_quiet h rfl rfl rfl ?_ rfl rfl rfl rfl ?_
  · simp only [hd, hp]; exact .acquire ht
  · have h1 := not_busy _ hd hcode (by simp)
    simp only [h1, iff_false]
    exact not_busy .acquire hd rfl (by simp)

theorem inv_acquire {s s' : Machine ι} {i : ι} {rest : List Op} (h : Inv s)
    (hcode : (s.cpu i).code = .acquire :: rest) (hd : (s.cpu i).depth = 0)
    (hp : (s.cpu i).phase = .out) (ht : Typed (s.cpu i).call.isKfree 1 .out rest)
    (hs : execOp s i .acquire rest = some s') : Inv s' := by
  have hfree : ∀ j, s.lock = some j → j ≠ i := by
    rintro j hj rfl
    exact not_busy _ hd hcode (by simp) ((h.holder j).mp hj)
  cases hl : s.lock with
  | some j => simp [execOp, hl, hfree j hl] at hs
  | none =>
    simp only [execOp, hl, Option.some.injEq] at hs
    subst hs
    refine inv_steady h rfl rfl rfl ?_ rfl rfl rfl ?_
    · simp only [hd, hp]; exact ht
    · intro j
      by_cases hj : j = i
      · subst hj; simp [Machine.setCpu, Busy]
      · have := h.holder j
        rw [hl] at this
        simpa [Machine.setCpu, hj, Ne.symm hj] using this

theorem inv_leave {s s' : Machine ι} {i : ι} (h : Inv s) (hd : (s.cpu i).depth = 1)
    (hp : (s.cpu i).phase = .out) (hs : execOp s i .unlockTest [] = some s') : Inv s' := by
  have hbusy : Busy (s.cpu i) := .inl (by omega)
  have hup : s.use_lock = true := by
    rw [h.flag_of_holder ((h.holder i).mpr hbusy), hp]; decide
  simp only [execOp, hup, if_true, Option.some.injEq] at hs
  subst hs
  refine inv_quiet h rfl rfl rfl ?_ rfl rfl rfl rfl ?_
  · simp only [hd, hp]; exact .release
  · exact ⟨fun _ => hbusy, fun _ => .inr ⟨[], rfl⟩⟩

theorem inv_release {s s' : Machine ι} {i : ι} (h : Inv s) (hcode : (s.cpu i).code = [.release])
    (hd : (s.cpu i).depth = 0) (hp : (s.cpu i).phase = .out)
    (hs : execOp s i .release [] = some s') : Inv s' := by
  have hheld : s.lock = some i := (h.holder i).mpr (.inr ⟨[], hcode⟩)
  simp only [execOp, hheld, if_true, Option.some.injEq] at hs
  subst hs
  refine inv_steady h rfl rfl rfl ?_ rfl rfl rfl ?_
  · simp only [hd, hp]; exact .done
  · intro j
    by_cases hj : j = i
    · subst hj; simp [Machine.setCpu, Busy, hd]
    · have hno : ¬ Busy (s.cpu j) := by
        rw [← h.holder j, hheld]
        simp [Ne.symm hj]
      simpa [Machine.setCpu, hj] using hno

theorem inv_flag {s s' : Machine ι} {i : ι} {c : Cpu} (h : Inv s)
    (hcpu : s'.cpu = update s.cpu i c) (hcalm : s'.panicked = s.panicked)
    (hlock : s'.lock = s.lock) (hd : 0 < (s.cpu i).depth) (hd' : 0 < c.depth)
    (ht : Typed c.call.isKfree c.depth c.phase c.code)
    (hs : c.phase ≠ .out → c.islock = true ∧ c.call.isKfree = true)
    (hflag : s'.use_lock = true ↔ c.phase ≠ .cleared) : Inv s' := by
  have hheld : s.lock = some i := (h.holder i).mpr (.inl hd)
  refine inv_move h hcpu (hcalm.trans h.calm) ht hs ?_ ?_
  · intro j
    rw [hlock, hcpu]
    by_cases hj : j = i
    · subst hj; simp [Busy, hd', hheld]
    · simpa [hj] using h.holder j
  · rw [hflag, hcpu]
    constructor
    · intro hc j
      by_cases hj : j = i
      · subst hj; simpa using hc
      · simp [hj, h.phase_out hheld hj]
    · intro hall
      simpa using hall i

theorem inv_plain {s s' : Machine ι} {i : ι} {op : Op} {rest : List Op} (h : Inv s)
    (hop : op.isPlain = true) (hd : 0 < (s.cpu i).depth)
    (ht : Typed (s.cpu i).call.isKfree (s.cpu i).depth (s.cpu i).phase rest)
    (hs : execOp s i op rest = some s') : Inv s' := by
  cases op <;> simp only [Op.isPlain, Bool.false_eq_true] at hop <;>
    simp only [execOp, Option.some.injEq] at hs <;> subst hs <;>
    exact inv_inside h rfl rfl rfl rfl ht rfl rfl rfl hd hd

theorem inv_branch {s : Machine ι} {i : ι} {p : Prop} [Decidable p] {body rest : List Op} (h : Inv s)
    (hd : 0 < (s.cpu i).depth)
    (hb : Typed (s.cpu i).call.isKfree (s.cpu i).depth (s.cpu i).phase (body ++ rest))
    (hc : Typed (s.cpu i).call.isKfree (s.cpu i).depth (s.cpu i).phase rest) :
    Inv (s.setCpu i { s.cpu i with code := if p then body ++ rest else rest }) := by
  refine inv_inside h rfl rfl rfl rfl ?_ rfl rfl rfl hd hd
  by_cases hp : p
  · simpa [hp] using hb
  · simpa [hp] using hc

theorem inv_exec {s s' : Machine ι} {i : ι} {op : Op} {rest : List Op} (h : Inv s)
    (hok : EntryOutsideWindow s (.exec i)) (hcode : (s.cpu i).code = op :: rest)
    (hs : execOp s i op rest = some s') : Inv s' := by
  have ht := h.typed i
  rw [hcode] at ht
  generalize hk : (s.cpu i).call.isKfree = k at ht
  generalize hd : (s.cpu i).depth = d at ht
  generalize hp : (s.cpu i).phase = ph at ht
  cases ht with
  | enter hc => exact inv_enter h hok hcode hd hp (hk ▸ hc) hs
  | acquire hc => exact inv_acquire h hcode hd hp (hk ▸ hc) hs
  | leave => exact inv_leave h hd hp hs
  | release => exact inv_release h hcode hd hp hs
  | enterNested hc =>
    simp only [execOp, h.flag_down hp, Bool.false_eq_true, if_false, Option.some.injEq] at hs
    subst hs
    exact inv_inside h rfl rfl rfl rfl (by simpa [hd, hp, hk] using hc) rfl rfl rfl (by omega)
      (Nat.succ_pos _)
  | leaveNested hc =>
    simp only [execOp, h.flag_down hp, Bool.false_eq_true, if_false, Option.some.injEq] at hs
    subst hs
    exact inv_inside h rfl rfl rfl rfl (by simpa [hd, hp, hk] using hc) rfl rfl rfl (by omega)
      (by simp [hd])
  | save hkf hc =>
    have hup : s.use_lock = true := by
      rw [h.flag_of_holder ((h.holder i).mpr (.inl (by omega))), hp]; decide
    simp only [execOp, Option.some.injEq] at hs
    subst hs
    refine inv_flag h rfl rfl rfl (by omega) (by simp [hd]) ?_ ?_ ?_
    · simpa [hd, hk] using hc
    · intro _; exact ⟨hup, hk.trans hkf⟩
    · simp [Machine.setCpu, hup]
  | clear hc =>
    simp only [execOp, Option.some.injEq] at hs
    subst hs
    refine inv_flag h rfl rfl rfl (by omega) (by simp [hd]) ?_ ?_ ?_
    · simpa [hd, hk] using hc
    · intro _; exact h.saved i (by rw [hp]; decide)
    · simp [Machine.setCpu]
  | restore hc =>
    simp only [execOp, Option.some.injEq] at hs
    subst hs
    refine inv_flag h rfl rfl rfl (by omega) (by simp [hd]) ?_ ?_ ?_
    · simpa [hd, hk] using hc
    · intro hne; exact absurd rfl hne
    · simp [Machine.setCpu, (h.saved i (by rw [hp]; decide)).1]
  | plain hop hc => exact inv_plain h hop (by omega) (by rw [hk, hd, hp]; exact hc) hs
  | whenPos hb hc | whenZero hb hc | whenPage hb hc =>
    simp only [execOp, Option.some.injEq] at hs
    subst hs
    exact inv_branch h (by omega) (by rw [hk, hd, hp]; exact hb) (by rw [hk, hd, hp]; exact hc)

theorem inv_call {s : Machine ι} {i : ι} (f : Fn) (h : Inv s) (hcode : (s.cpu i).code = []) :
    Inv (s.setCpu i { s.cpu i with call := f, code := f.code }) := by
  have ht := h.typed i
  rw [hcode] at ht
  generalize hd : (s.cpu i).depth = d at ht
  generalize hp : (s.cpu i).phase = ph at ht
  cases ht
  refine inv_move h rfl h.calm ?_ ?_ ?_ ?_
  · simpa [hd, hp] using typed_code f
  · intro hne; exact absurd hp hne
  · intro j
    by_cases hj : j = i
    · subst hj
      have hno : s.lock ≠ some j := by
        rw [ne_eq, h.holder j]
        simp [Busy, hd, hcode]
      have hnew : ¬ Busy { s.cpu j with call := f, code := f.code } := by
        cases f <;> exact not_busy .lockTest hd rfl (by simp)
      simpa [Machine.setCpu, hnew] using hno
    · simpa [Machine.setCpu, hj] using h.holder j
  · change s.use_lock = true ↔ _
    rw [h.flag]
    apply forall_congr'
    intro j
    by_cases hj : j = i
    · subst hj; simp [Machine.setCpu]
    · simp [Machine.setCpu, hj]

theorem next_cases {s s' : Machine ι} {a : Act ι} (h : next s a = some s') :
    (∃ i f, a = .call i f ∧ (s.cpu i).code = [] ∧
      s' = s.setCpu i { s.cpu i with call := f, code := f.code }) ∨
    (∃ i op rest, a = .exec i ∧ (s.cpu i).code = op :: rest ∧ execOp s i op rest = some s') := by
  unfold next at h
  split at h
  · cases h
  · cases a with
    | call i f =>
      left
      dsimp only at h
      split at h
      · next hc => exact ⟨i, f, rfl, hc, (Option.some.inj h).symm⟩
      · cases h
    | exec i =>
      right
      dsimp only at h
      split at h
      · cases h
      · next op rest hc => exact ⟨i, op, rest, rfl, hc, h⟩

/-! ## Whole runs -/

theorem inv_next {s s' : Machine ι} {a : Act ι} (h : Inv s) (hok : EntryOutsideWindow s a)
    (hs : Next next s a s') : Inv s' := by
  obtain ⟨i, f, rfl, hc, rfl⟩ | ⟨i, op, rest, rfl, hc, he⟩ := next_cases hs
  · exact inv_call f h hc
  · exact inv_exec h hok hc he

/-- An entry test inside the window lets a second CPU into a body. -/
theorem window_breaks {s s' : Machine ι} {a : Act ι} (h : Inv s) (hok : ¬ EntryOutsideWindow s a)
    (hs : Next next s a s') : ¬ Discipline s' := by
  obtain ⟨i, f, rfl, hc, rfl⟩ | ⟨i, op, rest, rfl, hc, he⟩ := next_cases hs
  · exact absurd trivial hok
  · simp only [EntryOutsideWindow, not_forall, not_not] at hok
    obtain ⟨rest', hd, hcode, j, hji, hj⟩ := hok
    rw [hc] at hcode
    obtain ⟨rfl, rfl⟩ := List.cons.inj hcode
    simp only [execOp, h.flag_down hj, Bool.false_eq_true, if_false, Option.some.injEq] at he
    subst he
    intro hdis
    have hjd : 0 < (s.cpu j).depth := (h.typed j).depth_pos (by rw [hj]; decide)
    have := hdis.1 i j (by simp [Machine.setCpu]) (by simpa [Machine.setCpu, hji] using hjd)
    exact hji this.symm

/-- Along a run after `kinit2` the allocator's lock discipline holds in every state exactly when
no entry test falls into another CPU's window. -/
theorem kmem_discipline_iff (s s' : Machine ι) (tr : List (Machine ι × Act ι))
    (h0 : AfterKinit2 s) (hrun : Path (Next next) s tr s') :
    Along Discipline tr s' ↔ Meets EntryOutsideWindow tr :=
  along_iff_meets (fun _ h => inv_discipline h) (fun _ _ _ h hok hs => inv_next h hok hs)
    (fun _ _ _ h hok hs => window_breaks h hok hs) hrun (inv_kinit2 h0)

/-- Two CPUs, one page on the free list and one in use. -/
def twoCpus : Machine Bool where
  use_lock := true
  lock := none
  freelist := 0x400
  link := fun _ => 0
  refc_cnt := fun pg => if pg = 0x401 then 1 else 0
  freecnt := 1
  cpu := fun _ =>
    { call := .countfp, code := [], depth := 0, phase := .out, islock := false, ret := 0, r := 0 }
  panicked := false

theorem twoCpus_init : AfterKinit2 twoCpus := ⟨rfl, rfl, rfl, fun _ => ⟨rfl, rfl, rfl⟩⟩

/-- CPU 1 starts `kalloc`. -/
theorem kmem_discipline_kalloc :
    AfterKinit2 twoCpus ∧
    (Along Discipline [(twoCpus, Act.call true .kalloc)]
      (twoCpus.setCpu true { twoCpus.cpu true with call := .kalloc, code := kalloc }) ↔
      Meets EntryOutsideWindow [(twoCpus, Act.call true .kalloc)]) :=
  ⟨twoCpus_init, kmem_discipline_iff _ _ _ twoCpus_init (.snoc (.nil _) rfl)⟩

/-- CPU 0 frees a page, and after it has cleared the flag CPU 1 walks into `kalloc`. -/
def raceActs : List (Act Bool) :=
  [.call false (.kfree 0x401), .exec false, .exec false, .exec false, .exec false,
    .call true .kalloc, .exec true]

/-- Both CPUs are in a body, so the discipline does not hold along every run. -/
theorem kmem_discipline_fails :
    ¬ ∀ (s s' : Machine Bool) (tr : List (Machine Bool × Act Bool)),
      AfterKinit2 s → Path (Next next) s tr s' → Along Discipline tr s' := by
  intro hall
  have hlast : (follow next twoCpus raceActs).map (fun s => ((s.cpu false).depth, (s.cpu true).depth)) =
      some (1, 1) := rfl
  obtain ⟨s', hs', hdepth⟩ := Option.map_eq_some_iff.mp hlast
  obtain ⟨h0, h1⟩ := Prod.mk.inj hdepth
  obtain ⟨tr, hrun, -⟩ := path_of_follow hs'
  have hdis := (hall _ _ _ twoCpus_init hrun).2
  have := hdis.1 false true (by omega) (by omega)
  cases this

end Xv6.KmemLock
