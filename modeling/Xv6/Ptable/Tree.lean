import Xv6.Ptable.Moves

/-!
# The table is a family

Every step of the process table is a step of the family that the table holds, or leaves it as it is, as
long as the pids have not wrapped.
-/

open Xv6.Run Function

namespace Xv6.Ptable

variable {s s' : State} {i k : Slot}

/-- The family in the table. -/
def State.family (s : State) : Family Slot (BitVec 32) where
  stage k := (s.proc k).state.stage
  pid k := (s.proc k).pid
  parent k := (s.proc k).parent
  making i := (s.pc i).making
  root := match s.boot with
    | .start => none
    | _ => s.initproc
  boot := match s.boot with
    | .embryo p => some p
    | _ => none
  used := {p | 1 ≤ p.toNat ∧ p.toNat < s.nextpid.toNat}
  forked := s.forked
  exited := s.exited
  reaped := s.reaped

/-! ## The family of a changed table -/

theorem family_proc {proc : Slot → Proc} {parent : Slot → Option Slot}
    (hstage : ∀ k, (proc k).state.stage = (s.proc k).state.stage) (hpid : ∀ k, (proc k).pid = (s.proc k).pid)
    (hpar : ∀ k, (proc k).parent = parent k) :
    ({ s with proc := proc } : State).family = { s.family with parent := parent } := by
  simp only [State.family, funext hstage, funext hpid, funext hpar]

theorem family_congr {proc : Slot → Proc} (h : ∀ k, SameProc (proc k) (s.proc k)) :
    ({ s with proc := proc } : State).family = s.family :=
  family_proc (fun k => (h k).stage) (fun k => (h k).pid) fun k => (h k).parent

theorem family_set (s : State) (k : Slot) (p : Proc) :
    (s.set k p).family = { s.family with
      stage := update s.family.stage k p.state.stage
      pid := update s.family.pid k p.pid
      parent := update s.family.parent k p.parent } := by
  have hcomp : ∀ {β : Type} (g : Proc → β), (fun l => g (update s.proc k p l)) =
      update (fun l => g (s.proc l)) k (g p) := fun g => by
    funext l
    exact Function.apply_update (fun _ => g) s.proc k p l
  simp only [State.family, State.set, hcomp fun p => p.state.stage, hcomp Proc.pid, hcomp Proc.parent]

theorem family_setState (s : State) (k : Slot) (st : ProcState) :
    (s.setState k st).family = { s.family with stage := update s.family.stage k st.stage } := by
  unfold State.setState
  rw [family_set]
  have hpid : update s.family.pid k (s.proc k).pid = s.family.pid := update_eq_self k _
  have hpar : update s.family.parent k (s.proc k).parent = s.family.parent :=
    update_eq_self k _
  simp only [hpid, hpar]

theorem family_goto (s : State) (i : Slot) (pc : Pc) :
    (s.goto i pc).family = { s.family with making := update s.family.making i pc.making } := by
  have hcomp : (fun l => (update s.pc i pc l).making) =
      update (fun l => (s.pc l).making) i pc.making := by
    funext l
    exact Function.apply_update (fun _ => Pc.making) s.pc i pc l
  simp only [State.family, State.goto, hcomp]

theorem family_goto_same {pc : Pc} (h : pc.making = (s.pc i).making) : (s.goto i pc).family = s.family := by
  rw [family_goto, h]
  have hself : update s.family.making i (s.pc i).making = s.family.making :=
    update_eq_self i _
  rw [hself]

theorem family_set_same {p : Proc} (hstage : p.state.stage = (s.proc k).state.stage)
    (hpid : p.pid = (s.proc k).pid) (hpar : p.parent = (s.proc k).parent) : (s.set k p).family = s.family := by
  have hs : update s.family.stage k (s.proc k).state.stage = s.family.stage :=
    update_eq_self k _
  have hp : update s.family.pid k (s.proc k).pid = s.family.pid := update_eq_self k _
  have hq : update s.family.parent k (s.proc k).parent = s.family.parent :=
    update_eq_self k _
  rw [family_set, hstage, hpid, hpar, hs, hp, hq]

theorem family_exit {proc : Slot → Proc} (hk : ∀ k, Orphaned i s.initproc True (proc k) (s.proc k))
    (hboot : s.family.root = s.initproc) :
    ({ (({ s with proc := proc } : State).setState i .ZOMBIE) with
      exited := s.exited ++ [(s.proc i).pid] } : State).family = { s.family with
      stage := update s.family.stage i .dead
      parent := fun k => if s.family.parent k = some i then s.family.root else s.family.parent k
      exited := s.family.exited ++ [s.family.pid i] } := by
  have hproc : ({ s with proc := proc } : State).family = { s.family with
      parent := fun k => if s.family.parent k = some i then s.family.root else s.family.parent k } := by
    refine family_proc (fun k => (hk k).stage) (fun k => (hk k).pid) fun k => ?_
    rw [hboot]
    split
    · next hp => exact (hk k).orphan trivial hp
    · next hp => exact (hk k).other fun hc => hp hc.2
  have hset := family_setState { s with proc := proc } i .ZOMBIE
  rw [hproc] at hset
  exact congrArg (fun f : Family Slot (BitVec 32) => { f with exited := s.exited ++ [(s.proc i).pid] }) hset

/-! ## Steps -/

theorem family_root {r : Slot} (h : s.family.root = some r) : s.family.root = s.initproc := by
  cases hb : s.boot with
  | start => simp [State.family, hb] at h
  | _ => simp [State.family, hb]

/-- The pids are given out in order. -/
def Counts (s : State) : Prop := 1 ≤ s.nextpid.toNat ∧ s.nextpid.toNat ≤ s.calls + 1

theorem used_insert (h : 1 ≤ s.nextpid.toNat) (hb : s.nextpid.toNat + 1 < 2 ^ 32) :
    {p : BitVec 32 | 1 ≤ p.toNat ∧ p.toNat < (s.nextpid + 1).toNat} =
      insert s.nextpid {p | 1 ≤ p.toNat ∧ p.toNat < s.nextpid.toNat} := by
  ext p
  have hnext : (s.nextpid + 1).toNat = s.nextpid.toNat + 1 := by
    rw [BitVec.toNat_add]
    exact Nat.mod_eq_of_lt hb
  simp only [Set.mem_ofPred_eq, Set.mem_insert_iff, hnext, ← BitVec.toNat_inj]
  omega

theorem family_taken {np : Slot} (hc : Counts s) (hb : s.calls + 2 < 2 ^ 32) :
    (s.taken np).family = { s.family with
      stage := update s.family.stage np .embryo
      pid := update s.family.pid np s.nextpid
      used := insert s.nextpid s.family.used } := by
  have hset := family_set s np { s.proc np with state := .EMBRYO, pid := s.nextpid }
  have hpar : update s.family.parent np (s.proc np).parent = s.family.parent :=
    update_eq_self np _
  simp only [hpar] at hset
  have hused := used_insert hc.1 (by have := hc.2; omega)
  exact (congrArg (fun f : Family Slot (BitVec 32) => { f with
    used := {p | 1 ≤ p.toNat ∧ p.toNat < (s.nextpid + 1).toNat} }) hset).trans (by rw [hused])

/-- The family of the table after a step. -/
def FamilyStep (s s' : State) : Prop := s'.family = s.family ∨ Step s.family s'.family

theorem FamilyStep.of_eq {f : Family Slot (BitVec 32)} (hs : Step s.family f) (h : s'.family = f) :
    FamilyStep s s' := .inr (h ▸ hs)

theorem family_wait (hi : s.family.stage i = .alive) (hm : (s.pc i).making = none) :
    FamilyStep s (wait s i) := by
  have hgoto : ∀ (t : State) (pc : Pc), t.pc = s.pc → pc.making = none → (t.goto i pc).family = t.family :=
    fun t pc ht hpc => family_goto_same (by rw [ht, hpc, hm])
  unfold wait
  split
  · next k hz =>
    obtain ⟨hpar, hk⟩ := zombie_spec hz
    refine .of_eq (.reap i k 0 hi (congrArg ProcState.stage hk) hpar) ?_
    have hf := (hgoto (s.set k { s.proc k with
      state := .UNUSED, pid := 0, parent := none, killed := false }) .run rfl rfl).trans (family_set s k _)
    exact congrArg (fun f : Family Slot (BitVec 32) => { f with
      reaped := s.reaped ++ [((s.proc k).pid, (s.proc i).pid)] }) hf
  · split
    · exact .inl (hgoto s .run rfl rfl)
    · have hset : (s.set i { s.proc i with state := .SLEEPING, chan := some (.proc i) }).family = s.family :=
        family_set_same hi.symm rfl rfl
      exact .inl ((hgoto (s.set i _) .wait rfl rfl).trans hset)

theorem family_kill (s : State) (pid : BitVec 32) : (kill s pid).family = s.family := by
  unfold kill
  dsimp only
  split
  · refine family_set_same ?_ rfl rfl
    unfold Proc.kill
    dsimp only
    split
    · next h => rw [h]; rfl
    · rfl
  · rfl

theorem family_move {a : Act} (hshape : Shape s.family) (hc : Counts s) (hb : s.calls + 2 < 2 ^ 32)
    (h : Move s a s') : FamilyStep s s' := by
  have hfree : ∀ {i}, s.free i = true → s.family.stage i = .alive ∧ s.family.making i = none := by
    intro i hi
    obtain ⟨hrun, hpc⟩ := (free_iff s i).mp hi
    exact ⟨congrArg ProcState.stage hrun, congrArg Pc.making hpc⟩
  have hnew : s.nextpid ∉ s.family.used := fun hmem => Nat.lt_irrefl _ hmem.2
  cases h with
  | turn _ proc hp => exact .inl (family_congr hp)
  | bootAlloc p hboot hun =>
    refine .of_eq (.bootAlloc p s.nextpid (by simp [State.family, hboot])
      (congrArg ProcState.stage (unused_spec hun)) hnew) ?_
    exact congrArg (fun f : Family Slot (BitVec 32) => { f with root := some p, boot := some p })
      (family_taken hc hb)
  | bootRun p hboot =>
    refine .of_eq (.bootRun p (by simp [State.family, hboot])) ?_
    have hroot : s.family.root = s.initproc := by simp [State.family, hboot]
    have hf := congrArg (fun f : Family Slot (BitVec 32) => { f with root := s.initproc, boot := none })
      (family_setState s p .RUNNABLE)
    exact hf.trans (by rw [← hroot]; rfl)
  | forkFull i => exact .inl rfl
  | fork i np hi hun =>
    refine .of_eq (.alloc i np s.nextpid (hfree hi).1 (hfree hi).2
      (congrArg ProcState.stage (unused_spec hun)) hnew) ?_
    rw [family_goto, family_taken hc hb]
    rfl
  | forkOn i ok pc hm => exact .inl (family_goto_same hm)
  | forkFail i np hpc =>
    have hm : s.family.making i = some (np, false) := by
      rcases hpc with hpc | hpc <;> exact congrArg Pc.making hpc
    refine .of_eq (.drop i np hm) ?_
    rw [family_goto, family_setState]
    rfl
  | forkParent i np ok hpc =>
    refine .of_eq (.name i np (congrArg Pc.making hpc)) ?_
    rw [family_goto, family_set]
    have hstage : update s.family.stage np (s.proc np).state.stage = s.family.stage :=
      update_eq_self np _
    have hpid : update s.family.pid np (s.proc np).pid = s.family.pid :=
      update_eq_self np _
    simp only [hstage, hpid]
    rfl
  | forkRun i np ok hpc =>
    refine .of_eq (.born i np (congrArg Pc.making hpc)) ?_
    have hf := family_goto (s.setState np .RUNNABLE) i .run
    rw [family_setState] at hf
    exact congrArg (fun f : Family Slot (BitVec 32) => { f with
      forked := s.forked ++ [((s.proc np).pid, (s.proc i).pid)] }) hf
  | panic i => exact .inl rfl
  | exit i proc hi hroot hk =>
    obtain ⟨r, hr, -⟩ := hshape.rooted i (.inl (hfree hi).1)
    have hboot := family_root hr
    exact .of_eq (.exit i (hfree hi).1 (hfree hi).2 (hboot ▸ hroot)) (family_exit hk hboot)
  | wait _ i proc hp hrun hm =>
    have hf : ({ s with proc := proc } : State).family = s.family := family_congr hp
    have hw : FamilyStep { s with proc := proc } (wait { s with proc := proc } i) :=
      family_wait (congrArg ProcState.stage hrun) hm
    unfold FamilyStep at hw ⊢
    rwa [hf] at hw
  | kill i pid => exact .inl (family_kill s pid)
  | trap i hi =>
    exact .inl (family_set_same (p := { s.proc i with killed := true }) rfl rfl rfl)

/-! ## Runs -/

theorem counts_move {a : Act} (h : Move s a s') :
    (s'.calls = s.calls ∧ s'.nextpid = s.nextpid) ∨
    (s'.calls = s.calls + 1 ∧ (s'.nextpid = s.nextpid ∨ s'.nextpid = s.nextpid + 1)) := by
  cases h with
  | bootAlloc | fork => exact .inr ⟨rfl, .inr rfl⟩
  | forkFull => exact .inr ⟨rfl, .inl rfl⟩
  | wait _ i proc =>
    unfold wait
    split
    · exact .inl ⟨rfl, rfl⟩
    · split <;> exact .inl ⟨rfl, rfl⟩
  | kill i pid =>
    unfold kill
    dsimp only
    split <;> exact .inl ⟨rfl, rfl⟩
  | _ => exact .inl ⟨rfl, rfl⟩

/-- The table holds a family that is in order, until the pids wrap. -/
structure Inv (s : State) : Prop where
  counts : Counts s
  shape : Shape s.family
  history : History s.family

theorem inv_init : Inv init where
  counts := ⟨by decide, by decide⟩
  shape := by
    refine ⟨fun k hk => rfl, fun k hk => absurd rfl hk, fun k l hk => absurd rfl hk, ?_, ?_, ?_, ?_, ?_⟩
    · intro i np b hm
      cases hm
    · intro i j np b c hm
      cases hm
    · intro p hp
      cases hp
    · rintro k (hk | hk) <;> cases hk
    · rintro k (hk | hk) <;> cases hk
  history := by
    refine ⟨?_, ?_, ?_, ?_, ?_, ?_, ?_, ?_, ?_, List.nodup_nil⟩
    · intro k hk
      cases hk
    · intro k hk
      cases hk
    · intro k hk
      cases hk
    · rintro k (hk | hk) <;> cases hk
    · intro c cr hm
      cases hm
    · intro c cr hm
      cases hm
    · intro c hm
      cases hm
    · intro c cr cr' hm
      cases hm
    · intro c q hm
      cases hm

/-- Fewer than `2 ^ 31 - 1` calls of `allocproc` so far. -/
def State.Few (s : State) : Prop := s.calls < 2 ^ 31 - 1

theorem inv_next {a : Act} (h : s.Few → Inv s) (hs : next s a = some s') (hfew : s'.Few) : Inv s' := by
  have hmove := next_move hs
  have hcounts := counts_move hmove
  have hold : Inv s := h (by
    unfold State.Few at *
    rcases hcounts with ⟨hc, -⟩ | ⟨hc, -⟩ <;> dsimp only at hc <;> omega)
  unfold State.Few at hfew
  obtain ⟨⟨h1, h2⟩, hshape, hhist⟩ := hold
  have hcalls : s.calls + 2 < 2 ^ 32 := by
    rcases hcounts with ⟨hc, -⟩ | ⟨hc, -⟩ <;> dsimp only at hc <;> omega
  have hnext : (s.nextpid + 1).toNat = s.nextpid.toNat + 1 := by
    rw [BitVec.toNat_add]
    exact Nat.mod_eq_of_lt (show s.nextpid.toNat + 1 < 2 ^ 32 by omega)
  have hc' : Counts s' := by
    unfold Counts
    rcases hcounts with ⟨hc, hn⟩ | ⟨hc, hn | hn⟩ <;> rw [hc, hn] <;> dsimp only <;> omega
  have hstep : FamilyStep { s with said := none } s' := family_move hshape ⟨h1, h2⟩ hcalls hmove
  rcases hstep with heq | hstep
  · exact ⟨hc', heq ▸ hshape, heq ▸ hhist⟩
  · exact ⟨hc', shape_step hshape hstep, history_step hshape hhist hstep⟩

theorem inv_along {tr : List (State × Act)} (hrun : Path (Next next) init tr s) :
    Along (fun s => s.Few → Inv s) tr s :=
  along_of_all_steps (fun _ _ _ h hs => inv_next h hs) hrun fun _ => inv_init

/-! ## The process tree -/

/-- The state of a process that has been made and not yet reaped. -/
def ProcState.live (st : ProcState) : Prop :=
  st = .SLEEPING ∨ st = .RUNNABLE ∨ st = .RUNNING ∨ st = .ZOMBIE

structure TreeOk (s : State) : Prop where
  unused : ∀ k, (s.proc k).state = .UNUSED → (s.proc k).parent = none
  parent : ∀ k, (s.proc k).state.live → s.initproc ≠ some k →
    ∃ q, (s.proc k).parent = some q ∧ (s.proc q).state ≠ .UNUSED ∧ (s.proc q).state ≠ .ZOMBIE
  positive : ∀ k, (s.proc k).state ≠ .UNUSED → 0 < (s.proc k).pid.toInt
  distinct : ∀ k l, (s.proc k).state ≠ .UNUSED → (s.proc l).state ≠ .UNUSED →
    (s.proc k).pid = (s.proc l).pid → k = l

theorem stage_ne_empty {st : ProcState} (h : st ≠ .UNUSED) : st.stage ≠ .empty := by
  cases st <;> simp_all [ProcState.stage]

theorem Inv.treeOk (h : Inv s) (hfew : s.Few) : TreeOk s := by
  refine ⟨fun k hk => h.shape.empty k (congrArg ProcState.stage hk), fun k hk hroot => ?_, fun k hk => ?_,
    fun k l hk hl => h.shape.distinct k l (stage_ne_empty hk) (stage_ne_empty hl)⟩
  · have hlive : s.family.live k := by
      rcases hk with hk | hk | hk | hk
      · exact .inl (congrArg ProcState.stage hk)
      · exact .inl (congrArg ProcState.stage hk)
      · exact .inl (congrArg ProcState.stage hk)
      · exact .inr (congrArg ProcState.stage hk)
    obtain ⟨r, hr, -⟩ := h.shape.rooted k hlive
    have hboot : s.family.root = s.initproc := family_root hr
    obtain ⟨q, hq, hqa⟩ := h.shape.tended k hlive (hboot ▸ hroot)
    refine ⟨q, hq, fun hc => ?_, fun hc => ?_⟩
    · have := (congrArg ProcState.stage hc).symm.trans hqa
      cases this
    · have := (congrArg ProcState.stage hc).symm.trans hqa
      cases this
  · obtain ⟨hpos, hlt⟩ := h.shape.given k (stage_ne_empty hk)
    have hc := h.counts.2
    unfold State.Few at hfew
    change 1 ≤ (s.proc k).pid.toNat at hpos
    change (s.proc k).pid.toNat < s.nextpid.toNat at hlt
    rw [BitVec.toInt_eq_toNat_of_lt (by omega)]
    omega

/-- In every state of every run, as long as there were fewer than `2 ^ 31 - 1` calls of `allocproc`, the
table is a process tree. -/
theorem process_tree {tr : List (State × Act)} (hrun : Path (Next next) init tr s) :
    Along (fun s => s.Few → TreeOk s) tr s :=
  (inv_along hrun).mono fun _ h hfew => (h hfew).treeOk hfew

/-- A grandchild is left behind and goes to `initproc`. -/
theorem process_tree_orphan :
    ∃ tr s, Path (Next next) init tr s ∧ s.Few ∧ (s.proc 1).state = .ZOMBIE ∧
      (s.proc 2).state = .RUNNABLE ∧ (s.proc 2).parent = s.initproc ∧ TreeOk s := by
  have hrun : (follow next init [.userinit, .userinit, .sched 0, .fork 0, .forkNext 0 true,
      .forkNext 0 true, .forkNext 0 true, .forkNext 0 true, .sched 1, .fork 1, .forkNext 1 true,
      .forkNext 1 true, .forkNext 1 true, .forkNext 1 true, .exit 1]).map (fun s =>
        (s.calls, (s.proc 1).state, (s.proc 2).state, (s.proc 2).parent, s.initproc)) =
      some (3, .ZOMBIE, .RUNNABLE, some 0, some 0) := by decide +kernel
  obtain ⟨s, hs, hfinal⟩ := Option.map_eq_some_iff.mp hrun
  simp only [Prod.mk.injEq] at hfinal
  obtain ⟨hcalls, h1, h2, hpar, hroot⟩ := hfinal
  obtain ⟨tr, hpath, -⟩ := path_of_follow hs
  have hfew : s.Few := by
    unfold State.Few
    omega
  exact ⟨tr, s, hpath, hfew, h1, h2, hpar.trans hroot.symm, (process_tree hpath).2 hfew⟩

end Xv6.Ptable
