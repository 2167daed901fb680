import Xv6.Lib.Run

/-!
# Spin locks and interrupts

`spinlock.c` on `n` CPUs with `k` locks. The code between the calls is any code that pops what it has
pushed and releases what it has acquired.
-/

open Xv6.Run Function

namespace Xv6.Spinlock

variable {n k : Nat}

/-- The statement at which a CPU is. -/
inductive Pc (k : Nat)
  | run
  | acquireHolding (l : Fin k)
  | xchg (l : Fin k)
  | setCpu (l : Fin k)
  | releaseHolding (l : Fin k)
  | clearCpu (l : Fin k)
  | unlock (l : Fin k)
  deriving DecidableEq

structure Cpu (k : Nat) where
  /-- `FL_IF`. -/
  eflags : Bool
  ncli : Int
  intena : Bool
  pc : Pc k
  -- what the code between the calls has done, and its last own change of `FL_IF`
  pushes : Nat
  held : Finset (Fin k)
  want : Bool

structure Lock (n : Nat) where
  locked : Bool
  cpu : Option (Fin n)

structure State (n k : Nat) where
  cpu : Fin n → Cpu k
  lock : Fin k → Lock n
  panicked : Bool

def Cpu.goto (x : Cpu k) (pc : Pc k) (pushes : Nat) (held : Finset (Fin k)) : Cpu k :=
  { x with pc := pc, pushes := pushes, held := held }

def State.set (s : State n k) (c : Fin n) (x : Cpu k) : State n k := { s with cpu := update s.cpu c x }

def State.setLock (s : State n k) (l : Fin k) (v : Lock n) : State n k := { s with lock := update s.lock l v }

def State.panic (s : State n k) : State n k := { s with panicked := true }

def pushcli (x : Cpu k) : Cpu k :=
  { x with eflags := false, intena := if x.ncli = 0 then x.eflags else x.intena, ncli := x.ncli + 1 }

/-- `none` is a panic. -/
def popcli (x : Cpu k) : Option (Cpu k) :=
  if x.eflags then none
  else if x.ncli - 1 < 0 then none
  else some { x with eflags := decide (x.ncli - 1 = 0) && x.intena, ncli := x.ncli - 1 }

def holding (s : State n k) (c : Fin n) (l : Fin k) : Option (Cpu k × Bool) :=
  (popcli (pushcli (s.cpu c))).map fun x => (x, (s.lock l).locked && (s.lock l).cpu == some c)

/-- The next statement of `acquire` or `release` on CPU `c`. -/
def step (s : State n k) (c : Fin n) (x : Cpu k) : Option (State n k) :=
  match x.pc with
  | .run => none
  | .acquireHolding l =>
    match holding s c l with
    | some (y, false) => s.set c (y.goto (.xchg l) y.pushes y.held)
    | _ => s.panic
  | .xchg l =>
    if (s.lock l).locked then s
    else (s.setLock l ⟨true, (s.lock l).cpu⟩).set c (x.goto (.setCpu l) x.pushes (insert l x.held))
  | .setCpu l => (s.setLock l ⟨(s.lock l).locked, some c⟩).set c (x.goto .run x.pushes x.held)
  | .releaseHolding l =>
    match holding s c l with
    | some (y, true) => s.set c (y.goto (.clearCpu l) y.pushes y.held)
    | _ => s.panic
  | .clearCpu l => (s.setLock l ⟨(s.lock l).locked, none⟩).set c (x.goto (.unlock l) x.pushes x.held)
  | .unlock l =>
    match popcli (x.goto .run x.pushes (x.held.erase l)) with
    | some y => (s.setLock l ⟨false, (s.lock l).cpu⟩).set c y
    | none => s.panic

inductive Op (k : Nat)
  | step
  | pushcli
  | popcli
  | acquire (l : Fin k)
  | release (l : Fin k)
  /-- An interrupt or `cli`. -/
  | off
  /-- The return from a trap or `sti`. -/
  | on

/-- What the code between the calls does, if it may. -/
def call (x : Cpu k) : Op k → Option (Option (Cpu k))
  | .step => none
  | .pushcli => if x.pc = .run then some (pushcli (x.goto .run (x.pushes + 1) x.held)) else none
  | .popcli => if x.pc = .run ∧ 0 < x.pushes then some (popcli (x.goto .run (x.pushes - 1) x.held)) else none
  | .acquire l =>
    if x.pc = .run ∧ l ∉ x.held then some (pushcli (x.goto (.acquireHolding l) x.pushes x.held)) else none
  | .release l => if x.pc = .run ∧ l ∈ x.held then some (x.goto (.releaseHolding l) x.pushes x.held) else none
  | .off => if x.eflags then some (some { x with eflags := false, want := false }) else none
  | .on =>
    if x.pc = .run ∧ x.pushes = 0 ∧ x.held = ∅ then some (some { x with eflags := true, want := true }) else none

def next (s : State n k) (a : Fin n × Op k) : Option (State n k) :=
  if s.panicked then none
  else match a.2 with
  | .step => step s a.1 (s.cpu a.1)
  | op => (call (s.cpu a.1) op).map fun r => r.elim s.panic (s.set a.1)

def init (n k : Nat) : State n k where
  cpu _ := ⟨false, 0, false, .run, 0, ∅, false⟩
  lock _ := ⟨false, none⟩
  panicked := false

/-! ## The depth -/

variable {d p : Nat} {x y : Cpu k} {s s' : State n k} {c : Fin n} {l : Fin k} {pc : Pc k} {held : Finset (Fin k)}

/-- What `pushcli` and `popcli` keep at depth `d`. -/
structure Depth (d : Nat) (x : Cpu k) : Prop where
  ncli : x.ncli = d
  eflags : x.eflags = (x.want && decide (d = 0))
  intena : d ≠ 0 → x.intena = x.want

/-- `acquire` pushes before the lock is held. -/
def Pc.extra : Pc k → Nat
  | .acquireHolding _ | .xchg _ => 1
  | _ => 0

def Pc.Right (held : Finset (Fin k)) : Pc k → Prop
  | .run => True
  | .acquireHolding l | .xchg l => l ∉ held
  | .setCpu l | .releaseHolding l | .clearCpu l | .unlock l => l ∈ held

structure CpuOk (x : Cpu k) : Prop where
  depth : Depth (x.pushes + x.held.card + x.pc.extra) x
  right : x.pc.Right x.held

theorem ok_goto (h : Depth d x) (hd : d = p + held.card + pc.extra) (hr : pc.Right held) :
    CpuOk (x.goto pc p held) := by
  subst hd
  exact ⟨⟨h.ncli, h.eflags, h.intena⟩, hr⟩

theorem ok_pushcli (h : Depth d x) (hd : d + 1 = p + held.card + pc.extra) (hr : pc.Right held) :
    CpuOk (pushcli (x.goto pc p held)) := by
  obtain ⟨hn, he, hi⟩ := h
  refine ⟨?_, hr⟩
  change Depth (p + held.card + pc.extra) _
  rw [← hd]
  refine ⟨by simp [pushcli, Cpu.goto, hn], by simp [pushcli], fun _ => ?_⟩
  by_cases hz : d = 0
  · simp [pushcli, Cpu.goto, hn, he, hz]
  · simp [pushcli, Cpu.goto, hn, hi hz, hz]

theorem ok_popcli (h : Depth d x) (pc : Pc k) (p : Nat) (held : Finset (Fin k)) (hd : d = p + held.card + pc.extra + 1)
    (hr : pc.Right held) : ∃ y, popcli (x.goto pc p held) = some y ∧ CpuOk y ∧ y.pc = pc ∧ y.held = held := by
  subst hd
  obtain ⟨hn, he, hi⟩ := h
  unfold popcli
  rw [if_neg (by simp [Cpu.goto, he]), if_neg (by rw [Cpu.goto, hn]; omega)]
  refine ⟨_, rfl, ⟨?_, hr⟩, rfl, rfl⟩
  change Depth (p + held.card + pc.extra) _
  generalize p + held.card + pc.extra = d at *
  refine ⟨?_, ?_, fun _ => hi (by simp)⟩
  · simp [Cpu.goto, hn]
  · simp [Cpu.goto, hn, hi, Bool.and_comm]

/-- With interrupts off, `holding` changes nothing. -/
theorem holding_eq (h : Depth d (s.cpu c)) (hd : d ≠ 0) :
    holding s c l = some (s.cpu c, (s.lock l).locked && (s.lock l).cpu == some c) := by
  obtain ⟨hn, he, -⟩ := h
  have hoff : (s.cpu c).eflags = false := by simp [he, hd]
  have hne : (s.cpu c).ncli ≠ 0 := by omega
  have hpos : ¬ (s.cpu c).ncli < 0 := by omega
  simp only [holding, popcli, pushcli, Bool.false_eq_true, if_false, Int.add_sub_cancel, hne, hpos, Option.map_some,
    decide_false, Bool.false_and]
  rw [← hoff]

theorem idle_of_eflags (h : CpuOk x) (hx : x.eflags = true) :
    x.want = true ∧ x.pc = .run ∧ x.pushes = 0 ∧ x.held = ∅ := by
  obtain ⟨hd, hr⟩ := h
  rw [hd.eflags] at hx
  simp at hx
  obtain ⟨hw, ⟨hp, hh⟩, he⟩ := hx
  rw [hh] at hr
  refine ⟨hw, ?_, hp, hh⟩
  cases hpc : x.pc <;> simp [hpc, Pc.Right, Pc.extra] at hr he
  rfl

/-! ## The locks -/

/-- The lock that is held and has no `lk->cpu`. -/
def Pc.bare : Pc k → Option (Fin k)
  | .setCpu l | .unlock l => some l
  | _ => none

structure Inv (s : State n k) : Prop where
  calm : s.panicked = false
  cpus : ∀ c, CpuOk (s.cpu c)
  one : ∀ c c' l, l ∈ (s.cpu c).held → l ∈ (s.cpu c').held → c = c'
  locked : ∀ l, (s.lock l).locked = true ↔ ∃ c, l ∈ (s.cpu c).held
  cpu : ∀ l c, (s.lock l).cpu = some c ↔ l ∈ (s.cpu c).held ∧ (s.cpu c).pc.bare ≠ some l

theorem cpus_set (h : ∀ c, CpuOk (s.cpu c)) (hy : CpuOk y) (c' : Fin n) : CpuOk (update s.cpu c y c') := by
  by_cases hc : c' = c
  · subst hc
    simpa using hy
  · simpa [hc] using h c'

theorem inv_set (h : Inv s) (hy : CpuOk y) (hheld : y.held = (s.cpu c).held) (hb : y.pc.bare = (s.cpu c).pc.bare) :
    Inv (s.set c y) := by
  have hh : ∀ c', (update s.cpu c y c').held = (s.cpu c').held := by grind [update_apply]
  have hbare : ∀ c', (update s.cpu c y c').pc.bare = (s.cpu c').pc.bare := by grind [update_apply]
  refine ⟨h.calm, cpus_set h.cpus hy, ?_, ?_, ?_⟩
  · simpa [State.set, hh] using h.one
  · simpa [State.set, hh] using h.locked
  · simpa [State.set, hh, hbare] using h.cpu

/-- A step on the lock `l`, which no other CPU holds. -/
theorem inv_lock {v : Lock n} (h : Inv s) (hy : CpuOk y) (hfree : ∀ c', l ∈ (s.cpu c').held → c' = c)
    (hheld : ∀ l', l' ≠ l → (l' ∈ y.held ↔ l' ∈ (s.cpu c).held)) (hv : v.locked = true ↔ l ∈ y.held)
    (hbare : ∀ l', l' ≠ l → y.pc.bare ≠ some l' ∧ (s.cpu c).pc.bare ≠ some l')
    (hcpu : ∀ c', v.cpu = some c' ↔ c' = c ∧ l ∈ y.held ∧ y.pc.bare ≠ some l) : Inv ((s.setLock l v).set c y) := by
  have hnot : ∀ c', c' ≠ c → l ∉ (s.cpu c').held := fun c' hc hm => hc (hfree c' hm)
  refine ⟨h.calm, cpus_set h.cpus hy, fun c₁ c₂ l' => ?_, fun l' => ?_, fun l' c' => ?_⟩
  all_goals simp only [State.set, State.setLock, update_apply]
  · grind [h.one c₁ c₂ l']
  · have := h.locked l'
    grind
  · grind [h.cpu l' c']

theorem call_ok {op : Op k} {r : Option (Cpu k)} (h : CpuOk x) (hr : call x op = some r) :
    ∃ y, r = some y ∧ CpuOk y ∧ y.held = x.held ∧ y.pc.bare = x.pc.bare := by
  have hidle := idle_of_eflags h
  obtain ⟨hd, hright⟩ := h
  unfold call at hr
  split at hr
  · cases hr
  all_goals split at hr <;> cases hr
  · next hpc =>
    rw [hpc] at hd ⊢
    exact ⟨_, rfl, ok_pushcli hd (by omega) trivial, rfl, rfl⟩
  · next hpc =>
    obtain ⟨hpc, hpos⟩ := hpc
    rw [hpc] at hd ⊢
    obtain ⟨y, hy, hok, hyp, hyh⟩ := ok_popcli hd .run (x.pushes - 1) x.held (by omega) trivial
    exact ⟨y, hy, hok, hyh, by rw [hyp]⟩
  · next l hpc =>
    rw [hpc.1] at hd ⊢
    exact ⟨_, rfl, ok_pushcli hd rfl hpc.2, rfl, rfl⟩
  · next l hpc =>
    rw [hpc.1] at hd ⊢
    exact ⟨_, rfl, ok_goto hd rfl hpc.2, rfl, rfl⟩
  · next hon =>
    obtain ⟨-, hpc, hp, hh⟩ := hidle hon
    refine ⟨_, rfl, ⟨⟨hd.ncli, rfl, fun hne => ?_⟩, hright⟩, rfl, rfl⟩
    simp [hpc, hp, hh, Pc.extra] at hne
  · next hpc =>
    obtain ⟨hpc, hp, hh⟩ := hpc
    simp only [hpc, hp, hh] at hd ⊢
    exact ⟨_, rfl, ⟨⟨hd.ncli, rfl, fun hne => absurd rfl hne⟩, trivial⟩, rfl, rfl⟩

theorem inv_step (h : Inv s) (hs : step s c (s.cpu c) = some s') : Inv s' := by
  obtain ⟨hd, hr⟩ := h.cpus c
  have hone : ∀ l, l ∈ (s.cpu c).held → ∀ c', l ∈ (s.cpu c').held → c' = c := fun l hl c' hm => h.one c' c l hm hl
  have hlocked : ∀ l, l ∈ (s.cpu c).held → (s.lock l).locked = true := fun l hl => (h.locked l).mpr ⟨c, hl⟩
  unfold step at hs
  split at hs
  case h_1 => cases hs
  case h_2 l hpc =>
    rw [hpc] at hd hr
    have hcpu : (s.lock l).cpu ≠ some c := fun hc => hr ((h.cpu l c).mp hc).1
    rw [holding_eq hd (Nat.succ_ne_zero _), beq_false_of_ne hcpu, Bool.and_false] at hs
    cases hs
    exact inv_set h (ok_goto hd rfl hr) rfl (by rw [hpc]; rfl)
  case h_3 l hpc =>
    rw [hpc] at hd hr
    split at hs <;> cases hs
    · exact h
    next hfree =>
    have hnone : ∀ c', l ∉ (s.cpu c').held := fun c' hm => hfree ((h.locked l).mpr ⟨c', hm⟩)
    have hcpu : ∀ c', (s.lock l).cpu ≠ some c' := fun c' hc => hnone c' ((h.cpu l c').mp hc).1
    refine inv_lock h (ok_goto hd ?_ (Finset.mem_insert_self _ _)) (fun c' hm => absurd hm (hnone c')) ?_ ?_ ?_ ?_
    · rw [Finset.card_insert_of_notMem hr]
      rfl
    all_goals simp +contextual [Cpu.goto, Pc.bare, hpc, hcpu, eq_comm]
  case h_4 l hpc =>
    rw [hpc] at hd hr
    replace hr : l ∈ (s.cpu c).held := hr
    cases hs
    refine inv_lock h (ok_goto hd rfl trivial) (hone l hr) ?_ ?_ ?_ ?_
    all_goals simp +contextual [Cpu.goto, Pc.bare, hpc, hr, hlocked l hr, eq_comm]
  case h_5 l hpc =>
    rw [hpc] at hd hr
    have hcpu : (s.lock l).cpu = some c := (h.cpu l c).mpr ⟨hr, by simp [hpc, Pc.bare]⟩
    have hcard := Finset.card_pos.mpr ⟨l, hr⟩
    rw [holding_eq hd (by omega), hcpu, hlocked l hr, beq_self_eq_true, Bool.and_true] at hs
    cases hs
    exact inv_set h (ok_goto hd rfl hr) rfl (by rw [hpc]; rfl)
  case h_6 l hpc =>
    rw [hpc] at hd hr
    replace hr : l ∈ (s.cpu c).held := hr
    cases hs
    refine inv_lock h (ok_goto hd rfl hr) (hone l hr) ?_ ?_ ?_ ?_
    all_goals simp +contextual [Cpu.goto, Pc.bare, hpc, hr, hlocked l hr, eq_comm]
  case h_7 l hpc =>
    rw [hpc] at hd hr
    replace hr : l ∈ (s.cpu c).held := hr
    have hcard := Finset.card_erase_add_one hr
    obtain ⟨y, hy, hok, hyp, hyh⟩ := ok_popcli hd .run (s.cpu c).pushes ((s.cpu c).held.erase l)
      (by simp only [Pc.extra]; omega) trivial
    rw [hy] at hs
    cases hs
    have hcpu : ∀ c', (s.lock l).cpu ≠ some c' := by
      intro c' hc
      obtain ⟨hm, hne⟩ := (h.cpu l c').mp hc
      rw [hone l hr c' hm, hpc] at hne
      exact hne rfl
    apply inv_lock h hok (hone l hr)
    all_goals simp +contextual [hyp, hyh, Pc.bare, hpc, hcpu, eq_comm]

theorem inv_next (s : State n k) (a : Fin n × Op k) (s' : State n k) (h : Inv s) (hs : Next next s a s') : Inv s' := by
  unfold Next next at hs
  rw [if_neg (by simp [h.calm])] at hs
  split at hs
  · exact inv_step h hs
  · obtain ⟨r, hr, rfl⟩ := Option.map_eq_some_iff.mp hs
    obtain ⟨y, rfl, hy, hheld, hb⟩ := call_ok (h.cpus a.1) hr
    exact inv_set h hy hheld hb

theorem inv_init : Inv (init n k) := by
  refine ⟨rfl, fun _ => ⟨⟨rfl, rfl, fun hne => absurd rfl hne⟩, trivial⟩, ?_, ?_, ?_⟩ <;> simp [init]

/-- Nothing panics, no lock has two holders, and interrupts are on exactly when the code wants them on and is
inside no `pushcli` and no lock. -/
structure Nested (s : State n k) : Prop where
  calm : s.panicked = false
  one : ∀ c c' l, l ∈ (s.cpu c).held → l ∈ (s.cpu c').held → c = c'
  eflags : ∀ c, (s.cpu c).eflags = true ↔
    (s.cpu c).want = true ∧ (s.cpu c).pc = .run ∧ (s.cpu c).pushes = 0 ∧ (s.cpu c).held = ∅

/-- CPU `e` waits for the lock of CPU `c`, which is interrupted after its last `popcli`. -/
def handOver (c e : Fin n) (l : Fin k) : List (Fin n × Op k) :=
  [(c, .on), (c, .pushcli), (c, .acquire l), (c, .step), (c, .step), (c, .step), (e, .acquire l), (e, .step), (e, .step),
    (c, .release l), (c, .step), (c, .step), (c, .step), (e, .step), (c, .popcli), (c, .off)]

end Xv6.Spinlock
