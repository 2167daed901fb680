import Xv6.File.Code
import Xv6.Lib.Owner
import Xv6.Lib.Refs

/-!
# Reference counts of open files

A reference to a file is in a descriptor, or in the hand of a process in the middle of a call. The end of a pipe
belongs to one file, or to the process that closes it.
-/

open Xv6.Owner Xv6.Refs Xv6.Run Function

namespace Xv6.File

variable {n : Nat} {s s' : State n} {p q np : Fin n} {pc : Pc n} {f : Fin NFILE} {fd : Fin NOFILE} {k : After}
  {o : Fin NOFILE → Option (Fin NFILE)}

/-! ## What a process has in hand -/

def After.hand : After → Option (Fin NFILE)
  | .close f => some f
  | _ => none

def Pc.first : Pc n → Option (Fin NFILE)
  | .close f (.close _) | .pipeAlloc1 f | .pipeKalloc f _ | .pipeFd0 f _ => some f
  | _ => none

def Pc.second : Pc n → Option (Fin NFILE)
  | .openFd f _ _ | .close f .done | .pipeKalloc _ f | .pipeFd0 _ f | .pipeFd1 _ _ f => some f
  | .close _ k | .pipeclose _ _ k | .kfree _ k => k.hand
  | _ => none

/-- The descriptor that has no reference yet, or none any more. -/
def Pc.pending : Pc n → Option (Fin NOFILE)
  | .dup _ fd | .pipeclose _ _ (.exit fd) | .kfree _ (.exit fd) | .exitClear fd => some fd
  | _ => none

/-- The references of a process. -/
def hold (pc : Pc n) (o : Fin NOFILE → Option (Fin NFILE)) : Fin NOFILE ⊕ Bool → Option (Fin NFILE)
  | .inl fd => if pc.pending = some fd then none else o fd
  | .inr false => pc.first
  | .inr true => pc.second

def State.holder (s : State n) (x : Fin n × (Fin NOFILE ⊕ Bool)) : Option (Fin NFILE) :=
  hold (s.pc x.1) (s.ofile x.1) x.2

/-- The reference that a `fileclose` drops. -/
def After.place : After → Fin NOFILE ⊕ Bool
  | .done => .inr true
  | .close _ => .inr false
  | .exit fd => .inl fd

/-- The file is new, and only the process knows it. -/
def Pc.Fresh (f : Fin NFILE) : Pc n → Prop
  | .openFd g _ _ | .openSet g _ _ _ | .pipeAlloc1 g => g = f
  | .pipeKalloc g h => g = f ∨ h = f
  | _ => False

/-- What the descriptors of a process are. -/
def Pc.Own (o : Fin NOFILE → Option (Fin NFILE)) : Pc n → Prop
  | .openSet f fd _ _ | .pipeFd1 fd f _ => o fd = some f
  | .dup f fd => o fd = some f ∧ ∃ fd', fd' ≠ fd ∧ o fd' = some f
  | .close f (.exit fd) => o fd = some f ∧ ∀ fd', fd' < fd → o fd' = none
  | .pipeclose _ _ (.exit fd) | .kfree _ (.exit fd) | .exitClear fd => ∀ fd', fd' < fd → o fd' = none
  | .exitFd k => ∀ fd : Fin NOFILE, fd.val < k → o fd = none
  | _ => True

/-- The child that a process makes, and the first descriptor that the child does not have yet. -/
def Pc.kid : Pc n → Option (Fin n × Nat)
  | .forkCopy np => some (np, 0)
  | .forkDup np i => some (np, i)
  | _ => none

/-- The end of a pipe that a process closes. -/
def Pc.ends : Pc n → Option (Nat × Bool)
  | .pipeclose pg writable _ => some (pg, writable)
  | _ => none

/-- The pipe that a process frees. -/
def Pc.shut : Pc n → Option Nat
  | .kfree pg _ => some pg
  | _ => none

def File.ends (x : File) : Option (Nat × Bool) :=
  if x.type = .FD_PIPE then some (x.pipe, x.writable) else none

def State.ends (s : State n) : Fin NFILE ⊕ Fin n → Option (Nat × Bool)
  | .inl f => (s.file f).ends
  | .inr p => (s.pc p).ends

def Pipe.isOpen (x : Pipe) (writable : Bool) : Bool := if writable then x.writeopen else x.readopen

structure Procs (s : State n) : Prop where
  own : ∀ p, (s.pc p).Own (s.ofile p)
  active : ∀ p, s.pc p ≠ .user → s.state p = .ACTIVE
  empty : ∀ p, s.state p = .UNUSED ∨ s.state p = .ZOMBIE → ∀ fd, s.ofile p fd = none
  kid : ∀ p np i, (s.pc p).kid = some (np, i) → s.state np = .EMBRYO ∧
    ∀ fd : Fin NOFILE, i ≤ fd.val → s.ofile np fd = none
  one : ∀ p q np i j, (s.pc p).kid = some (np, i) → (s.pc q).kid = some (np, j) → p = q

structure Files (s : State n) : Prop where
  refs : Counted s.holder fun f => (s.file f).ref
  typed : ∀ f, (s.file f).type ≠ .FD_NONE → 0 < (s.file f).ref
  fresh : ∀ p f, (s.pc p).Fresh f → (s.file f).ref = 1 ∧ (s.file f).type = .FD_NONE

structure Pipes (s : State n) : Prop where
  ends : Owned (fun _ => False) s.ends fun e => s.live e.1 = true ∧ (s.pipe e.1).isOpen e.2 = true
  shut : Owned (fun _ => False) (fun p => (s.pc p).shut) fun pg =>
    s.live pg = true ∧ (s.pipe pg).readopen = false ∧ (s.pipe pg).writeopen = false
  count : ∀ pg, s.kallocs pg = s.kfrees pg + if s.live pg then 1 else 0

structure Inv (s : State n) : Prop where
  procs : Procs s
  files : Files s
  pipes : Pipes s
  calm : s.panicked = false

/-! ## Processes -/

theorem procs_own (h : Procs s) (hact : s.state p = .ACTIVE) (hpc : s'.pc = update s.pc p pc)
    (ho : s'.ofile = update s.ofile p o) (hst : s'.state = s.state) (hown : pc.Own o)
    (hkid : ∀ np i, pc.kid = some (np, i) → ∃ j ≤ i, (s.pc p).kid = some (np, j)) : Procs s' := by
  have hpcq : ∀ q, q ≠ p → s'.pc q = s.pc q := fun q hq => by rw [hpc, update_of_ne hq]
  have hpcp : s'.pc p = pc := by rw [hpc, update_self]
  have hoq : ∀ q, q ≠ p → s'.ofile q = s.ofile q := fun q hq => by rw [ho, update_of_ne hq]
  -- the child was there before
  have hback : ∀ q np i, (s'.pc q).kid = some (np, i) → ∃ j ≤ i, (s.pc q).kid = some (np, j) := by
    intro q np i hq
    by_cases hqp : q = p
    · rw [hqp, hpcp] at hq
      exact hqp ▸ hkid np i hq
    · rw [hpcq q hqp] at hq
      exact ⟨i, le_rfl, hq⟩
  refine ⟨fun q => ?_, fun q hq => ?_, fun q hq fd => ?_, fun q np i hq => ?_, fun q q' np i j hq hq' => ?_⟩
  · by_cases hqp : q = p
    · rw [hqp, hpcp, ho, update_self]
      exact hown
    · rw [hpcq q hqp, hoq q hqp]
      exact h.own q
  · rw [hst]
    by_cases hqp : q = p
    · rw [hqp, hact]
    · rw [hpcq q hqp] at hq
      exact h.active q hq
  · rw [hst] at hq
    have hqp : q ≠ p := by
      rintro rfl
      rw [hact] at hq
      rcases hq with hq | hq <;> cases hq
    rw [hoq q hqp]
    exact h.empty q hq fd
  · obtain ⟨j, hj, hqj⟩ := hback q np i hq
    obtain ⟨hemb, hnone⟩ := h.kid q np j hqj
    have hnp : np ≠ p := by
      rintro rfl
      rw [hact] at hemb
      cases hemb
    rw [hst, hoq np hnp]
    exact ⟨hemb, fun fd hfd => hnone fd (hj.trans hfd)⟩
  · obtain ⟨i', -, hq⟩ := hback q np i hq
    obtain ⟨j', -, hq'⟩ := hback q' np j hq'
    exact h.one q q' np i' j' hq hq'

/-! ## Files -/

theorem ofile_self (s : State n) (p : Fin n) : s.ofile = update s.ofile p (s.ofile p) :=
  (update_eq_self p s.ofile).symm

theorem holder_own (hpc : s'.pc = update s.pc p pc) (ho : s'.ofile = update s.ofile p o)
    (x : Fin NOFILE ⊕ Bool) : s'.holder (p, x) = hold pc o x := by
  simp [State.holder, hpc, ho]

theorem holder_other (hpc : s'.pc = update s.pc p pc) (ho : s'.ofile = update s.ofile p o)
    (hq : q ≠ p) (x : Fin NOFILE ⊕ Bool) : s'.holder (q, x) = s.holder (q, x) := by
  simp [State.holder, hpc, ho, hq]

theorem Procs.fresh_held (h : Procs s) (hf : (s.pc p).Fresh f) : ∃ x, s.holder (p, x) = some f := by
  have hown := h.own p
  simp only [State.holder]
  cases hpc : s.pc p with
  | openFd g _ _ => rw [hpc] at hf; cases hf; exact ⟨.inr true, rfl⟩
  | openSet g fd _ _ =>
    rw [hpc] at hf hown
    cases hf
    exact ⟨.inl fd, hown⟩
  | pipeAlloc1 g => rw [hpc] at hf; cases hf; exact ⟨.inr false, rfl⟩
  | pipeKalloc g g' =>
    rw [hpc] at hf
    rcases hf with rfl | rfl
    · exact ⟨.inr false, rfl⟩
    · exact ⟨.inr true, rfl⟩
  | _ => rw [hpc] at hf; cases hf

theorem Inv.fresh_other (h : Inv s) (hq : q ≠ p) (hf : (s.pc q).Fresh f)
    (hg : (s.file f).ref = 0 ∨ ∃ x, s.holder (p, x) = some f) : False := by
  obtain ⟨x, hx⟩ := h.procs.fresh_held hf
  have hone := (h.files.fresh q f hf).1
  rcases hg with hg | ⟨y, hy⟩
  · omega
  · exact hq (congrArg Prod.fst (h.files.refs.only hone hx hy))

theorem files_own (h : Files s) (hpc : s'.pc = update s.pc p pc)
    (ho : s'.ofile = update s.ofile p o) (hfile : s'.file = s.file) (a b : Fin NOFILE ⊕ Bool)
    (hhold : ∀ x, hold pc o x = hold (s.pc p) (s.ofile p) (Equiv.swap a b x))
    (hfresh : ∀ f, pc.Fresh f → (s.pc p).Fresh f) : Files s' := by
  refine ⟨?_, by rw [hfile]; exact h.typed, fun q f hq => ?_⟩
  · have hren : Counted s'.holder fun f => (s.file f).ref := by
      refine h.refs.rename (Equiv.swap (p, a) (p, b)) fun x => ?_
      obtain ⟨q, x⟩ := x
      by_cases hq : q = p
      · subst hq
        have hswap : Equiv.swap (q, a) (q, b) (q, x) = (q, Equiv.swap a b x) := by
          simp only [Equiv.swap_apply_def, Prod.mk.injEq, true_and]
          split <;> [rfl; split <;> rfl]
        rw [holder_own hpc ho, hhold, hswap]
        rfl
      · rw [holder_other hpc ho hq, Equiv.swap_apply_of_ne_of_ne (by simp [hq]) (by simp [hq])]
    exact hren.congr (fun _ => rfl) fun f => by rw [hfile]
  · rw [hfile]
    by_cases hqp : q = p
    · rw [hqp, hpc, update_self] at hq
      exact h.fresh p f (hfresh f hq)
    · rw [hpc, update_of_ne hqp] at hq
      exact h.fresh q f hq

/-! ## Pipes -/

theorem pipes_quiet (h : Pipes s) (hpc : s'.pc = update s.pc p pc)
    (hfile : ∀ f, (s'.file f).ends = (s.file f).ends) (hpipe : s'.pipe = s.pipe) (hlive : s'.live = s.live)
    (hka : s'.kallocs = s.kallocs) (hkf : s'.kfrees = s.kfrees) (hends : pc.ends = (s.pc p).ends)
    (hshut : pc.shut = (s.pc p).shut) : Pipes s' := by
  have hpcq : ∀ q, (s'.pc q).ends = (s.pc q).ends ∧ (s'.pc q).shut = (s.pc q).shut := by
    intro q
    by_cases hq : q = p
    · rw [hq, hpc, update_self]
      exact ⟨hends, hshut⟩
    · rw [hpc, update_of_ne hq]
      exact ⟨rfl, rfl⟩
  refine ⟨h.ends.congr (fun x => ?_) (fun e => by rw [hpipe, hlive]), h.shut.congr (fun q => (hpcq q).2)
    (fun pg => by rw [hpipe, hlive]), fun pg => by rw [hka, hkf, hlive]; exact h.count pg⟩
  cases x with
  | inl f => exact hfile f
  | inr q => exact (hpcq q).1

theorem inv_own (h : Inv s) (hact : s.state p = .ACTIVE) (hpc : s'.pc = update s.pc p pc)
    (ho : s'.ofile = update s.ofile p o) (hrest : s' = { s with pc := s'.pc, ofile := s'.ofile })
    (hown : pc.Own o) (hkid : ∀ np i, pc.kid = some (np, i) → ∃ j ≤ i, (s.pc p).kid = some (np, j))
    (a b : Fin NOFILE ⊕ Bool) (hhold : ∀ x, hold pc o x = hold (s.pc p) (s.ofile p) (Equiv.swap a b x))
    (hfresh : ∀ f, pc.Fresh f → (s.pc p).Fresh f) (hends : pc.ends = (s.pc p).ends)
    (hshut : pc.shut = (s.pc p).shut) : Inv s' := by
  refine ⟨procs_own h.procs hact hpc ho (by rw [hrest]) hown hkid,
    files_own h.files hpc ho (by rw [hrest]) a b hhold hfresh,
    pipes_quiet h.pipes hpc (fun f => by rw [hrest]) (by rw [hrest]) (by rw [hrest]) (by rw [hrest]) (by rw [hrest])
      hends hshut, by rw [hrest]; exact h.calm⟩

/-! ## Steps that change a file -/

theorem files_set {x : File} (h : Inv s) (hpc : s'.pc = update s.pc p pc)
    (hfile : s'.file = update s.file f x)
    (htouch : (s.file f).ref = 0 ∨ ∃ y, s.holder (p, y) = some f)
    (hrefs : Counted s'.holder fun f => (s'.file f).ref) (hx : x.type ≠ .FD_NONE → 0 < x.ref)
    (hfresh : ∀ g, pc.Fresh g → (s'.file g).ref = 1 ∧ (s'.file g).type = .FD_NONE) : Files s' := by
  refine ⟨hrefs, fun g hg => ?_, fun q g hq => ?_⟩
  · by_cases hgf : g = f
    · rw [hgf, hfile, update_self] at hg ⊢
      exact hx hg
    · rw [hfile, update_of_ne hgf] at hg ⊢
      exact h.files.typed g hg
  · by_cases hqp : q = p
    · rw [hqp, hpc, update_self] at hq
      exact hfresh g hq
    · rw [hpc, update_of_ne hqp] at hq
      have hgf : g ≠ f := by
        rintro rfl
        exact h.fresh_other hqp hq htouch
      rw [hfile, update_of_ne hgf]
      exact h.files.fresh q g hq

theorem ends_set {x : File} (hfile : s'.file = update s.file f x) (hx : x.ends = (s.file f).ends)
    (g : Fin NFILE) : (s'.file g).ends = (s.file g).ends := by
  by_cases hgf : g = f
  · rw [hgf, hfile, update_self, hx]
  · rw [hfile, update_of_ne hgf]

theorem ref_set {x : File} (hfile : s'.file = update s.file f x) (g : Fin NFILE) (hg : g ≠ f) :
    (s'.file g).ref = (s.file g).ref := by
  rw [hfile, update_of_ne hg]

theorem freeFile_ref (hf : s.freeFile = some f) : (s.file f).ref = 0 := by
  simpa using List.find?_some hf

theorem freeFd_none (hfd : s.freeFd p = some fd) : s.ofile p fd = none := by
  simpa using List.find?_some hfd

theorem holder_add {a : Fin NOFILE ⊕ Bool} (hpc : s'.pc = update s.pc p pc)
    (ho : s'.ofile = update s.ofile p o)
    (hhold : ∀ x, x ≠ a → hold pc o x = hold (s.pc p) (s.ofile p) x) (y : Fin n × (Fin NOFILE ⊕ Bool))
    (hy : y ≠ (p, a)) : s'.holder y = s.holder y := by
  obtain ⟨q, x⟩ := y
  by_cases hq : q = p
  · subst hq
    rw [holder_own hpc ho, hhold x (by simpa using hy)]
    rfl
  · exact holder_other hpc ho hq x

theorem inv_alloc (h : Inv s) (hact : s.state p = .ACTIVE) (hf : s.freeFile = some f)
    (hown : pc.Own (s.ofile p)) (hkid : pc.kid = none) (a : Fin NOFILE ⊕ Bool)
    (hnone : hold (s.pc p) (s.ofile p) a = none) (ha : hold pc (s.ofile p) a = some f)
    (hhold : ∀ x, x ≠ a → hold pc (s.ofile p) x = hold (s.pc p) (s.ofile p) x)
    (hfresh : ∀ g, pc.Fresh g → g = f ∨ (s.pc p).Fresh g) (hends : pc.ends = (s.pc p).ends)
    (hshut : pc.shut = (s.pc p).shut) : Inv ((s.setRef f 1).goto p pc) := by
  have hzero := freeFile_ref hf
  have ho : ((s.setRef f 1).goto p pc).ofile = update s.ofile p (s.ofile p) := ofile_self s p
  have htype : (s.file f).type = .FD_NONE := by
    by_contra hne
    have := h.files.typed f hne
    omega
  refine ⟨procs_own h.procs hact rfl ho rfl hown (by simp [hkid]), ?_,
    pipes_quiet h.pipes rfl (ends_set rfl rfl) rfl rfl rfl rfl hends hshut, h.calm⟩
  refine files_set h rfl rfl (.inl hzero) ?_ (fun _ => Nat.one_pos) fun g hg => ?_
  · refine h.files.refs.add (o := (p, a)) (r := f) hnone ?_ (holder_add rfl ho hhold) ?_
      (ref_set rfl)
    · rw [holder_own rfl ho]
      exact ha
    · simp [State.goto, State.setRef, State.setFile, hzero]
  · by_cases hgf : g = f
    · subst hgf
      simp [State.goto, State.setRef, State.setFile, htype]
    · rcases hfresh g hg with hg | hg
      · exact absurd hg hgf
      · simpa [State.goto, State.setRef, State.setFile, hgf] using h.files.fresh p g hg

theorem inv_dup (h : Inv s) (hpc : s.pc p = .dup f fd) : Inv ((filedup s f).goto p .user) := by
  have hact := h.procs.active p (by simp [hpc])
  have hown := h.procs.own p
  rw [hpc] at hown
  obtain ⟨hfd, fd', hne, hfd'⟩ := hown
  have hheld : s.holder (p, .inl fd') = some f := by
    simp [State.holder, hold, hpc, Pc.pending, Ne.symm hne, hfd']
  have hpos := h.files.refs.pos hheld
  simp only [filedup, Nat.not_lt.mpr (Nat.succ_le_of_lt hpos), if_false]
  have ho : ((s.setRef f ((s.file f).ref + 1)).goto p .user).ofile = update s.ofile p (s.ofile p) :=
    ofile_self s p
  have hstep : ∀ x, x ≠ .inl fd → hold (Pc.user : Pc n) (s.ofile p) x = hold (s.pc p) (s.ofile p) x := by
    rintro (fd' | b) hx
    · have : fd ≠ fd' := fun he => hx (by rw [he])
      simp [hold, hpc, Pc.pending, this]
    · cases b <;> simp [hold, hpc, Pc.first, Pc.second]
  refine ⟨procs_own h.procs hact rfl ho rfl trivial (by simp [Pc.kid]), ?_,
    pipes_quiet h.pipes rfl (ends_set rfl rfl) rfl rfl rfl rfl (by rw [hpc]; rfl) (by rw [hpc]; rfl), h.calm⟩
  refine files_set h rfl rfl (.inr ⟨_, hheld⟩) ?_ (fun _ => Nat.succ_pos _) (fun _ hg => hg.elim)
  refine h.files.refs.add (o := (p, .inl fd)) (r := f) ?_ ?_ (holder_add rfl ho hstep) ?_ (ref_set rfl)
  · simp [State.holder, hold, hpc, Pc.pending]
  · rw [holder_own rfl ho]
    exact hfd
  · simp [State.goto, State.setRef, State.setFile]

theorem inv_openSet {ip omode : Nat} {x : File} (h : Inv s) (hpc : s.pc p = .openSet f fd ip omode)
    (href : x.ref = (s.file f).ref) (htype : x.type = .FD_INODE) : Inv ((s.setFile f x).goto p .user) := by
  have hact := h.procs.active p (by simp [hpc])
  have ho : ((s.setFile f x).goto p .user).ofile = update s.ofile p (s.ofile p) := ofile_self s p
  obtain ⟨hone, hnone⟩ := h.files.fresh p f (by rw [hpc]; rfl)
  have hheld := h.procs.fresh_held (p := p) (f := f) (by rw [hpc]; rfl)
  refine ⟨procs_own h.procs hact rfl ho rfl trivial (by simp [Pc.kid]), ?_,
    pipes_quiet h.pipes rfl (ends_set rfl ?_) rfl rfl rfl rfl (by rw [hpc]; rfl) (by rw [hpc]; rfl), h.calm⟩
  · refine files_set h rfl rfl (.inr hheld) ?_ (fun _ => by omega) (fun _ hg => hg.elim)
    refine h.files.refs.congr (fun y => ?_) (fun g => ?_)
    · obtain ⟨q, y⟩ := y
      by_cases hq : q = p
      · subst hq
        rw [holder_own rfl ho]
        rcases y with fd' | b
        · simp [State.holder, hold, hpc, Pc.pending]
        · cases b <;> simp [State.holder, hold, hpc, Pc.first, Pc.second]
      · exact holder_other rfl ho hq y
    · by_cases hg : g = f
      · subst hg
        simp [State.goto, State.setFile, href]
      · exact ref_set (x := x) rfl g hg
  · simp [File.ends, htype, hnone]

/-! ## Closing -/

theorem hold_place (k : After) : hold (k.pc : Pc n) o k.place = none := by
  cases k <;> simp [hold, After.place, After.pc, Pc.first, Pc.second, Pc.pending]

theorem hold_close {x : Fin NOFILE ⊕ Bool} (hx : x ≠ k.place) :
    hold (k.pc : Pc n) o x = hold (.close f k : Pc n) o x := by
  rcases x with fd' | b
  · cases k with
    | exit fd =>
      have : fd ≠ fd' := fun he => hx (by rw [he]; rfl)
      simp [hold, After.pc, Pc.pending, this]
    | _ => simp [hold, After.pc, Pc.pending]
  · cases b <;> cases k <;> simp_all [hold, After.pc, After.place, Pc.first, Pc.second, After.hand]

theorem hold_pipeclose (pg : Nat) (w : Bool) (k : After) : hold (.pipeclose pg w k : Pc n) o = hold (k.pc : Pc n) o := by
  funext x
  rcases x with fd | b
  · cases k <;> rfl
  · cases b <;> cases k <;> rfl

theorem hold_kfree (pg : Nat) (k : After) : hold (.kfree pg k : Pc n) o = hold (k.pc : Pc n) o := by
  funext x
  rcases x with fd | b
  · cases k <;> rfl
  · cases b <;> cases k <;> rfl

theorem own_pc_of_close (h : (.close f k : Pc n).Own o) : (k.pc : Pc n).Own o := by
  cases k with
  | exit fd => exact h.2
  | _ => trivial

theorem own_pipeclose {pg : Nat} {w : Bool} : (.pipeclose pg w k : Pc n).Own o ↔ (k.pc : Pc n).Own o := by
  cases k <;> rfl

theorem own_kfree {pg : Nat} : (.kfree pg k : Pc n).Own o ↔ (k.pc : Pc n).Own o := by
  cases k <;> rfl

@[simp] theorem kid_pc (k : After) : (k.pc : Pc n).kid = none := by
  cases k <;> rfl

@[simp] theorem ends_pc (k : After) : (k.pc : Pc n).ends = none := by
  cases k <;> rfl

@[simp] theorem shut_pc (k : After) : (k.pc : Pc n).shut = none := by
  cases k <;> rfl

theorem fresh_pc : ¬ (k.pc : Pc n).Fresh f := by
  cases k <;> exact id

theorem Procs.close_held (h : Procs s) (hpc : s.pc p = .close f k) : s.holder (p, k.place) = some f := by
  have hown := h.own p
  rw [hpc] at hown
  cases k with
  | exit fd => simpa [State.holder, hold, hpc, After.place, Pc.pending] using hown.1
  | _ => simp [State.holder, hold, hpc, After.place, Pc.first, Pc.second]

theorem files_drop {x : File} (h : Inv s) (hpc : s.pc p = .close f k) (hp : s'.pc = update s.pc p pc)
    (hcont : hold pc (s.ofile p) = hold (k.pc : Pc n) (s.ofile p)) (hfresh : ∀ g, ¬ pc.Fresh g) (ho : s'.ofile = s.ofile)
    (hfile : s'.file = update s.file f x) (href : x.ref = (s.file f).ref - 1)
    (hx : x.type ≠ .FD_NONE → 0 < x.ref) : Files s' := by
  have hheld := h.procs.close_held hpc
  have ho' : s'.ofile = update s.ofile p (s.ofile p) := ho.trans (ofile_self s p)
  refine files_set h hp hfile (.inr ⟨_, hheld⟩) ?_ hx fun g hg => (hfresh g hg).elim
  refine h.files.refs.drop hheld ?_ (holder_add hp ho' fun y hy => ?_) ?_ (ref_set hfile)
  · rw [holder_own hp ho', hcont]
    exact hold_place k
  · rw [hcont, hpc]
    exact hold_close hy
  · rw [hfile, update_self, href]

theorem inv_close (h : Inv s) (hpc : s.pc p = .close f k) : Inv (fileclose s p f k) := by
  have hact := h.procs.active p (by simp [hpc])
  have hpos := h.files.refs.pos (h.procs.close_held hpc)
  have hown := h.procs.own p
  rw [hpc] at hown
  have hown := own_pc_of_close hown
  have hends : (s.pc p).ends = none := by rw [hpc]; rfl
  have hshut : (s.pc p).shut = none := by rw [hpc]; rfl
  simp only [fileclose, Nat.not_lt.mpr (Nat.succ_le_of_lt hpos), if_false]
  split
  · next hmore =>
    exact ⟨procs_own h.procs hact rfl (ofile_self s p) rfl hown (by simp),
      files_drop h hpc rfl rfl (fun _ => fresh_pc) rfl rfl rfl fun _ => hmore,
      pipes_quiet h.pipes rfl (ends_set rfl rfl) rfl rfl rfl rfl (by simp [hends]) (by simp [hshut]), h.calm⟩
  · next hlast =>
    have hzero : (s.file f).ref - 1 = 0 := by omega
    split
    · next htype =>
      refine ⟨procs_own h.procs hact rfl (ofile_self s p) rfl (own_pipeclose.mpr hown) (by simp [Pc.kid]),
        files_drop h hpc rfl (hold_pipeclose _ _ k) (fun _ => id) rfl rfl hzero.symm (by simp), ⟨?_, ?_, h.pipes.count⟩,
        h.calm⟩
      · -- the end of the pipe goes from the file to the process
        refine h.pipes.ends.rename (Equiv.swap (.inl f) (.inr p)) fun y => ?_
        by_cases hf : y = .inl f
        · subst hf
          rw [Equiv.swap_apply_left]
          simp [State.ends, State.goto, State.setFile, File.ends, hends]
        · by_cases hp : y = .inr p
          · subst hp
            rw [Equiv.swap_apply_right]
            simp [State.ends, State.goto, File.ends, Pc.ends, htype]
          · rw [Equiv.swap_apply_of_ne_of_ne hf hp]
            rcases y with g | q
            · have hg : g ≠ f := fun he => hf (by rw [he])
              simp [State.ends, State.goto, State.setFile, hg]
            · have hq : q ≠ p := fun he => hp (by rw [he])
              simp [State.ends, State.goto, State.setFile, hq]
      · refine h.pipes.shut.congr (fun q => ?_) (fun _ => Iff.rfl)
        by_cases hq : q = p
        · rw [hq, hshut]
          simp [State.goto, Pc.shut]
        · simp [State.goto, State.setFile, hq]
    · next htype =>
      refine ⟨procs_own h.procs hact rfl (ofile_self s p) rfl hown (by simp),
        files_drop h hpc rfl rfl (fun _ => fresh_pc) rfl rfl hzero.symm (by simp),
        pipes_quiet h.pipes rfl (ends_set rfl ?_) rfl rfl rfl rfl (by simp [hends]) (by simp [hshut]), h.calm⟩
      rw [File.ends, File.ends, if_neg htype]
      rfl

theorem files_after (h : Files s) (hp : s'.pc = update s.pc p pc) (ho : s'.ofile = s.ofile)
    (hfile : s'.file = s.file) (hhold : hold pc (s.ofile p) = hold (s.pc p) (s.ofile p)) (hfresh : ∀ g, ¬ pc.Fresh g) :
    Files s' := by
  refine files_own h hp (ho.trans (ofile_self s p)) hfile (.inr true) (.inr true) (fun x => ?_)
    fun g hg => (hfresh g hg).elim
  rw [hhold, Equiv.swap_self]
  rfl

theorem isOpen_close {x x' : Pipe} {w : Bool}
    (hx : x' = if w then { x with writeopen := false } else { x with readopen := false }) (w' : Bool) :
    x'.isOpen w' = (x.isOpen w' && w' != w) := by
  subst hx
  cases w <;> cases w' <;> simp [Pipe.isOpen]

theorem isOpen_none {x : Pipe} : x.readopen = false ∧ x.writeopen = false ↔ ∀ w, x.isOpen w = false := by
  simp [Pipe.isOpen]

theorem inv_pipeclose {pg : Nat} {w : Bool} (h : Inv s) (hpc : s.pc p = .pipeclose pg w k) :
    Inv (pipeclose s p pg w k) := by
  have hact := h.procs.active p (by simp [hpc])
  have hown := h.procs.own p
  rw [hpc, own_pipeclose] at hown
  have hhold : hold (s.pc p) (s.ofile p) = hold (k.pc : Pc n) (s.ofile p) := by rw [hpc, hold_pipeclose]
  have hends : s.ends (.inr p) = some (pg, w) := by simp [State.ends, hpc, Pc.ends]
  have hshut : (s.pc p).shut = none := by rw [hpc]; rfl
  obtain ⟨hlive, hopen⟩ := h.pipes.ends.in_use hends
  dsimp only at hlive hopen
  unfold pipeclose
  dsimp only
  generalize hx : (if w = true then { s.pipe pg with writeopen := false }
    else { s.pipe pg with readopen := false } : Pipe) = x
  have hopen' := isOpen_close hx.symm
  -- the process gives the end up, wherever it goes then
  have hgive : ∀ pc : Pc n, pc.ends = none →
      Owned (fun _ => False) (State.ends (State.goto { s with pipe := update s.pipe pg x } p pc))
        fun e => s.live e.1 = true ∧ (update s.pipe pg x e.1).isOpen e.2 = true := by
    intro pc hpce
    refine h.pipes.ends.free hends ?_ (fun y hy => ?_) fun e => ?_
    · simp [State.ends, State.goto, hpce]
    · rcases y with g | q
      · rfl
      · have hq : q ≠ p := fun he => hy (by rw [he])
        simp [State.ends, State.goto, hq]
    · obtain ⟨pg', w'⟩ := e
      by_cases hpg : pg' = pg
      · subst hpg
        simp [hopen', and_assoc]
      · simp [hpg]
  split
  · next hboth =>
    refine ⟨procs_own h.procs hact rfl (ofile_self s p) rfl (own_kfree.mpr hown) (by simp [Pc.kid]),
      files_after h.files rfl rfl rfl (by rw [hold_kfree, hhold]) (fun _ => id), ⟨hgive _ rfl, ?_, h.pipes.count⟩, h.calm⟩
    refine h.pipes.shut.alloc (o := p) (r := pg) ?_ ?_ hshut (fun q hq => ?_) fun pg' => ?_
    · rintro ⟨-, hclosed⟩
      rw [isOpen_none.mp hclosed w] at hopen
      cases hopen
    · simp [State.goto, Pc.shut]
    · simp [State.goto, hq]
    · by_cases hpg : pg' = pg
      · subst hpg
        simp [State.goto, hlive, hboth]
      · simp [State.goto, hpg]
  · next hone =>
    refine ⟨procs_own h.procs hact rfl (ofile_self s p) rfl hown (by simp),
      files_after h.files rfl rfl rfl hhold.symm (fun _ => fresh_pc), ⟨hgive _ (by simp), ?_, h.pipes.count⟩, h.calm⟩
    refine h.pipes.shut.congr (fun q => ?_) fun pg' => ?_
    · by_cases hq : q = p
      · rw [hq, hshut]
        simp [State.goto]
      · simp [State.goto, hq]
    · by_cases hpg : pg' = pg
      · subst hpg
        simp only [State.goto, update_self, hone, and_false, false_iff]
        rintro ⟨-, hclosed⟩
        rw [isOpen_none.mp hclosed w] at hopen
        cases hopen
      · simp [State.goto, hpg]

theorem inv_kfree {pg : Nat} (h : Inv s) (hpc : s.pc p = .kfree pg k) : Inv ((kfree s pg).goto p k.pc) := by
  have hact := h.procs.active p (by simp [hpc])
  have hown := h.procs.own p
  rw [hpc, own_kfree] at hown
  have hhold : hold (s.pc p) (s.ofile p) = hold (k.pc : Pc n) (s.ofile p) := by rw [hpc, hold_kfree]
  have hshut : (s.pc p).shut = some pg := by rw [hpc]; rfl
  obtain ⟨hlive, hclosed⟩ := h.pipes.shut.in_use (o := p) hshut
  refine ⟨procs_own h.procs hact rfl (ofile_self s p) rfl hown (by simp),
    files_after h.files rfl rfl rfl hhold.symm (fun _ => fresh_pc), ⟨?_, ?_, fun pg' => ?_⟩, h.calm⟩
  · refine h.pipes.ends.congr (fun y => ?_) fun e => ?_
    · rcases y with g | q
      · rfl
      · by_cases hq : q = p
        · rw [hq]
          simp only [State.ends, State.goto, update_self, ends_pc, hpc]
          rfl
        · simp [State.ends, State.goto, kfree, hq]
    · by_cases hpg : e.1 = pg
      · simp [State.goto, kfree, hpg, isOpen_none.mp hclosed]
      · simp [State.goto, kfree, hpg]
  · refine h.pipes.shut.free (o := p) hshut ?_ (fun q hq => ?_) fun pg' => ?_
    · simp [State.goto]
    · simp [State.goto, kfree, hq]
    · by_cases hpg : pg' = pg
      · simp [State.goto, kfree, hpg]
      · simp [State.goto, kfree, hpg]
  · have hcount := h.pipes.count pg'
    by_cases hpg : pg' = pg
    · subst hpg
      simp [State.goto, kfree, hcount, hlive]
    · simp [State.goto, kfree, hcount, hpg]

/-! ## A new pipe -/

theorem inv_pipeinit {pg : Nat} {f0 f1 : Fin NFILE} (h : Inv s) (hpc : s.pc p = .pipeKalloc f0 f1)
    (hlive : s.live pg = false) : Inv ((pipeinit s pg f0 f1).goto p (.pipeFd0 f0 f1)) := by
  have hact := h.procs.active p (by simp [hpc])
  have hfirst : s.holder (p, .inr false) = some f0 := by simp [State.holder, hold, hpc, Pc.first]
  have hsecond : s.holder (p, .inr true) = some f1 := by simp [State.holder, hold, hpc, Pc.second]
  obtain ⟨href0, htype0⟩ := h.files.fresh p f0 (by rw [hpc]; exact .inl rfl)
  obtain ⟨href1, htype1⟩ := h.files.fresh p f1 (by rw [hpc]; exact .inr rfl)
  have hne : f1 ≠ f0 := by
    rintro rfl
    cases h.files.refs.only href0 hfirst hsecond
  have hends0 : s.ends (.inl f0) = none := by simp [State.ends, File.ends, htype0]
  have hends1 : s.ends (.inl f1) = none := by simp [State.ends, File.ends, htype1]
  have hfile : ∀ g, g ≠ f0 → g ≠ f1 → ((pipeinit s pg f0 f1).file g) = s.file g := fun g h0 h1 => by
    simp [pipeinit, State.setFile, h0, h1]
  have href : ∀ g, ((pipeinit s pg f0 f1).file g).ref = (s.file g).ref := by
    intro g
    by_cases h0 : g = f0
    · subst h0
      simp [pipeinit, State.setFile, Ne.symm hne]
    · by_cases h1 : g = f1
      · subst h1
        simp [pipeinit, State.setFile, hne]
      · rw [hfile g h0 h1]
  refine ⟨procs_own h.procs hact rfl (ofile_self s p) rfl trivial (by simp [Pc.kid]), ⟨?_, fun g hg => ?_, fun q g hq => ?_⟩,
    ⟨?_, ?_, fun pg' => ?_⟩, h.calm⟩
  · refine h.files.refs.congr (fun y => ?_) href
    obtain ⟨q, y⟩ := y
    by_cases hq : q = p
    · subst hq
      rcases y with fd' | b
      · simp [State.holder, hold, State.goto, pipeinit, State.setFile, hpc, Pc.pending]
      · cases b <;> simp [State.holder, hold, State.goto, hpc, Pc.first, Pc.second]
    · simp [State.holder, State.goto, pipeinit, State.setFile, hq]
  · rw [show (((pipeinit s pg f0 f1).goto p (.pipeFd0 f0 f1)).file g).ref = (s.file g).ref from href g]
    by_cases h0 : g = f0
    · rw [h0, href0]
      exact Nat.one_pos
    · by_cases h1 : g = f1
      · rw [h1, href1]
        exact Nat.one_pos
      · refine h.files.typed g ?_
        rwa [show ((pipeinit s pg f0 f1).goto p (.pipeFd0 f0 f1)).file g = s.file g from hfile g h0 h1] at hg
  · have hqp : q ≠ p := by
      rintro rfl
      simp [State.goto, Pc.Fresh] at hq
    have hold : (s.pc q).Fresh g := by simpa [State.goto, pipeinit, State.setFile, hqp] using hq
    have h0 : g ≠ f0 := by
      rintro rfl
      exact h.fresh_other hqp hold (.inr ⟨_, hfirst⟩)
    have h1 : g ≠ f1 := by
      rintro rfl
      exact h.fresh_other hqp hold (.inr ⟨_, hsecond⟩)
    rw [show ((pipeinit s pg f0 f1).goto p (.pipeFd0 f0 f1)).file g = s.file g from hfile g h0 h1]
    exact h.files.fresh q g hold
  · -- the read end, then the write end
    have hread : Owned (fun _ => False) (update s.ends (.inl f0) (some (pg, false)))
        fun e => (s.live e.1 = true ∧ (s.pipe e.1).isOpen e.2 = true) ∨ e = (pg, false) :=
      h.pipes.ends.alloc (o := .inl f0) (by simp [hlive]) (update_self ..) hends0
        (fun y hy => update_of_ne hy _ _) fun _ => Iff.rfl
    refine hread.alloc (o := .inl f1) (r := (pg, true)) (by simp [hlive]) ?_ ?_ (fun y hy => ?_) fun e => ?_
    · simp [State.ends, State.goto, pipeinit, State.setFile, File.ends]
    · rw [update_of_ne (by simp [hne])]
      exact hends1
    · by_cases hy0 : y = .inl f0
      · subst hy0
        simp [State.ends, State.goto, pipeinit, State.setFile, File.ends, Ne.symm hne]
      · rw [update_of_ne hy0]
        rcases y with g | q
        · have h0 : g ≠ f0 := fun he => hy0 (by rw [he])
          have h1 : g ≠ f1 := fun he => hy (by rw [he])
          simp [State.ends, State.goto, pipeinit, State.setFile, h0, h1]
        · by_cases hq : q = p
          · subst hq
            simp [State.ends, State.goto, hpc, Pc.ends]
          · simp [State.ends, State.goto, pipeinit, State.setFile, hq]
    · obtain ⟨pg', w⟩ := e
      by_cases hpg : pg' = pg
      · subst hpg
        cases w <;> simp [State.goto, pipeinit, State.setFile, Pipe.isOpen, hlive]
      · simp [State.goto, pipeinit, State.setFile, hpg]
  · refine h.pipes.shut.congr (fun q => ?_) fun pg' => ?_
    · by_cases hq : q = p
      · subst hq
        simp [State.goto, hpc, Pc.shut]
      · simp [State.goto, pipeinit, State.setFile, hq]
    · by_cases hpg : pg' = pg
      · subst hpg
        simp [State.goto, pipeinit, State.setFile, hlive]
      · simp [State.goto, pipeinit, State.setFile, hpg]
  · have hcount := h.pipes.count pg'
    by_cases hpg : pg' = pg
    · subst hpg
      simp [State.goto, pipeinit, State.setFile, hcount, hlive]
    · simp [State.goto, pipeinit, State.setFile, hcount, hpg]

/-! ## Processes come and go -/

theorem procs_state {r : Fin n} {st : ProcState} (h : Procs s) (hpc : s'.pc = update s.pc p pc)
    (ho : s'.ofile = s.ofile) (hst : s'.state = update s.state r st) (hown : pc.Own (s.ofile p))
    (hact : pc ≠ .user → p ≠ r ∧ s.state p = .ACTIVE) (hr : r ≠ p → s.pc r = .user)
    (hempty : st = .UNUSED ∨ st = .ZOMBIE → ∀ fd, s.ofile r fd = none)
    (hkid : ∀ np i, pc.kid = some (np, i) → np = r ∧ st = .EMBRYO ∧ ∀ fd : Fin NOFILE, i ≤ fd.val → s.ofile r fd = none)
    (hno : ∀ q i, q ≠ p → (s.pc q).kid ≠ some (r, i)) : Procs s' := by
  have hpcq : ∀ q, q ≠ p → s'.pc q = s.pc q := fun q hq => by rw [hpc, update_of_ne hq]
  have hpcp : s'.pc p = pc := by rw [hpc, update_self]
  have hstq : ∀ q, q ≠ r → s'.state q = s.state q := fun q hq => by rw [hst, update_of_ne hq]
  have hstr : s'.state r = st := by rw [hst, update_self]
  refine ⟨fun q => ?_, fun q hq => ?_, fun q hq fd => ?_, fun q np i hq => ?_, fun q q' np i j hq hq' => ?_⟩
  · rw [ho]
    by_cases hqp : q = p
    · rw [hqp, hpcp]
      exact hown
    · rw [hpcq q hqp]
      exact h.own q
  · by_cases hqp : q = p
    · rw [hqp, hpcp] at hq
      obtain ⟨hpr, hactive⟩ := hact hq
      rw [hqp, hstq p hpr, hactive]
    · rw [hpcq q hqp] at hq
      have hqr : q ≠ r := by
        rintro rfl
        exact hq (hr hqp)
      rw [hstq q hqr]
      exact h.active q hq
  · rw [ho]
    by_cases hqr : q = r
    · rw [hqr, hstr] at hq
      rw [hqr]
      exact hempty hq fd
    · rw [hstq q hqr] at hq
      exact h.empty q hq fd
  · rw [ho]
    by_cases hqp : q = p
    · rw [hqp, hpcp] at hq
      obtain ⟨rfl, hst, hnone⟩ := hkid np i hq
      exact ⟨hstr.trans hst, hnone⟩
    · rw [hpcq q hqp] at hq
      have hnr : np ≠ r := by
        rintro rfl
        exact hno q i hqp hq
      rw [hstq np hnr]
      exact h.kid q np i hq
  · -- only `p` makes a child in the slot `r`
    by_cases hqp : q = p <;> by_cases hqp' : q' = p
    · rw [hqp, hqp']
    · rw [hqp, hpcp] at hq
      rw [hpcq q' hqp'] at hq'
      exact absurd ((hkid np i hq).1 ▸ hq') (hno q' j hqp')
    · rw [hqp', hpcp] at hq'
      rw [hpcq q hqp] at hq
      exact absurd ((hkid np j hq').1 ▸ hq) (hno q i hqp)
    · rw [hpcq q hqp] at hq
      rw [hpcq q' hqp'] at hq'
      exact h.one q q' np i j hq hq'

theorem inv_state {r : Fin n} {st : ProcState} (h : Inv s) (hprocs : Procs ((s.setState r st).goto p pc))
    (hhold : hold pc (s.ofile p) = hold (s.pc p) (s.ofile p)) (hfresh : ∀ g, ¬ pc.Fresh g)
    (hends : pc.ends = (s.pc p).ends) (hshut : pc.shut = (s.pc p).shut) : Inv ((s.setState r st).goto p pc) :=
  ⟨hprocs, files_after h.files rfl rfl rfl hhold hfresh,
    pipes_quiet h.pipes rfl (fun _ => rfl) rfl rfl rfl rfl hends hshut, h.calm⟩

/-- A process that has nothing in hand. -/
def Pc.Bare (pc : Pc n) : Prop := pc.pending = none ∧ pc.first = none ∧ pc.second = none

theorem hold_bare {pc' : Pc n} (h : pc.Bare) (h' : pc'.Bare) : hold pc o = hold pc' o := by
  funext x
  rcases x with fd | b
  · simp [hold, h.1, h'.1]
  · cases b
    · simp [hold, h.2.1, h'.2.1]
    · simp [hold, h.2.2, h'.2.2]

theorem Procs.no_kid (h : Procs s) {r : Fin n} (hr : s.state r ≠ .EMBRYO) (q : Fin n) (i : Nat) :
    (s.pc q).kid ≠ some (r, i) := fun hq => hr (h.kid q r i hq).1

theorem Procs.user_of_not_active (h : Procs s) (hp : s.state p ≠ .ACTIVE) : s.pc p = .user := by
  by_contra hne
  exact hp (h.active p hne)

theorem inv_fork (h : Inv s) (hact : s.state p = .ACTIVE) (hpc : s.pc p = .user) (hnp : s.state np = .UNUSED) :
    Inv ((s.setState np .EMBRYO).goto p (.forkCopy np)) := by
  have hne : np ≠ p := by
    rintro rfl
    rw [hact] at hnp
    cases hnp
  refine inv_state h (procs_state h.procs rfl rfl rfl trivial (fun _ => ⟨Ne.symm hne, hact⟩)
    (fun _ => h.procs.user_of_not_active (by simp [hnp])) (by simp) (fun np' i hkid => ?_)
    (fun q i _ => h.procs.no_kid (by simp [hnp]) q i)) (by rw [hpc]; exact hold_bare ⟨rfl, rfl, rfl⟩ ⟨rfl, rfl, rfl⟩)
    (fun _ => id) (by rw [hpc]; rfl) (by rw [hpc]; rfl)
  cases hkid
  exact ⟨rfl, rfl, fun fd _ => h.procs.empty np (.inl hnp) fd⟩

theorem inv_forkEnd {i : Nat} {st : ProcState} (h : Inv s) (hkid : (s.pc p).kid = some (np, i))
    (hst : st = .ACTIVE ∨ st = .UNUSED ∧ i = 0) : Inv ((s.setState np st).goto p .user) := by
  obtain ⟨hemb, hnone⟩ := h.procs.kid p np i hkid
  have hbare : (s.pc p).Bare ∧ (s.pc p).ends = none ∧ (s.pc p).shut = none := by
    cases hpc : s.pc p <;> rw [hpc] at hkid <;> first | exact ⟨⟨rfl, rfl, rfl⟩, rfl, rfl⟩ | cases hkid
  refine inv_state h (procs_state h.procs rfl rfl rfl trivial (fun hc => absurd rfl hc)
    (fun _ => h.procs.user_of_not_active (by simp [hemb])) (fun hempty fd => ?_) (by simp [Pc.kid])
    (fun q j hq hkid' => hq (h.procs.one q p np j i hkid' hkid))) (hold_bare ⟨rfl, rfl, rfl⟩ hbare.1) (fun _ => id)
    hbare.2.1.symm hbare.2.2.symm
  rcases hst with rfl | ⟨-, rfl⟩
  · rcases hempty with hempty | hempty <;> cases hempty
  · exact hnone fd (Nat.zero_le _)

theorem inv_forkDup {i : Nat} (h : Inv s) (hpc : s.pc p = .forkDup np i) (hi : i < NOFILE)
    (hf : s.ofile p ⟨i, hi⟩ = some f) :
    Inv (((filedup s f).setOfile np ⟨i, hi⟩ (some f)).goto p (.forkDup np (i + 1))) := by
  have hact := h.procs.active p (by simp [hpc])
  obtain ⟨hemb, hnone⟩ := h.procs.kid p np i (by rw [hpc]; rfl)
  have hne : np ≠ p := by
    rintro rfl
    rw [hact] at hemb
    cases hemb
  have hnpc := h.procs.user_of_not_active (p := np) (by simp [hemb])
  have hheld : s.holder (p, .inl ⟨i, hi⟩) = some f := by simp [State.holder, hold, hpc, Pc.pending, hf]
  have hpos := h.files.refs.pos hheld
  simp only [filedup, Nat.not_lt.mpr (Nat.succ_le_of_lt hpos), if_false]
  refine ⟨?_, ?_, pipes_quiet h.pipes rfl (ends_set rfl rfl) rfl rfl rfl rfl (by rw [hpc]; rfl) (by rw [hpc]; rfl), h.calm⟩
  · -- the child of `p` has one descriptor more
    generalize hs' : ((s.setRef f ((s.file f).ref + 1)).setOfile np ⟨i, hi⟩ (some f)).goto p (.forkDup np (i + 1)) = s'
    have hst : s'.state = s.state := by rw [← hs']; rfl
    have hpcp : s'.pc p = .forkDup np (i + 1) := by rw [← hs']; simp [State.goto]
    have hpcq : ∀ q, q ≠ p → s'.pc q = s.pc q := fun q hq => by
      rw [← hs']
      simp [State.goto, State.setOfile, State.setRef, State.setFile, hq]
    have hoq : ∀ q, q ≠ np → s'.ofile q = s.ofile q := fun q hq => by
      rw [← hs']
      simp [State.goto, State.setOfile, State.setRef, State.setFile, hq]
    have honp : ∀ fd : Fin NOFILE, fd.val ≠ i → s'.ofile np fd = s.ofile np fd := fun fd hfd => by
      have : fd ≠ ⟨i, hi⟩ := fun he => hfd (by rw [he])
      rw [← hs']
      simp [State.goto, State.setOfile, State.setRef, State.setFile, this]
    have hback : ∀ q r j, (s'.pc q).kid = some (r, j) → ∃ j', (s.pc q).kid = some (r, j') ∧ j' ≤ j ∧
        (r = np → j' < j) := by
      intro q r j hq
      by_cases hqp : q = p
      · rw [hqp, hpcp] at hq
        cases hq
        exact ⟨i, by rw [hqp, hpc]; rfl, by omega, fun _ => by omega⟩
      · rw [hpcq q hqp] at hq
        refine ⟨j, hq, le_rfl, ?_⟩
        rintro rfl
        exact absurd (h.procs.one q p r j i hq (by rw [hpc]; rfl)) hqp
    refine ⟨fun q => ?_, fun q hq => ?_, fun q hq fd => ?_, fun q r j hq => ?_, fun q q' r j j' hq hq' => ?_⟩
    · by_cases hqp : q = p
      · rw [hqp, hpcp]
        trivial
      · rw [hpcq q hqp]
        by_cases hqn : q = np
        · rw [hqn, hnpc]
          trivial
        · rw [hoq q hqn]
          exact h.procs.own q
    · rw [hst]
      by_cases hqp : q = p
      · rw [hqp, hact]
      · rw [hpcq q hqp] at hq
        exact h.procs.active q hq
    · rw [hst] at hq
      have hqn : q ≠ np := by
        rintro rfl
        rw [hemb] at hq
        rcases hq with hq | hq <;> cases hq
      rw [hoq q hqn]
      exact h.procs.empty q hq fd
    · obtain ⟨j', hj, hle, hlt⟩ := hback q r j hq
      obtain ⟨hremb, hrnone⟩ := h.procs.kid q r j' hj
      refine ⟨by rw [hst]; exact hremb, fun fd hfd => ?_⟩
      by_cases hrn : r = np
      · subst hrn
        obtain rfl := h.procs.one q p r j' i hj (by rw [hpc]; rfl)
        rw [hpc] at hj
        cases hj
        have := hlt rfl
        rw [honp fd (by omega)]
        exact hrnone fd (by omega)
      · rw [hoq r hrn]
        exact hrnone fd (by omega)
    · obtain ⟨i1, h1, -⟩ := hback q r j hq
      obtain ⟨i2, h2, -⟩ := hback q' r j' hq'
      exact h.procs.one q q' r i1 i2 h1 h2
  · refine files_set h rfl rfl (.inr ⟨_, hheld⟩) ?_ (fun _ => Nat.succ_pos _) (fun _ hg => hg.elim)
    refine h.files.refs.add (o := (np, .inl ⟨i, hi⟩)) (r := f) ?_ ?_ (fun y hy => ?_) ?_ (ref_set rfl)
    · simp [State.holder, hold, hnpc, Pc.pending, hnone]
    · simp [State.holder, hold, State.goto, State.setOfile, State.setRef, State.setFile, hne, hnpc, Pc.pending]
    · obtain ⟨q, y⟩ := y
      by_cases hqp : q = p
      · subst hqp
        have hbare : hold (.forkDup np (i + 1)) (s.ofile q) y = hold (s.pc q) (s.ofile q) y := by
          rw [hpc]
          exact congrFun (hold_bare ⟨rfl, rfl, rfl⟩ ⟨rfl, rfl, rfl⟩) y
        simpa [State.holder, State.goto, State.setOfile, State.setRef, State.setFile, Ne.symm hne] using hbare
      · by_cases hqn : q = np
        · subst hqn
          rcases y with fd | b
          · have hfd : fd ≠ ⟨i, hi⟩ := fun he => hy (by rw [he])
            simp [State.holder, hold, State.goto, State.setOfile, State.setRef, State.setFile, hqp, hfd]
          · cases b <;> simp [State.holder, hold, State.goto, State.setOfile, State.setRef, State.setFile, hqp]
        · simp [State.holder, State.goto, State.setOfile, State.setRef, State.setFile, hqp, hqn]
    · simp [State.goto, State.setOfile, State.setRef, State.setFile]

theorem inv_exit {fd : Nat} (h : Inv s) (hpc : s.pc p = .exitFd fd) (hfd : ¬ fd < NOFILE) :
    Inv ((s.setState p .ZOMBIE).goto p .user) := by
  have hact := h.procs.active p (by simp [hpc])
  have hown := h.procs.own p
  rw [hpc] at hown
  exact inv_state h (procs_state h.procs rfl rfl rfl trivial (fun hc => absurd rfl hc) (fun hc => absurd rfl hc)
    (fun _ fd' => hown fd' (by omega)) (by simp [Pc.kid]) (fun q i _ => h.procs.no_kid (by simp [hact]) q i))
    (by rw [hpc]; exact hold_bare ⟨rfl, rfl, rfl⟩ ⟨rfl, rfl, rfl⟩) (fun _ => id) (by rw [hpc]; rfl) (by rw [hpc]; rfl)

theorem inv_wait {z : Fin n} (h : Inv s) (hpc : s.pc p = .user) (hz : s.state z = .ZOMBIE) :
    Inv (s.setState z .UNUSED) := by
  have hgoto : s.setState z .UNUSED = (s.setState z .UNUSED).goto p .user := by
    simp only [State.goto, State.setState]
    rw [← hpc, update_eq_self]
  rw [hgoto]
  exact inv_state h (procs_state h.procs rfl rfl rfl trivial (fun hc => absurd rfl hc)
    (fun _ => h.procs.user_of_not_active (by simp [hz])) (fun _ => h.procs.empty z (.inr hz)) (by simp [Pc.kid])
    (fun q i _ => h.procs.no_kid (by simp [hz]) q i)) (by rw [hpc]) (fun _ => id) (by rw [hpc]) (by rw [hpc])

end Xv6.File
