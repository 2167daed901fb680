import Xv6.Sys.Copyout
import Xv6.Sys.Load

/-!
# A failed `exec`

The whole of `exec.c`: besides the memory, the calls that take and release the inode and the
transaction, the name and the trap frame. An `exec` that returns -1 leaves no trace.
-/

open Xv6.Cmd Xv6.Pool Xv6.Run Xv6.Vm

namespace Xv6.Sys

variable {ld : Linker} {d d' : PgDir} {m m' : Machine} {i : Fin NPROC} {p : Proc} {sz : Nat}

/-! ## The call -/

/-- The calls of `log.c` and `fs.c` that `exec` makes. `namei` stands for one that finds an inode. -/
inductive FsCall
  | begin_op
  | namei
  | ilock
  | iunlockput
  | end_op
  deriving DecidableEq

/-- The machine, with the rest of the calling process and the calls that were made. -/
structure Caller where
  mach : Machine
  name : List UInt8
  eip : Nat
  esp : Nat
  calls : List FsCall

abbrev E := Cmd Stop Caller

def onMach {α : Type} (x : M α) : E α := zoom Caller.mach (fun k m => { k with mach := m }) x

def fsCall (c : FsCall) : E Unit := fun k => .ok ((), { k with calls := k.calls ++ [c] })

/-- The loop that finds the last element of the path. -/
def lastElem : List UInt8 → List UInt8 → List UInt8
  | last, [] => last
  | last, c :: s => lastElem (if c = 47 then s else last) s

/-- `elf.entry` -/
def elfEntry (ip : List UInt8) : Nat := number ip 24 4

/-- The label `bad`: the page table, if there is one, and whether the inode is still held. -/
def bad (ld : Linker) (pgdir : Option PgDir) (ip : Bool) : E Bool := do
  match pgdir with
  | none => pure ()
  | some d => onMach (onPhys (freevm ld d))
  if ip then do
    fsCall .iunlockput
    fsCall .end_op
    pure false
  else pure false

/-- The argument phase and the commit. -/
def execArgs (ld : Linker) (i : Fin NPROC) (path ip : List UInt8) (argv : List (List UInt8)) (d : PgDir)
    (sz : Nat) : E Bool := do
  let (d, r) ← onMach (pushArgs ld i argv d sz [])
  match r with
  | none => bad ld (some d) false
  | some (sp, ptrs) => do
    let (d, ok) ← onMach (copyout ld i d (ustackAddr sp ptrs) ((ustackWords sp ptrs).flatMap wordBytes))
    if ok then do
      (fun k => .ok ((), { k with name := (lastElem path path).take 15 }) : E Unit)
      (fun k => .ok ((), { k with eip := elfEntry ip, esp := ustackAddr sp ptrs }) : E Unit)
      onMach (commitImage ld i d sz)
    else bad ld (some d) false

/-- `exec` of the file `ip`, if `path` names one. `false` stands for -1. -/
def execCall (ld : Linker) (i : Fin NPROC) (path : List UInt8) (ip : Option (List UInt8))
    (argv : List (List UInt8)) : E Bool := do
  fsCall .begin_op
  match ip with
  | none => do
    fsCall .end_op
    pure false
  | some ip => do
    fsCall .namei
    fsCall .ilock
    match ← onMach (onPhys (loadFileBy loaduvm ld ip)) with
    | none => bad ld none true
    | some (d, none) => bad ld (some d) true
    | some (d, some sz) => do
      fsCall .iunlockput
      fsCall .end_op
      match ← onMach (onPhys (stackPages ld d sz)) with
      | (d, none) => bad ld (some d) false
      | (d, some sz) => execArgs ld i path ip argv d sz

/-! ## Its memory part is `exec` -/

theorem onMach_of_ok {α : Type} {x : M α} {k : Caller} {a : α} (h : x k.mach = .ok (a, m')) :
    onMach x k = .ok (a, { k with mach := m' }) := zoom_of_ok h

theorem onMach_of_error {α : Type} {x : M α} {k : Caller} {e : Stop} (h : x k.mach = .error e) :
    onMach x k = .error e := by
  simp [onMach, zoom, h]

/-- The result and the machine that it leaves. -/
def erase (x : Except Stop (Bool × Caller)) : Except Stop (Bool × Machine) := x.map fun r => (r.1, r.2.mach)

theorem erase_onMach {α : Type} (x : M α) (f : α → E Bool) (g : α → M Bool) (k : Caller)
    (h : ∀ a m, erase (f a { k with mach := m }) = g a m) :
    erase ((onMach x >>= f) k) = (x >>= g) k.mach := by
  cases hx : x k.mach with
  | error e => rw [bind_of_error (onMach_of_error hx), bind_of_error hx]; rfl
  | ok r => rw [bind_of_ok (onMach_of_ok hx), bind_of_ok hx, h]

theorem erase_onMach_end (x : M Bool) (k : Caller) : erase (onMach x k) = x k.mach := by
  cases hx : x k.mach with
  | error e => rw [onMach_of_error hx]; rfl
  | ok r => rw [onMach_of_ok hx]; rfl

theorem bind_fsCall (c : FsCall) (f : E Bool) (k : Caller) :
    (fsCall c >>= fun _ => f) k = f { k with calls := k.calls ++ [c] } := rfl

theorem erase_bad_some (k : Caller) (d : PgDir) (b : Bool) :
    erase (bad ld (some d) b k) = (do onPhys (freevm ld d); pure false : M Bool) k.mach := by
  unfold bad
  refine erase_onMach _ _ _ k fun _ m => ?_
  cases b <;> rfl

theorem erase_execArgs (path ip : List UInt8) (argv : List (List UInt8)) (d : PgDir) (sz : Nat) (k : Caller) :
    erase (execArgs ld i path ip argv d sz k) = (do
      let (d, ok) ← pushStack ld i argv d sz
      if ok then commitImage ld i d sz
      else do
        onPhys (freevm ld d)
        pure false : M Bool) k.mach := by
  unfold execArgs pushStack
  rw [bind_assoc]
  refine erase_onMach _ _ _ k fun x m => ?_
  obtain ⟨d1, r⟩ := x
  cases r with
  | none => exact erase_bad_some _ _ _
  | some y =>
    refine erase_onMach _ _ _ _ fun z m2 => ?_
    obtain ⟨d2, ok⟩ := z
    cases ok with
    | false => exact erase_bad_some _ _ _
    | true =>
      dsimp only
      rw [if_pos rfl, if_pos rfl]
      exact erase_onMach_end _ _

theorem onPhys_bind {α β : Type} (x : K α) (f : α → K β) :
    onPhys (x >>= f) = onPhys x >>= fun a => onPhys (f a) := by
  funext m
  cases hx : x m.phys with
  | error e =>
    rw [bind_of_error (show onPhys x m = .error e by simp [onPhys, zoom, hx])]
    simp [onPhys, zoom, bind_of_error hx]
  | ok r =>
    rw [bind_of_ok (onPhys_of_ok hx)]
    simp [onPhys, zoom, bind_of_ok hx]

theorem erase_execCall (ld : Linker) (i : Fin NPROC) (path : List UInt8) (ip : Option (List UInt8))
    (argv : List (List UInt8)) (k : Caller) :
    erase (execCall ld i path ip argv k) = exec ld i ip argv k.mach := by
  unfold execCall exec
  cases ip with
  | none => rfl
  | some ip =>
    rw [bind_fsCall]
    dsimp only
    rw [bind_fsCall, bind_fsCall, ← loadImageBy_loaduvm, loadImageBy, onPhys_bind, bind_assoc]
    refine erase_onMach _ _ _ _ fun x m => ?_
    match x with
    | none => rfl
    | some (d, none) => exact erase_bad_some _ _ _
    | some (d, some sz) =>
      dsimp only
      rw [bind_fsCall, bind_fsCall, onPhys_bind, bind_assoc]
      refine erase_onMach _ _ _ _ fun y m => ?_
      match y with
      | (d, none) => exact erase_bad_some _ _ _
      | (d, some sz) => exact erase_execArgs _ _ _ _ _ _

/-! ## The argument phase in one step -/

theorem pushArgs_addrs {argv : List (List UInt8)} {sp sp' : Nat} {ustack l : List Nat}
    (h : pushArgs ld i argv d sp ustack m = .ok ((d', some (sp', l)), m')) :
    sp' = stringsEnd sp argv ∧ l = ustack ++ stringAddrs sp argv := by
  induction argv generalizing m d sp ustack with
  | nil =>
    obtain ⟨-, hr, -⟩ := pure_pair_ok h
    obtain ⟨rfl, rfl⟩ := Prod.mk.inj (Option.some.inj hr)
    simp [stringsEnd, stringAddrs]
  | cons arg argv ih =>
    unfold pushArgs at h
    split at h
    · obtain ⟨-, hr, -⟩ := pure_pair_ok h
      cases hr
    · obtain ⟨⟨d1, ok⟩, m1, -, h⟩ := bind_ok h
      dsimp only at h
      split at h
      · obtain ⟨h1, h2⟩ := ih h
        exact ⟨h1, by rw [h2, List.append_assoc]; rfl⟩
      · obtain ⟨-, hr, -⟩ := pure_pair_ok h
        cases hr

theorem execArgs_eq {path ip : List UInt8} {argv : List (List UInt8)} {k : Caller} {ok : Bool}
    (h : pushStack ld i argv d sz k.mach = .ok ((d', ok), m')) :
    execArgs ld i path ip argv d sz k =
      if ok then onMach (commitImage ld i d' sz)
        { mach := m', name := (lastElem path path).take 15, eip := elfEntry ip, esp := espOf sz argv,
          calls := k.calls }
      else bad ld (some d') false { k with mach := m' } := by
  unfold pushStack at h
  unfold execArgs
  obtain ⟨⟨d1, r⟩, m1, hargs, h⟩ := bind_ok h
  rw [bind_of_ok (onMach_of_ok hargs)]
  cases r with
  | none =>
    obtain ⟨rfl, rfl, rfl⟩ := pure_pair_ok h
    rfl
  | some x =>
    obtain ⟨sp, ptrs⟩ := x
    obtain ⟨rfl, rfl⟩ := pushArgs_addrs hargs
    have hcopy := onMach_of_ok (k := { k with mach := m1 })
      (show copyout ld i d1 (ustackAddr (stringsEnd sz argv) (stringAddrs sz argv))
        ((ustackWords (stringsEnd sz argv) (stringAddrs sz argv)).flatMap wordBytes) m1 = _ from h)
    dsimp only
    rw [List.nil_append, bind_of_ok hcopy]
    cases ok <;> rfl

/-! ## What a failed call leaves behind -/

/-- Every process has its memory as before, and so have the allocator and the counts. -/
structure Untouched (m m' : Machine) : Prop where
  proc : ∀ j p, m.proc j = some p → ∃ p', m'.proc j = some p' ∧ p'.sz = p.sz ∧ p.pgdir.Same p'.pgdir ∧
    ∀ va < KERNBASE, (p.pgdir.get va).present = true →
      Phys.byte m'.phys p'.pgdir va = Phys.byte m.phys p.pgdir va
  free : m'.phys.freelist.Perm m.phys.freelist
  refc : ∀ q, m'.phys.refc_cnt q = m.phys.refc_cnt q

theorem same_pool {s s' : Phys} {own sh own' sh' : Nat → Nat} (h : Acct (Managed ld) s own sh)
    (h' : Acct (Managed ld) s' own' sh') (hrefs : ∀ q, own' q = own q ∧ sh' q = sh q)
    (hc : CountsKept (Managed ld) s s') :
    s'.freelist.Perm s.freelist ∧ ∀ q, s'.refc_cnt q = s.refc_cnt q := by
  constructor
  · refine (List.perm_ext_iff_of_nodup h'.nodup h.nodup).mpr fun q => ?_
    rw [h.mem, h'.mem, (hrefs q).1, (hrefs q).2]
  · intro q
    by_cases hq : Managed ld q
    · rw [h.count q hq, h'.count q hq, (hrefs q).1, (hrefs q).2]
    · exact hc q hq

theorem shared_pos {j : Fin NPROC} {va : Nat} (hp : m.proc j = some p) (hva : va < KERNBASE)
    (hpr : (p.pgdir.get va).present = true) : 0 < m.shared (p.pgdir.get va).ppn := by
  have hpos := PgDir.userRefs_pos hpr hva
  rw [shared_eq m j, hp, userOf]
  omega

theorem untouched_of_load {ph : Phys} (h : Inv ld m) (ha : Acct (Managed ld) ph m.own m.shared)
    (hk : Kept (m.own + m.shared) m.phys ph) (hc : CountsKept (Managed ld) m.phys ph) :
    Untouched m { m with phys := ph } := by
  obtain ⟨hfree, hrefc⟩ := same_pool h.acct ha (fun _ => ⟨rfl, rfl⟩) hc
  refine ⟨fun j p hp => ⟨p, hp, rfl, ⟨rfl, fun _ _ => rfl⟩, fun va hva hpr => ?_⟩, hfree, hrefc⟩
  have := shared_pos hp hva hpr
  unfold Phys.byte
  rw [hk _ (by simp only [Pi.add_apply]; omega)]

theorem untouched_of_bad {s0 ph ph' : Phys} {x : PgDir × Option Nat} (h : Inv ld m) (hs : s0 = m.phys)
    (hl : Loaded ld (Managed ld) m.own m.shared s0 x ph) (hf : freevm ld x.1 ph = .ok ((), ph')) :
    Untouched m { m with phys := ph' } := by
  subst hs
  obtain ⟨ha, hk⟩ := acct_freevm hl.acct hf
  exact untouched_of_load h ha (hl.kept.trans hk) (hl.counts.trans (freevm_counts hl.acct hf))

theorem untouched_of_stays {ph ph2 : Phys} {m1 : Machine} {d1 : PgDir} (h : Inv ld m)
    (hl : Loaded ld (Managed ld) m.own m.shared m.phys (d, some sz) ph)
    (hst : Stays ld sz { m with phys := ph } d m1 d1) (hf : freevm ld d1 m1.phys = .ok ((), ph2)) :
    Untouched m { m1 with phys := ph2 } := by
  obtain ⟨ha, hk⟩ := acct_freevm hst.building.acct hf
  have hcounts : CountsKept (Managed ld) m.phys ph2 := fun q hq => by
    rw [freevm_counts hst.building.acct hf q hq, hst.free.2]
    exact hl.counts q hq
  obtain ⟨hfree, hrefc⟩ := same_pool h.acct ha hst.refs hcounts
  refine ⟨fun j p hp => ?_, hfree, hrefc⟩
  have hslot := hst.written.rest.slot j (by simp)
  change SameSlot (m.proc j) (m1.proc j) at hslot
  rw [hp] at hslot
  cases hp1 : m1.proc j with
  | none => rw [hp1] at hslot; exact hslot.elim
  | some p1 =>
    rw [hp1] at hslot
    obtain ⟨p0, hp0, hsz, hget⟩ := hst.written.maps.proc j p1 hp1
    obtain rfl := Option.some.inj (hp.symm.trans hp0)
    refine ⟨p1, rfl, hsz, hslot.2, fun va hva hpr => ?_⟩
    have hpos := shared_pos hp hva hpr
    -- The page is none of the image.
    have hzero : d.userRefs (p.pgdir.get va).ppn = 0 := by
      by_contra hc
      obtain ⟨b, hb, hpb, hq⟩ := exists_of_userRefs_pos (Nat.pos_of_ne_zero hc)
      have := (hl.of_image.priv b hb hpb).2
      rw [hq] at this
      omega
    unfold Phys.byte
    rw [hget, hk _ (by simp only [Pi.add_apply, (hst.refs _).2]; exact Nat.add_pos_right _ hpos),
      hst.mem _ hzero]
    exact congrFun (hl.kept _ (by simp only [Pi.add_apply]; omega)) _

theorem bad_false {k k' : Caller} {pgdir : Option PgDir} {b r : Bool} (h : bad ld pgdir b k = .ok (r, k')) :
    r = false := by
  cases pgdir with
  | none => cases b <;> exact (Prod.mk.inj (Except.ok.inj h)).1.symm
  | some d =>
    obtain ⟨_, k1, -, h⟩ := bind_ok h
    cases b <;> exact (Prod.mk.inj (Except.ok.inj h)).1.symm

theorem bad_ok {k k' : Caller} {pgdir : Option PgDir} {b : Bool} (h : bad ld pgdir b k = .ok (false, k')) :
    k'.name = k.name ∧ k'.eip = k.eip ∧ k'.esp = k.esp ∧
    k'.calls = k.calls ++ (if b then [.iunlockput, .end_op] else []) ∧
    match pgdir with
    | none => k'.mach = k.mach
    | some d => ∃ ph, freevm ld d k.mach.phys = .ok ((), ph) ∧ k'.mach = { k.mach with phys := ph } := by
  cases pgdir with
  | none =>
    cases b <;> · obtain ⟨-, rfl⟩ := Prod.mk.inj (Except.ok.inj h)
                  simp
  | some d =>
    obtain ⟨_, k1, hf, h⟩ := bind_ok h
    obtain ⟨m1, hm, rfl⟩ := zoom_ok hf
    obtain ⟨ph, hph, rfl⟩ := zoom_ok hm
    cases b <;> · obtain ⟨-, rfl⟩ := Prod.mk.inj (Except.ok.inj h)
                  simp [hph]

/-- The calls of an `exec` that returns: the reference, the lock and the transaction that it takes are
released once. -/
def pairedCalls (ip : Option (List UInt8)) : List FsCall :=
  match ip with
  | none => [.begin_op, .end_op]
  | some _ => [.begin_op, .namei, .ilock, .iunlockput, .end_op]

theorem execArgs_fails {path ip : List UInt8} {argv : List (List UInt8)} {k k' : Caller} {s0 : Phys}
    (hm : Inv ld m) (hs : m.Started) (hk : k.mach = { m with phys := s0 })
    (hl : Loaded ld (Managed ld) m.own m.shared m.phys (d, some sz) s0)
    (hshort : ∀ arg ∈ argv, arg.length + 4 ≤ 0x2000000)
    (he : execArgs ld i path ip argv d sz k = .ok (false, k')) :
    k'.name = k.name ∧ k'.eip = k.eip ∧ k'.esp = k.esp ∧ k'.calls = k.calls ∧ Untouched m k'.mach := by
  have hb : Building ld k.mach d sz := by
    rw [hk]
    exact ⟨hl.acct, hm.wf, hm.excl, hs, hl.of_image⟩
  obtain ⟨d1, ok, m1, -, hpush, hst, -⟩ := pushStack_spec i hb hshort
  rw [execArgs_eq hpush] at he
  cases ok with
  | false =>
    rw [if_neg (by decide)] at he
    obtain ⟨h1, h2, h3, h4, ph2, hf, hmach⟩ := bad_ok he
    rw [hk] at hst
    refine ⟨h1, h2, h3, by simp [h4], ?_⟩
    rw [hmach]
    exact untouched_of_stays hm hl hst hf
  | true =>
    -- The commit returns 0.
    rw [if_pos rfl] at he
    obtain ⟨m3, hcommit, -⟩ := zoom_ok he
    obtain ⟨p, ph, -, -, hc, -⟩ := commitImage_ok hcommit
    cases hc

end Xv6.Sys
