import Xv6.Sys.Steps

/-!
# `fork`

A `fork` changes two slots. It keeps the invariant, because neither process can write afterwards.
-/

open Xv6.Cmd Xv6.Pool Xv6.Vm Function

namespace Xv6.Sys

variable {ld : Linker} {m m' : Machine} {i : Fin NPROC} {p : Proc}

theorem unused_none {j : Fin NPROC} (h : m.unused = some j) : m.proc j = none := by
  have := List.find?_some h
  simpa using this

theorem allocproc_cases {r : Option (Fin NPROC × Nat)} (h : allocproc m = .ok (r, m')) :
    (r = none ∧ m' = m) ∨
    (∃ ph, kalloc m.phys = .ok (none, ph) ∧ r = none ∧ m' = { m with phys := ph }) ∨
    ∃ j kstack ph, m.unused = some j ∧ kalloc m.phys = .ok (some kstack, ph) ∧ r = some (j, kstack) ∧
      m' = { m with phys := ph } := by
  unfold allocproc at h
  cases hu : m.unused with
  | none =>
    rw [hu] at h
    obtain ⟨rfl, rfl⟩ := Prod.mk.inj (Except.ok.inj h)
    exact .inl ⟨rfl, rfl⟩
  | some j =>
    rw [hu] at h
    obtain ⟨r1, ph, hk, h⟩ := bind_onPhys h
    cases r1 with
    | none =>
      obtain ⟨rfl, rfl⟩ := Prod.mk.inj (pure_ok h)
      exact .inr (.inl ⟨ph, hk, rfl, rfl⟩)
    | some kstack =>
      obtain ⟨rfl, rfl⟩ := Prod.mk.inj (pure_ok h)
      exact .inr (.inr ⟨j, kstack, ph, rfl, hk, rfl, rfl⟩)

/-- The process that `fork` puts into the new slot. -/
def childOf (p : Proc) (d : PgDir) (kstack : Nat) : Proc :=
  { sz := p.sz, pgdir := d, kstack := kstack, zombie := false }

theorem fork_cases {r : Bool} (h : fork ld i p m = .ok (r, m')) :
    (r = false ∧ m' = m) ∨
    (∃ ph, kalloc m.phys = .ok (none, ph) ∧ r = false ∧ m' = { m with phys := ph }) ∨
    ∃ j kstack ph1 pgdir d ph2, m.unused = some j ∧ kalloc m.phys = .ok (some kstack, ph1) ∧
      copyuvm ld p.pgdir p.sz ph1 = .ok ((pgdir, d), ph2) ∧
      ((d = none ∧ r = false ∧ ∃ ph3, kfree ld kstack ph2 = .ok ((), ph3) ∧
        m' = { m.setProc i (some { p with pgdir := pgdir }) with phys := ph3 }) ∨
       ∃ c, d = some c ∧ r = true ∧ m' =
        { (m.setProc i (some { p with pgdir := pgdir })).setProc j (some (childOf p c kstack)) with
          phys := ph2 }) := by
  unfold fork at h
  obtain ⟨r1, m1, ha, hrest⟩ := bind_ok h
  rcases allocproc_cases ha with ⟨rfl, rfl⟩ | ⟨ph, hk, rfl, rfl⟩ | ⟨j, kstack, ph1, hj, hk, rfl, rfl⟩
  · exact .inl (Prod.mk.inj (pure_ok hrest))
  · exact .inr (.inl ⟨ph, hk, Prod.mk.inj (pure_ok hrest)⟩)
  · obtain ⟨⟨pgdir, d⟩, ph2, hc, h⟩ := bind_onPhys hrest
    replace h := bind_setProc h
    refine .inr (.inr ⟨j, kstack, ph1, pgdir, d, ph2, hj, hk, hc, ?_⟩)
    cases d with
    | none =>
      obtain ⟨_, ph3, hf, h⟩ := bind_onPhys h
      obtain ⟨rfl, rfl⟩ := Prod.mk.inj (pure_ok h)
      exact .inl ⟨rfl, rfl, ph3, hf, rfl⟩
    | some c =>
      replace h := bind_setProc h
      obtain ⟨rfl, rfl⟩ := Prod.mk.inj (pure_ok h)
      exact .inr ⟨c, rfl, rfl, rfl⟩

theorem Proc.Wf.demote {d : PgDir} (h : p.Wf ld) (hd : Demoted p.pgdir d) :
    Proc.Wf ld { p with pgdir := d } where
  sz_lt := h.sz_lt
  kmap := h.kmap.congr hd.above
  below va hva hp := by
    refine h.below va hva ?_
    dsimp only at hp
    rcases hd.entry va with he | he <;> rw [he] at hp <;> exact hp

theorem fits_demote {d : PgDir} (h : Inv ld m) (hp : m.proc i = some p) (hd : Demoted p.pgdir d) :
    Fits (m.sharedRest i) (userOf (m.proc i)) (some { p with pgdir := d }) := by
  refine fits_of_le h hp (fun q => Nat.le_of_eq (hd.user q)) fun va _ _ hw => ?_
  rcases hd.entry va with he | he
  · exact he
  · dsimp only at hw
    rw [he] at hw
    cases hw

theorem inv_fork_fail {kstack : Nat} {pgdir : PgDir} {ph1 ph2 ph3 : Phys} (h : Inv ld m)
    (hp : m.proc i = some p) (hk : kalloc m.phys = .ok (some kstack, ph1))
    (hc : copyuvm ld p.pgdir p.sz ph1 = .ok ((pgdir, none), ph2))
    (hf : kfree ld kstack ph2 = .ok ((), ph3)) :
    Inv ld { m.setProc i (some { p with pgdir := pgdir }) with phys := ph3 } := by
  have hwf := h.wf i p hp
  obtain ⟨-, -, -, ha1⟩ := acct_kalloc (h.frame hp) hk
  obtain ⟨ha2, -, hd⟩ := acct_copyuvm_none (Nat.le_of_lt hwf.sz_lt) ha1 hc
  have ha3 := (acct_kfree_own ha2 hf).1
  have ha4 : Acct (Managed ld) ph3 (pgdir.kernRefs + (m.ownRest i + one p.kstack))
      (pgdir.userRefs + m.sharedRest i) :=
    ha3.congr (fun q => by simp only [Pi.add_apply, hd.kern])
      fun q => by simp only [Pi.add_apply, hd.user]
  refine inv_setProc h (acct_slot rfl ha4) ?_ (fits_demote h hp hd) (started_setProc _ _ _)
  rintro p' hp'
  obtain rfl := Option.some.inj hp'
  exact hwf.demote hd

theorem fork_read_only {ph1 ph2 : Phys} {pgdir d : PgDir} (hwf : p.Wf ld)
    (hc : copyuvm ld p.pgdir p.sz ph1 = .ok ((pgdir, some d), ph2)) (va : Nat) (hva : va < KERNBASE) :
    ((pgdir.get va).present = true → (pgdir.get va).writable = false) ∧
    ((d.get va).present = true → (d.get va).writable = false) := by
  have hshape := (copyuvm_shape (Nat.le_of_lt hwf.sz_lt) hc).2 va hva
  split at hshape
  · obtain ⟨-, h1, h2⟩ := hshape
    rw [h1, h2]
    exact ⟨fun _ => rfl, fun _ => rfl⟩
  · next hlt =>
    obtain ⟨h1, h2⟩ := hshape
    rw [h1, h2]
    exact ⟨fun hpr => absurd (hwf.below va hva hpr) hlt, fun hpr => by cases hpr⟩

theorem fork_child_refs {ph1 ph2 : Phys} {pgdir d : PgDir} (hwf : p.Wf ld)
    (hc : copyuvm ld p.pgdir p.sz ph1 = .ok ((pgdir, some d), ph2)) (q : Nat) :
    d.userRefs q ≤ p.pgdir.userRefs q := by
  refine PgDir.userRefs_le (fun va hva hpr => ?_) q
  have hshape := (copyuvm_shape (Nat.le_of_lt hwf.sz_lt) hc).2 va hva
  split at hshape
  · rw [hshape.2.1]
    exact ⟨hshape.1, rfl⟩
  · rw [hshape.1] at hpr
    cases hpr

theorem excl_share {j : Fin NPROC} {c : Proc} (h : m.Excl) (hp : m.proc i = some p)
    (hj : m.proc j = none) (hpw : ∀ va < KERNBASE, (p.pgdir.get va).present = true →
      (p.pgdir.get va).writable = false)
    (hcw : ∀ va < KERNBASE, (c.pgdir.get va).present = true → (c.pgdir.get va).writable = false)
    (hle : ∀ q, c.pgdir.userRefs q ≤ p.pgdir.userRefs q) : (m.setProc j (some c)).Excl := by
  intro k x hk va hva hpr hw
  by_cases hkj : k = j
  · subst hkj
    obtain rfl : c = x := by simpa [Machine.setProc] using hk
    rw [hcw va hva hpr] at hw
    cases hw
  · have hk' : m.proc k = some x := by simpa [Machine.setProc, update_of_ne hkj] using hk
    have hone := h k x hk' va hva hpr hw
    rw [shared_setProc_eq, sharedRest_of_none hj, hone]
    by_cases hki : k = i
    · subst hki
      obtain rfl : p = x := Option.some.inj (hp.symm.trans hk')
      rw [hpw va hva hpr] at hw
      cases hw
    · -- The writer holds the only reference, so the process of slot `i` has none to share.
      have hpos := present_userOf hk' hva hpr
      have hrest := userOf_le_rest hki (x.pgdir.get va).ppn (m := m)
      rw [shared_eq m i, hp, userOf] at hone
      have := hle (x.pgdir.get va).ppn
      simp only [userOf]
      omega

theorem shared_fork {j : Fin NPROC} {c : Proc} {pgdir : PgDir} (hji : j ≠ i) (hj : m.proc j = none)
    (hu : ∀ q, pgdir.userRefs q = p.pgdir.userRefs q) (q : Nat) :
    ((m.setProc i (some { p with pgdir := pgdir })).setProc j (some c)).shared q =
      c.pgdir.userRefs q + (p.pgdir.userRefs q + m.sharedRest i q) := by
  have hj1 : (m.setProc i (some { p with pgdir := pgdir })).proc j = none := by
    simpa [Machine.setProc, update_of_ne hji] using hj
  rw [shared_setProc_eq, sharedRest_of_none hj1, shared_setProc_eq]
  simp only [userOf, hu]
  omega

theorem inv_fork_child {j : Fin NPROC} {kstack : Nat} {pgdir d : PgDir} {ph1 ph2 : Phys}
    (h : Inv ld m) (hp : m.proc i = some p) (hj : m.proc j = none)
    (hk : kalloc m.phys = .ok (some kstack, ph1))
    (hc : copyuvm ld p.pgdir p.sz ph1 = .ok ((pgdir, some d), ph2)) :
    Inv ld { (m.setProc i (some { p with pgdir := pgdir })).setProc j (some (childOf p d kstack)) with
      phys := ph2 } := by
  have hwf := h.wf i p hp
  have hsz := Nat.le_of_lt hwf.sz_lt
  obtain ⟨-, -, -, ha1⟩ := acct_kalloc (h.frame hp) hk
  obtain ⟨ha2, -, hd⟩ := acct_copyuvm hsz ha1 hc
  obtain ⟨hkmap, hshape⟩ := copyuvm_shape hsz hc
  have hij : j ≠ i := by
    rintro rfl
    rw [hp] at hj
    cases hj
  have hj1 : (m.setProc i (some { p with pgdir := pgdir })).proc j = none := by
    simpa [Machine.setProc, update_of_ne hij] using hj
  have hi1 : (m.setProc i (some { p with pgdir := pgdir })).proc i =
      some { p with pgdir := pgdir } := by simp [Machine.setProc]
  have hown : ∀ q, ((m.setProc i (some { p with pgdir := pgdir })).setProc j
      (some (childOf p d kstack))).own q =
        (d.kernRefs + (p.pgdir.kernRefs + (m.ownRest i + one p.kstack) + one kstack)) q := by
    intro q
    rw [own_setProc_eq, ownRest_of_none hj1, own_setProc_eq]
    simp only [kernOf, childOf, Pi.add_apply, hd.kern]
    omega
  have hshared : ∀ q, ((m.setProc i (some { p with pgdir := pgdir })).setProc j
      (some (childOf p d kstack))).shared q =
        (d.userRefs + (p.pgdir.userRefs + m.sharedRest i)) q :=
    shared_fork hij hj hd.user
  refine ⟨ha2.congr hown hshared, ?_, ?_, .inl (started_setProc _ _ _)⟩
  · intro k x hx
    by_cases hkj : k = j
    · subst hkj
      obtain rfl : childOf p d kstack = x := by simpa [Machine.setProc] using hx
      refine ⟨hwf.sz_lt, hkmap, fun va hva hpr => ?_⟩
      have := hshape va hva
      split at this
      · assumption
      · rw [childOf, this.1] at hpr
        cases hpr
    · by_cases hki : k = i
      · subst hki
        obtain rfl : { p with pgdir := pgdir } = x := by
          simpa [Machine.setProc, update_of_ne hkj] using hx
        exact hwf.demote hd
      · exact h.wf k x (by
          simpa [Machine.setProc, update_of_ne hkj, update_of_ne hki] using hx)
  · exact excl_share (excl_setProc h.excl (fits_demote h hp hd)) hi1 hj1
      (fun va hva => (fork_read_only hwf hc va hva).1) (fun va hva => (fork_read_only hwf hc va hva).2)
      fun q => by
        rw [hd.user]
        exact fork_child_refs hwf hc q

theorem inv_fork {r : Bool} (h : Inv ld m) (hp : m.proc i = some p)
    (hf : fork ld i p m = .ok (r, m')) : Inv ld m' := by
  rcases fork_cases hf with ⟨-, rfl⟩ | ⟨ph, hk, -, rfl⟩ |
    ⟨j, kstack, ph1, pgdir, d, ph2, hj, hk, hc, ⟨rfl, -, ph3, hf3, rfl⟩ | ⟨c, rfl, -, rfl⟩⟩
  · exact h
  · exact inv_setPhys h ⟨i, p, hp⟩ (acct_kalloc_none h.acct hk)
  · exact inv_fork_fail h hp hk hc hf3
  · exact inv_fork_child h hp (unused_none hj) hk hc

end Xv6.Sys
