import Xv6.Sys.Spec

/-!
# The calls of a single process

`growproc`, `exit`, `wait`, the pipes and the page faults: what each does to the machine, and that
it keeps the invariant.
-/

open Xv6.Cmd Xv6.Pool Xv6.Vm List

namespace Xv6.Sys

variable {ld : Linker} {m m' : Machine} {i : Fin NPROC} {p : Proc}

theorem bind_onPhys {α β : Type} {x : K α} {f : α → M β} {r : β × Machine}
    (h : (onPhys x >>= f) m = .ok r) :
    ∃ a ph, x m.phys = .ok (a, ph) ∧ f a { m with phys := ph } = .ok r := by
  obtain ⟨a, m1, hx, h⟩ := bind_ok h
  obtain ⟨ph, hx', hm⟩ := zoom_ok hx
  exact ⟨a, ph, hx', hm ▸ h⟩

theorem onPhys_of_ok {α : Type} {x : K α} {a : α} {ph : Phys} (h : x m.phys = .ok (a, ph)) :
    onPhys x m = .ok (a, { m with phys := ph }) :=
  zoom_of_ok h

theorem setProc_ok {x : Option Proc} {u : Unit} (h : setProc i x m = .ok (u, m')) :
    m' = m.setProc i x :=
  (Prod.mk.inj (Except.ok.inj h)).2.symm

theorem bind_setProc {β : Type} {x : Option Proc} {f : Unit → M β} {r : β × Machine}
    (h : (setProc i x >>= f) m = .ok r) : f () (m.setProc i x) = .ok r := h

/-! ## `growproc` -/

theorem growproc_cases {n : Int} {r : Bool} (h : growproc ld i p n m = .ok (r, m')) :
    (n = 0 ∧ r = true ∧ m' = m) ∨
    ∃ d sz ph, ((0 < n ∧ allocuvm ld p.pgdir p.sz (addInt p.sz n) m.phys = .ok ((d, sz), ph)) ∨
        (n < 0 ∧ deallocuvm ld p.pgdir p.sz (addInt p.sz n) m.phys = .ok ((d, sz), ph))) ∧
      r = decide (sz ≠ 0) ∧
      m' = { m.setProc i (some { p with pgdir := d, sz := if sz = 0 then p.sz else sz }) with
        phys := ph } := by
  unfold growproc at h
  split at h
  · next hn =>
    obtain ⟨⟨d, sz⟩, ph, ha, h⟩ := bind_onPhys h
    refine .inr ⟨d, sz, ph, .inl ⟨hn, ha⟩, ?_⟩
    dsimp only at h
    split at h
    · next hz =>
      replace h := bind_setProc h
      obtain ⟨rfl, rfl⟩ := Prod.mk.inj (pure_ok h)
      simp [hz, Machine.setProc]
    · next hz =>
      replace h := bind_setProc h
      obtain ⟨rfl, rfl⟩ := Prod.mk.inj (pure_ok h)
      simp [hz, Machine.setProc]
  · split at h
    · next hn =>
      obtain ⟨⟨d, sz⟩, ph, ha, h⟩ := bind_onPhys h
      refine .inr ⟨d, sz, ph, .inr ⟨hn, ha⟩, ?_⟩
      dsimp only at h
      split at h
      · next hz =>
        replace h := bind_setProc h
        obtain ⟨rfl, rfl⟩ := Prod.mk.inj (pure_ok h)
        simp [hz, Machine.setProc]
      · next hz =>
        replace h := bind_setProc h
        obtain ⟨rfl, rfl⟩ := Prod.mk.inj (pure_ok h)
        simp [hz, Machine.setProc]
    · obtain ⟨rfl, rfl⟩ := Prod.mk.inj (pure_ok h)
      exact .inl ⟨by omega, rfl, rfl⟩

theorem fits_of_le {x : Proc} (h : Inv ld m) (hp : m.proc i = some p)
    (hle : ∀ q, x.pgdir.userRefs q ≤ p.pgdir.userRefs q)
    (hw : ∀ va < KERNBASE, (x.pgdir.get va).present = true → (x.pgdir.get va).writable = true →
      x.pgdir.get va = p.pgdir.get va) :
    Fits (m.sharedRest i) (userOf (m.proc i)) (some x) where
  others q _ h0 := by
    rw [hp] at h0
    simp only [userOf] at h0 ⊢
    have := hle q
    omega
  mine p' hp' va hva hpres hwr := by
    obtain rfl := Option.some.inj hp'
    have heq := hw va hva hpres hwr
    have hpos := PgDir.userRefs_pos hpres hva
    have hone := h.excl i p hp va hva (heq ▸ hpres) (heq ▸ hwr)
    rw [shared_eq m i, hp, userOf, ← heq] at hone
    have := hle (x.pgdir.get va).ppn
    omega

theorem acct_slot {x : Proc} {ph : Phys} (hk : x.kstack = p.kstack)
    (ha : Acct (Managed ld) ph (x.pgdir.kernRefs + (m.ownRest i + one p.kstack))
      (x.pgdir.userRefs + m.sharedRest i)) :
    Acct (Managed ld) ph (m.ownRest i + kernOf (some x)) (m.sharedRest i + userOf (some x)) :=
  ha.congr (fun q => by simp only [Pi.add_apply, kernOf, hk]; omega)
    fun q => by simp only [Pi.add_apply, userOf]; omega

theorem inv_growproc_alloc {d : PgDir} {newsz sz : Nat} {ph : Phys} (h : Inv ld m)
    (hp : m.proc i = some p) (ha : allocuvm ld p.pgdir p.sz newsz m.phys = .ok ((d, sz), ph)) :
    Inv ld { m.setProc i (some { p with pgdir := d, sz := if sz = 0 then p.sz else sz }) with
      phys := ph } := by
  have hframe := h.frame hp
  have hacct := (acct_allocuvm hframe ha).1
  have hwf := h.wf i p hp
  by_cases hz : sz = 0
  · subst hz
    rw [if_pos rfl]
    rcases allocuvm_fail hframe ha with ⟨hsame, -⟩ | ⟨hle, hlt, hun⟩
    · refine inv_setProc h (acct_slot rfl hacct) ?_ (fits_of_le h hp ?_ fun va _ _ _ => hsame va)
        (started_setProc _ _ _)
      · rintro p' hp'
        obtain rfl := Option.some.inj hp'
        exact ⟨hwf.sz_lt, hwf.kmap.congr fun va _ _ => hsame va,
          fun va hva hpr => hwf.below va hva (by rw [← hsame]; exact hpr)⟩
      · exact fun q => Nat.le_of_eq (PgDir.userRefs_congr (fun va _ => hsame va) q)
    · refine inv_setProc h (acct_slot rfl hacct) ?_ (fits_of_le h hp ?_ fun va hva hpr _ => hun.entry hva hpr)
        (started_setProc _ _ _)
      · rintro p' hp'
        obtain rfl := Option.some.inj hp'
        refine ⟨hwf.sz_lt, hwf.kmap.congr fun va h1 h2 => hun.out va h1 (.inr ?_),
          fun va hva hpr => hwf.below va hva (by rw [← hun.entry hva hpr]; exact hpr)⟩
        simp only [KERNBASE, PGSIZE] at *
        omega
      · exact PgDir.userRefs_le fun va hva hpr => by
          rw [← hun.entry hva hpr]; exact ⟨hpr, rfl⟩
  · rw [if_neg hz]
    obtain ⟨hlt, hok⟩ := allocuvm_ok hframe ha hz
    obtain ⟨hold, hnew⟩ := allocuvm_counts hframe ha hz
    refine inv_setProc h (acct_slot rfl hacct) ?_ ⟨?_, ?_⟩ (started_setProc _ _ _)
    · rintro p' hp'
      obtain rfl := Option.some.inj hp'
      rcases hok with ⟨-, rfl, rfl, -⟩ | ⟨hle, rfl, hg, -⟩
      · exact hwf
      · refine ⟨hlt, hwf.kmap.congr fun va h1 h2 => hg.out va h1 (.inr ?_), fun va hva hpr => ?_⟩
        · simp only [KERNBASE, PGSIZE] at *
          omega
        · dsimp only at hpr ⊢
          by_contra hc
          rw [hg.out va (by simp only [KERNBASE] at *; omega) (.inr (by omega))] at hpr
          have := hwf.below va hva hpr
          omega
    · intro q hq h0
      rw [hp, userOf] at h0
      rw [userOf, hold q (by omega), h0]
    · rintro p' hp' va hva hpr hwr
      obtain rfl := Option.some.inj hp'
      dsimp only at hpr hwr ⊢
      rcases hnew va hva hpr with heq | ⟨h1, h2⟩
      · have hone := h.excl i p hp va hva (heq ▸ hpr) (heq ▸ hwr)
        have hpos := PgDir.userRefs_pos (heq ▸ hpr) hva
        rw [shared_eq m i, hp, userOf] at hone
        rw [heq, hold _ (by omega)]
        exact hone
      · omega

theorem inv_growproc_dealloc {d : PgDir} {newsz sz : Nat} {ph : Phys} (h : Inv ld m)
    (hp : m.proc i = some p) (ha : deallocuvm ld p.pgdir p.sz newsz m.phys = .ok ((d, sz), ph)) :
    Inv ld { m.setProc i (some { p with pgdir := d, sz := if sz = 0 then p.sz else sz }) with
      phys := ph } := by
  have hwf := h.wf i p hp
  have hszle : p.sz ≤ KERNBASE := Nat.le_of_lt hwf.sz_lt
  obtain ⟨ha1, -, hsh⟩ := acct_deallocuvm hszle (h.frame hp) ha
  have hacct : Acct (Managed ld) ph (d.kernRefs + (m.ownRest i + one p.kstack))
      (d.userRefs + m.sharedRest i) :=
    ha1.congr (fun q => by simp only [Pi.add_apply, hsh.kern]) fun _ => rfl
  have hent : ∀ va, (d.get va).present = true → d.get va = p.pgdir.get va := by
    intro va hpr
    rcases hsh.entry va with he | he
    · exact he
    · rw [he] at hpr; cases hpr
  refine inv_setProc h (acct_slot rfl hacct) ?_ (fits_of_le h hp hsh.user fun va _ hpr _ => hent va hpr)
    (started_setProc _ _ _)
  rintro p' hp'
  obtain rfl := Option.some.inj hp'
  rcases deallocuvm_shape hszle ha with ⟨hle, rfl, rfl, -⟩ | ⟨hlt, hszeq, hgone, hout⟩
  · have hsz : (if p.sz = 0 then p.sz else p.sz) = p.sz := by split <;> rfl
    rw [hsz]
    exact hwf
  · have hnew : newsz ≤ KERNBASE := by omega
    subst hszeq
    refine ⟨?_, hwf.kmap.congr fun va h1 h2 => hout va h1 (.inr ?_), fun va hva hpr => ?_⟩
    · have := hwf.sz_lt
      dsimp only
      split <;> omega
    · simp only [KERNBASE, PGSIZE] at *
      omega
    · dsimp only at hpr ⊢
      have hbelow := hwf.below va hva (hent va hpr ▸ hpr)
      split
      · exact hbelow
      · have hva' : va < pgroundup sz := by
          by_contra hc
          rw [hgone va (by omega) hbelow] at hpr
          cases hpr
        rw [pgroundup_of_le hnew] at hva'
        simp only [PGSIZE] at *
        omega

theorem inv_growproc {n : Int} {r : Bool} (h : Inv ld m) (hp : m.proc i = some p)
    (hg : growproc ld i p n m = .ok (r, m')) : Inv ld m' := by
  rcases growproc_cases hg with ⟨-, -, rfl⟩ | ⟨d, sz, ph, ⟨-, ha⟩ | ⟨-, ha⟩, -, rfl⟩
  · exact h
  · exact inv_growproc_alloc h hp ha
  · exact inv_growproc_dealloc h hp ha

/-! ## `exit` and `wait` -/

theorem exit_ok {u : Unit} (h : exit i p m = .ok (u, m')) :
    i ≠ initproc ∧ m' = m.setProc i (some { p with zombie := true }) := by
  unfold exit at h
  split at h
  · exact (throw_ok h).elim
  · next hi =>
    exact ⟨hi, (Prod.mk.inj (Except.ok.inj h)).2.symm⟩

theorem inv_exit {u : Unit} (h : Inv ld m) (hp : m.proc i = some p)
    (he : exit i p m = .ok (u, m')) : Inv ld m' := by
  obtain ⟨-, rfl⟩ := exit_ok he
  have hwf := h.wf i p hp
  have hframe := h.frame hp
  refine inv_setProc h (acct_slot (p := p) rfl hframe) ?_
    (fits_of_le h hp (fun _ => Nat.le_refl _) fun _ _ _ _ => rfl) (started_setProc _ _ _)
  rintro p' hp'
  obtain rfl := Option.some.inj hp'
  exact ⟨hwf.sz_lt, hwf.kmap, hwf.below⟩

theorem wait_ok {u : Unit} (h : wait ld i p m = .ok (u, m')) :
    ∃ ph1 ph2, kfree ld p.kstack m.phys = .ok ((), ph1) ∧ freevm ld p.pgdir ph1 = .ok ((), ph2) ∧
      m' = { m.setProc i none with phys := ph2 } := by
  obtain ⟨_, ph1, h1, h⟩ := bind_onPhys h
  obtain ⟨_, ph2, h2, h⟩ := bind_onPhys h
  exact ⟨ph1, ph2, h1, h2, setProc_ok h⟩

theorem acct_wait {ph1 ph2 : Phys} (h : Inv ld m) (hp : m.proc i = some p)
    (h1 : kfree ld p.kstack m.phys = .ok ((), ph1)) (h2 : freevm ld p.pgdir ph1 = .ok ((), ph2)) :
    Acct (Managed ld) ph2 (m.ownRest i) (m.sharedRest i) ∧
    Kept (m.ownRest i + m.sharedRest i) m.phys ph2 := by
  have hf : Acct (Managed ld) m.phys (p.pgdir.kernRefs + m.ownRest i + one p.kstack)
      (p.pgdir.userRefs + m.sharedRest i) :=
    (h.frame hp).congr (fun q => by simp only [Pi.add_apply]; omega) fun _ => rfl
  obtain ⟨ha1, hk1⟩ := acct_kfree_own hf h1
  obtain ⟨ha2, hk2⟩ := acct_freevm ha1 h2
  refine ⟨ha2, (hk1.mono fun q hq => ?_).trans hk2⟩
  simp only [Pi.add_apply] at *
  omega

theorem inv_wait {u : Unit} (h : Inv ld m) (hp : m.proc i = some p)
    (hs : (m.setProc i none).Started) (hw : wait ld i p m = .ok (u, m')) : Inv ld m' := by
  obtain ⟨ph1, ph2, h1, h2, rfl⟩ := wait_ok hw
  refine inv_setProc h ?_ (fun p' hp' => by cases hp') ⟨fun q _ _ => rfl, fun p' hp' => by cases hp'⟩ hs
  exact (acct_wait h hp h1 h2).1.congr (fun q => by simp [kernOf]) fun q => by simp [userOf]

/-! ## Pipes -/

theorem own_cons_pipe (m : Machine) (pp : Pipe) (q : Nat) :
    ({ m with pipes := pp :: m.pipes } : Machine).own q = m.own q + one pp.page q := by
  have hcount : ((pp :: m.pipes).map Pipe.page).count q =
      (m.pipes.map Pipe.page).count q + one pp.page q := by
    by_cases hq : q = pp.page
    · subst hq
      simp
    · rw [one_of_ne hq, map_cons, count_cons_of_ne (Ne.symm hq), Nat.add_zero]
  simp only [Machine.own, hcount]
  omega

theorem pipealloc_cases {files r : Bool} (h : pipealloc files m = .ok (r, m')) :
    (r = false ∧ m' = m) ∨
    (∃ ph, kalloc m.phys = .ok (none, ph) ∧ r = false ∧ m' = { m with phys := ph }) ∨
    ∃ q ph, kalloc m.phys = .ok (some q, ph) ∧ r = true ∧ m' = { m with
      phys := ph, pipes := { page := q, readopen := true, writeopen := true } :: m.pipes } := by
  unfold pipealloc at h
  split at h
  · exact .inl (Prod.mk.inj (pure_ok h))
  · obtain ⟨r1, ph, h1, h⟩ := bind_onPhys h
    cases r1 with
    | none =>
      obtain ⟨rfl, rfl⟩ := Prod.mk.inj (pure_ok h)
      exact .inr (.inl ⟨ph, h1, rfl, rfl⟩)
    | some q =>
      obtain ⟨rfl, rfl⟩ := Prod.mk.inj (Except.ok.inj h)
      exact .inr (.inr ⟨q, ph, h1, rfl, rfl⟩)

theorem inv_pipealloc {files r : Bool} (h : Inv ld m) (hs : m.Started)
    (hr : pipealloc files m = .ok (r, m')) : Inv ld m' := by
  rcases pipealloc_cases hr with ⟨-, rfl⟩ | ⟨ph, hk, -, rfl⟩ | ⟨q, ph, hk, -, rfl⟩
  · exact h
  · exact inv_setPhys h hs (acct_kalloc_none h.acct hk)
  · exact inv_setPhys h hs ((acct_kalloc h.acct hk).2.2.2.congr (own_cons_pipe m _) fun _ => rfl)

theorem pipeclose_cases {k : Nat} {pp : Pipe} {w : Bool} {u : Unit}
    (h : pipeclose ld k pp w m = .ok (u, m')) :
    (∃ ph, kfree ld pp.page m.phys = .ok ((), ph) ∧
      m' = { m with phys := ph, pipes := m.pipes.eraseIdx k }) ∨
    ∃ pp', pp'.page = pp.page ∧ m' = { m with pipes := m.pipes.set k pp' } := by
  have hpage : (pp.close w).page = pp.page := by
    unfold Pipe.close
    split <;> rfl
  unfold pipeclose at h
  split at h
  · obtain ⟨_, ph, h1, h⟩ := bind_onPhys h
    rw [hpage] at h1
    exact .inl ⟨ph, h1, (Prod.mk.inj (Except.ok.inj h)).2.symm⟩
  · exact .inr ⟨_, hpage, (Prod.mk.inj (Except.ok.inj h)).2.symm⟩

theorem inv_pipeclose {k : Nat} {pp : Pipe} {w : Bool} {u : Unit} (h : Inv ld m) (hs : m.Started)
    (hk : m.pipes[k]? = some pp) (hr : pipeclose ld k pp w m = .ok (u, m')) : Inv ld m' := by
  obtain ⟨hlt, hget⟩ := List.getElem?_eq_some_iff.mp hk
  rcases pipeclose_cases hr with ⟨ph, hf, rfl⟩ | ⟨pp', hpage, rfl⟩
  · have hown : ∀ q, m.own q =
        ({ m with pipes := m.pipes.eraseIdx k } : Machine).own q + one pp.page q := by
      intro q
      rw [← own_cons_pipe { m with pipes := m.pipes.eraseIdx k } pp q]
      have hperm := (getElem_cons_eraseIdx_perm hlt).map Pipe.page
      rw [hget] at hperm
      simp only [Machine.own, hperm.count_eq]
    have ha : Acct (Managed ld) m.phys
        (({ m with pipes := m.pipes.eraseIdx k } : Machine).own + one pp.page) m.shared :=
      h.acct.congr (fun q => (hown q).symm) fun _ => rfl
    exact inv_setPhys h hs (acct_kfree_own ha hf).1
  · have hmap : (m.pipes.set k pp').map Pipe.page = m.pipes.map Pipe.page := by
      rw [map_set, hpage, ← hget, ← getElem_map Pipe.page (h := by simpa using hlt),
        set_getElem_self]
    refine inv_setPhys h hs (Acct.congr (s := m.phys) h.acct (fun q => ?_) fun _ => rfl)
    simp only [Machine.own, hmap]

/-! ## Faults and stores -/

theorem fault_cases {va : Nat} {u : Unit} (h : fault i p va m = .ok (u, m')) :
    (∃ ph, CoW_handler p.pgdir va m.phys = .ok (none, ph) ∧
      exit i p { m with phys := ph } = .ok ((), m')) ∨
    ∃ d ph, CoW_handler p.pgdir va m.phys = .ok (some d, ph) ∧
      m' = { m.setProc i (some { p with pgdir := d }) with phys := ph } := by
  obtain ⟨r, ph, hc, h⟩ := bind_onPhys h
  cases r with
  | none => exact .inl ⟨ph, hc, h⟩
  | some d => exact .inr ⟨d, ph, hc, setProc_ok h⟩

theorem inv_cow {va : Nat} {d : PgDir} {ph : Phys} (h : Inv ld m) (hp : m.proc i = some p)
    (hva : va < KERNBASE) (hc : CoW_handler p.pgdir va m.phys = .ok (some d, ph)) :
    Inv ld { m.setProc i (some { p with pgdir := d }) with phys := ph } := by
  have hframe := h.frame hp
  have hwf := h.wf i p hp
  have hacct := (acct_CoW_handler hva hframe hc).1
  have hun := CoW_handler_unshared hva hframe hc
  have hsame : ∀ b < 0x100000000, (d.get b).present = true → b / PGSIZE = va / PGSIZE →
      d.get b = d.get va := by
    intro b _ _ hb
    rw [← PgDir.get_page d b, hb, PgDir.get_page]
  refine inv_setProc h (acct_slot rfl hacct) ?_ ⟨?_, ?_⟩ (started_setProc _ _ _)
  · rintro p' hp'
    obtain rfl := Option.some.inj hp'
    refine ⟨hwf.sz_lt, hwf.kmap.congr fun b h1 h2 => hun.out b h1 ?_, fun b hb hpr => ?_⟩
    · simp only [KERNBASE, PGSIZE] at *
      omega
    · dsimp only at hpr ⊢
      by_cases hpg : b / PGSIZE = va / PGSIZE
      · rw [hpg]
        rcases CoW_handler_cases hc with ⟨-, hn, -⟩ | ⟨hpv, -⟩ | ⟨hpv, -⟩
        · cases hn
        · exact hwf.below va hva hpv
        · exact hwf.below va hva hpv
      · rw [hun.out b (by simp only [KERNBASE] at *; omega) hpg] at hpr
        exact hwf.below b hb hpr
  · intro q hq h0
    rw [hp] at h0
    simp only [userOf] at h0 ⊢
    by_cases hqv : q = (d.get va).ppn
    · have := hun.alone
      rw [← hqv] at this
      omega
    · have := hun.le q hqv
      omega
  · rintro p' hp' b hb hpr hwr
    obtain rfl := Option.some.inj hp'
    dsimp only at hpr hwr ⊢
    have hb' : b < 0x100000000 := by simp only [KERNBASE] at hb; omega
    by_cases hpg : b / PGSIZE = va / PGSIZE
    · rw [hsame b hb' hpr hpg]
      exact hun.alone
    · by_cases hqv : (d.get b).ppn = (d.get va).ppn
      · rw [hqv]
        exact hun.alone
      · have heq := hun.out b hb' hpg
        have hone := h.excl i p hp b hb (heq ▸ hpr) (heq ▸ hwr)
        rw [shared_eq m i, hp, userOf, ← heq] at hone
        have := hun.le _ hqv
        have := PgDir.userRefs_pos hpr hb
        omega

theorem inv_fault {va : Nat} {u : Unit} (h : Inv ld m) (hp : m.proc i = some p)
    (hva : va < KERNBASE) (hf : fault i p va m = .ok (u, m')) : Inv ld m' := by
  rcases fault_cases hf with ⟨ph, hc, he⟩ | ⟨d, ph, hc, rfl⟩
  · obtain ⟨-, rfl⟩ := CoW_handler_none hc
    exact inv_exit h hp he
  · exact inv_cow h hp hva hc

theorem inv_setByte {d : PgDir} {va : Nat} {b : UInt8} (h : Inv ld m) (hs : m.Started) :
    Inv ld { m with phys := Phys.setByte m.phys d va b } :=
  inv_setPhys h hs (acct_setMem h.acct _)

theorem store_cases {va : Nat} {b : UInt8} {u : Unit} (h : store i p va b m = .ok (u, m')) :
    ((p.pgdir.get va).writable = true ∧ m' = { m with phys := Phys.setByte m.phys p.pgdir va b }) ∨
    ((p.pgdir.get va).writable = false ∧
      ((∃ ph, CoW_handler p.pgdir va m.phys = .ok (none, ph) ∧
        exit i p { m with phys := ph } = .ok ((), m')) ∨
       ∃ d ph, CoW_handler p.pgdir va m.phys = .ok (some d, ph) ∧
        m' = { m.setProc i (some { p with pgdir := d }) with phys := Phys.setByte ph d va b })) := by
  unfold store at h
  split at h
  · next hw => exact .inl ⟨hw, (Prod.mk.inj (Except.ok.inj h)).2.symm⟩
  · next hw =>
    refine .inr ⟨by simpa using hw, ?_⟩
    obtain ⟨r, ph, hc, h⟩ := bind_onPhys h
    cases r with
    | none => exact .inl ⟨ph, hc, h⟩
    | some d =>
      replace h := bind_setProc h
      exact .inr ⟨d, ph, hc, (Prod.mk.inj (Except.ok.inj h)).2.symm⟩

theorem inv_store {va : Nat} {b : UInt8} {u : Unit} (h : Inv ld m) (hp : m.proc i = some p)
    (hva : va < KERNBASE) (hf : store i p va b m = .ok (u, m')) : Inv ld m' := by
  rcases store_cases hf with ⟨-, rfl⟩ | ⟨-, ⟨ph, hc, he⟩ | ⟨d, ph, hc, rfl⟩⟩
  · exact inv_setByte h ⟨i, p, hp⟩
  · obtain ⟨-, rfl⟩ := CoW_handler_none hc
    exact inv_exit h hp he
  · exact inv_setByte (inv_cow h hp hva hc) (started_setProc m i _)

end Xv6.Sys
