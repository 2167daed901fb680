import Xv6.Sys.Reach

/-!
# One process, one mapping

Which slots a call leaves alone, and that no process ever maps a page at two addresses.
-/

open Xv6.Cmd Xv6.Pool Xv6.Run Xv6.Vm Function

namespace Xv6.Sys

variable {ld : Linker} {m m' : Machine} {i : Fin NPROC} {p : Proc}

/-! ## What a call leaves alone -/

theorem SameSlot.userOf {x y : Option Proc} (h : SameSlot x y) (q : Nat) : userOf y q = userOf x q := by
  cases x with
  | none =>
    cases y with
    | none => rfl
    | some _ => exact h.elim
  | some p =>
    cases y with
    | none => exact h.elim
    | some p' => exact h.2.userRefs q

theorem SameSlot.kernOf {x y : Option Proc} (h : SameSlot x y) (q : Nat) : kernOf y q = kernOf x q := by
  cases x with
  | none =>
    cases y with
    | none => rfl
    | some _ => exact h.elim
  | some p =>
    cases y with
    | none => exact h.elim
    | some p' =>
      simp only [Sys.kernOf]
      rw [h.1, h.2.kernRefs]

theorem SameSlot.exists_some {y : Option Proc} (h : SameSlot (some p) y) :
    ∃ p', y = some p' ∧ p'.kstack = p.kstack ∧ p.pgdir.Same p'.pgdir := by
  cases y with
  | none => exact h.elim
  | some p' => exact ⟨p', rfl, h⟩

theorem SameBut.mono {S T : Fin NPROC → Prop} (h : SameBut S m m') (hst : ∀ k, S k → T k) : SameBut T m m' :=
  ⟨h.kpgdir, h.apstacks, h.pipes, fun k hk => h.slot k fun hs => hk (hst k hs)⟩

theorem sameBut_phys (S : Fin NPROC → Prop) (m : Machine) (ph : Phys) : SameBut S m { m with phys := ph } :=
  ⟨⟨rfl, fun _ _ => rfl⟩, rfl, rfl, fun _ _ => .refl _⟩

theorem sameBut_setProc {S : Fin NPROC → Prop} (m : Machine) (x : Option Proc) (ph : Phys) (hi : S i) :
    SameBut S m { m.setProc i x with phys := ph } := by
  refine ⟨⟨rfl, fun _ _ => rfl⟩, rfl, rfl, fun k hk => ?_⟩
  have hne : k ≠ i := by
    rintro rfl
    exact hk hi
  change SameSlot (m.proc k) (update m.proc i x k)
  rw [update_of_ne hne]
  exact .refl _

/-- The slots whose page table an action may replace, slots not in use apart. -/
def Act.touches (k : Fin NPROC) : Act → Prop
  | .userinit _ => True
  | .fork i | .exec i _ _ | .growproc i _ | .exit i | .fault i _ | .store i _ _ => k = i
  | .wait _ j => k = j
  | .pipealloc _ _ | .pipeclose _ _ _ | .load _ _ => False

def Act.usesPipes : Act → Prop
  | .pipealloc _ _ | .pipeclose _ _ _ => True
  | _ => False

theorem frame_exit {u : Unit} (h : exit i p m = .ok (u, m')) : SameBut (· = i) m m' := by
  obtain ⟨-, rfl⟩ := exit_ok h
  exact sameBut_setProc m _ m.phys rfl

theorem frame_fork {r : Bool} (h : fork ld i p m = .ok (r, m')) :
    SameBut (fun k => k = i ∨ m.proc k = none) m m' := by
  rcases fork_cases h with ⟨-, rfl⟩ | ⟨ph, -, -, rfl⟩ |
    ⟨j, kstack, ph1, pgdir, d, ph2, hj, -, -, ⟨-, -, ph3, -, rfl⟩ | ⟨c, -, -, rfl⟩⟩
  · exact .refl _ _
  · exact sameBut_phys _ m ph
  · exact sameBut_setProc m _ ph3 (.inl rfl)
  · exact (sameBut_setProc m _ m.phys (.inl rfl)).trans
      (sameBut_setProc _ _ ph2 (.inr (unused_none hj)))

theorem frame_exec {ip : Option (List UInt8)} {uargv : List Nat} {r : Bool} (h : Inv ld m)
    (hp : m.proc i = some p)
    (hshort : ∀ addr ∈ uargv, ∀ arg, fetchstr m.phys p addr = some (some arg) →
      arg.length + 4 ≤ 0x2000000)
    (he : sys_exec ld i p ip uargv m = .ok (r, m')) : SameBut (· = i) m m' := by
  rcases sys_exec_cases he with hx | rfl | ⟨argv, he, hargs⟩
  · exact frame_exit hx
  · exact .refl _ _
  · have hshort' : ∀ arg ∈ argv, arg.length + 4 ≤ 0x2000000 := by
      intro arg harg
      obtain ⟨addr, ha, hfa⟩ := hargs arg harg
      exact hshort addr ha arg hfa
    rcases exec_cases h ⟨i, p, hp⟩ hshort' he with
      ⟨ph, -, rfl⟩ | ⟨ph, d, m1, d1, sz, hw, -, -, -, ⟨ph2, -, rfl⟩ | ⟨p1, ph2, -, -, rfl⟩⟩
    · exact sameBut_phys _ m ph
    · exact ((sameBut_phys _ m ph).trans hw.rest).mono (fun _ h => h.elim) |>.trans (sameBut_phys _ m1 ph2)
    · exact ((sameBut_phys _ m ph).trans hw.rest).mono (fun _ h => h.elim) |>.trans
        (sameBut_setProc m1 _ ph2 rfl)

theorem frame_growproc {n : Int} {r : Bool} (h : growproc ld i p n m = .ok (r, m')) :
    SameBut (· = i) m m' := by
  rcases growproc_cases h with ⟨-, -, rfl⟩ | ⟨d, sz, ph, -, -, rfl⟩
  · exact .refl _ _
  · exact sameBut_setProc m _ ph rfl

theorem frame_fault {va : Nat} {u : Unit} (h : fault i p va m = .ok (u, m')) : SameBut (· = i) m m' := by
  rcases fault_cases h with ⟨ph, -, he⟩ | ⟨d, ph, -, rfl⟩
  · exact (sameBut_phys _ m ph).trans (frame_exit he)
  · exact sameBut_setProc m _ ph rfl

theorem frame_store {va : Nat} {b : UInt8} {u : Unit} (h : store i p va b m = .ok (u, m')) :
    SameBut (· = i) m m' := by
  rcases store_cases h with ⟨-, rfl⟩ | ⟨-, ⟨ph, -, he⟩ | ⟨d, ph, -, rfl⟩⟩
  · exact sameBut_phys _ m _
  · exact (sameBut_phys _ m ph).trans (frame_exit he)
  · exact sameBut_setProc m _ _ rfl

theorem wait_next {j : Fin NPROC} (h : next ld m (.wait i j) = some m') :
    ∃ p u, m.proc j = some p ∧ wait ld j p m = .ok (u, m') := by
  obtain ⟨-, -, -, hf⟩ := by_some h
  cases hj : m.proc j with
  | none =>
    rw [hj] at hf
    exact (throw_ok hf).elim
  | some p =>
    rw [hj] at hf
    exact ⟨p, _, rfl, (if_throw_ok hf).2⟩

theorem frame_next {a : Act} (h : Inv ld m) (hs : ShortArgs m a) (hpipes : ¬ a.usesPipes)
    (hn : next ld m a = some m') : SameBut (fun k => a.touches k ∨ m.proc k = none) m m' := by
  cases a with
  | userinit init =>
    rw [next] at hn
    split at hn
    · obtain ⟨u, hu⟩ := snd_some hn
      obtain ⟨j, kstack, ph1, d, ph2, d', ph3, -, -, -, -, rfl⟩ := userinit_cases hu
      exact sameBut_setProc m _ ph3 (.inl trivial)
    · cases hn
  | fork i =>
    obtain ⟨p, hp, -, hf⟩ := by_some hn
    obtain ⟨r, hf⟩ := discard_ok hf
    exact frame_fork hf
  | exec i ip uargv =>
    obtain ⟨p, hp, -, hf⟩ := by_some hn
    obtain ⟨r, hf⟩ := discard_ok hf
    exact (frame_exec h hp (hs p hp) hf).mono fun _ hk => .inl hk
  | growproc i n =>
    obtain ⟨p, hp, -, hf⟩ := by_some hn
    obtain ⟨r, hf⟩ := discard_ok hf
    exact (frame_growproc hf).mono fun _ hk => .inl hk
  | exit i =>
    obtain ⟨p, hp, -, hf⟩ := by_some hn
    exact (frame_exit hf).mono fun _ hk => .inl hk
  | wait i j =>
    obtain ⟨p, u, -, hf⟩ := wait_next hn
    obtain ⟨ph1, ph2, -, -, rfl⟩ := wait_ok hf
    exact sameBut_setProc m _ ph2 (.inl rfl)
  | pipealloc i files => exact absurd trivial hpipes
  | pipeclose i k w => exact absurd trivial hpipes
  | fault i va =>
    obtain ⟨p, hp, -, hf⟩ := by_some hn
    exact (frame_fault (if_throw_ok hf).2).mono fun _ hk => .inl hk
  | load i va =>
    obtain ⟨p, hp, -, hf⟩ := by_some hn
    obtain ⟨-, rfl⟩ := Prod.mk.inj (pure_ok (if_throw_ok hf).2)
    exact .refl _ _
  | store i va b =>
    obtain ⟨p, hp, -, hf⟩ := by_some hn
    exact (frame_store (if_throw_ok hf).2).mono fun _ hk => .inl hk

/-! ## A process maps a page once -/

/-- The kernel's own directory maps no user page, and no process maps a page at two addresses. -/
structure Tidy (m : Machine) : Prop where
  kern : ∀ q, m.kpgdir.userRefs q = 0
  once : ∀ k q, userOf (m.proc k) q ≤ 1

theorem tidy_boot {ncpu : Nat} {mem : Nat → Page} (h : boot ld ncpu mem = .ok m) : Tidy m := by
  obtain ⟨hmain, hproc, -⟩ := boot_ok h
  obtain ⟨s1, s2, s3, -, h2, -⟩ := bootMain_ok hmain
  refine ⟨setupkvm_userRefs h2, fun k q => ?_⟩
  rw [hproc]
  exact Nat.zero_le _

theorem Tidy.frame {S : Fin NPROC → Prop} (h : Tidy m) (hs : SameBut S m m')
    (hS : ∀ k, S k → ∀ q, userOf (m'.proc k) q ≤ 1) : Tidy m' where
  kern q := (hs.kpgdir.userRefs q).trans (h.kern q)
  once k q := by
    by_cases hk : S k
    · exact hS k hk q
    · rw [(hs.slot k hk).userOf]
      exact h.once k q

theorem Tidy.setProc {x : Option Proc} (h : Tidy m) (hx : ∀ q, userOf x q ≤ 1) (ph : Phys) :
    Tidy { m.setProc i x with phys := ph } := by
  refine h.frame (S := (· = i)) (sameBut_setProc m x ph rfl) ?_
  rintro k rfl q
  change userOf (update m.proc k x k) q ≤ 1
  rw [update_self]
  exact hx q

theorem Tidy.proc (h : Tidy m) (hp : m.proc i = some p) (q : Nat) : p.pgdir.userRefs q ≤ 1 := by
  have := h.once i q
  rwa [hp] at this

theorem userRefs_le_one {d : PgDir}
    (h : ∀ va < KERNBASE, (d.get va).present = true → d.userRefs (d.get va).ppn ≤ 1) (q : Nat) :
    d.userRefs q ≤ 1 := by
  by_contra hc
  obtain ⟨va, hva, hp, rfl⟩ := exists_of_userRefs_pos (d := d) (p := q) (by omega)
  exact hc (h va hva hp)

theorem copyuvm_demoted {kstack : Nat} {pgdir : PgDir} {d : Option PgDir} {ph1 ph2 : Phys} (h : Inv ld m)
    (hp : m.proc i = some p) (hk : kalloc m.phys = .ok (some kstack, ph1))
    (hc : copyuvm ld p.pgdir p.sz ph1 = .ok ((pgdir, d), ph2)) : Demoted p.pgdir pgdir := by
  have hsz := Nat.le_of_lt (h.wf i p hp).sz_lt
  obtain ⟨-, -, -, ha⟩ := acct_kalloc (h.frame hp) hk
  cases d with
  | none => exact (acct_copyuvm_none hsz ha hc).2.2
  | some d => exact (acct_copyuvm hsz ha hc).2.2

theorem tidy_fork {r : Bool} (h : Inv ld m) (ht : Tidy m) (hp : m.proc i = some p)
    (hf : fork ld i p m = .ok (r, m')) : Tidy m' := by
  rcases fork_cases hf with ⟨-, rfl⟩ | ⟨ph, -, -, rfl⟩ |
    ⟨j, kstack, ph1, pgdir, d, ph2, -, hk, hc, hcases⟩
  · exact ht
  · exact ⟨ht.kern, ht.once⟩
  · have hparent : ∀ q, userOf (some { p with pgdir := pgdir }) q ≤ 1 := fun q => by
      rw [userOf, (copyuvm_demoted h hp hk hc).user]
      exact ht.proc hp q
    rcases hcases with ⟨-, -, ph3, -, rfl⟩ | ⟨c, rfl, -, rfl⟩
    · exact ht.setProc hparent ph3
    · refine (ht.setProc hparent m.phys).setProc (fun q => ?_) ph2
      exact Nat.le_trans (fork_child_refs (h.wf i p hp) hc q) (ht.proc hp q)

theorem once_allocuvm {d : PgDir} {newsz sz : Nat} {ph : Phys} (h : Inv ld m) (ht : Tidy m)
    (hp : m.proc i = some p) (ha : allocuvm ld p.pgdir p.sz newsz m.phys = .ok ((d, sz), ph)) (q : Nat) :
    d.userRefs q ≤ 1 := by
  have hframe := h.frame hp
  by_cases hz : sz = 0
  · subst hz
    refine Nat.le_trans (PgDir.userRefs_le (fun va hva hpr => ?_) q) (ht.proc hp q)
    have hent : d.get va = p.pgdir.get va := by
      rcases allocuvm_fail hframe ha with ⟨hsame, -⟩ | ⟨-, -, hun⟩
      · exact hsame va
      · exact hun.entry hva hpr
    rw [← hent]
    exact ⟨hpr, rfl⟩
  · obtain ⟨hold, hnew⟩ := allocuvm_counts hframe ha hz
    refine userRefs_le_one (fun va hva hpr => ?_) q
    rcases hnew va hva hpr with heq | ⟨h1, -⟩
    · have hpos := PgDir.userRefs_pos (heq ▸ hpr) hva
      rw [heq, hold _ (by omega)]
      exact ht.proc hp _
    · exact Nat.le_of_eq h1

theorem tidy_growproc {n : Int} {r : Bool} (h : Inv ld m) (ht : Tidy m) (hp : m.proc i = some p)
    (hg : growproc ld i p n m = .ok (r, m')) : Tidy m' := by
  rcases growproc_cases hg with ⟨-, -, rfl⟩ | ⟨d, sz, ph, ⟨-, ha⟩ | ⟨-, ha⟩, -, rfl⟩
  · exact ht
  · refine ht.setProc (fun q => ?_) ph
    exact once_allocuvm h ht hp ha q
  · have hsh := (acct_deallocuvm (Nat.le_of_lt (h.wf i p hp).sz_lt) (h.frame hp) ha).2.2
    exact ht.setProc (fun q => Nat.le_trans (hsh.user q) (ht.proc hp q)) ph

theorem tidy_exit {u : Unit} (ht : Tidy m) (hp : m.proc i = some p) (he : exit i p m = .ok (u, m')) :
    Tidy m' := by
  obtain ⟨-, rfl⟩ := exit_ok he
  refine ht.setProc (fun q => ?_) m.phys
  exact ht.proc hp q

theorem tidy_cow {va : Nat} {d : PgDir} {ph : Phys} (h : Inv ld m) (ht : Tidy m) (hp : m.proc i = some p)
    (hva : va < KERNBASE) (hc : CoW_handler p.pgdir va m.phys = .ok (some d, ph)) (ph' : Phys) :
    Tidy { m.setProc i (some { p with pgdir := d }) with phys := ph' } := by
  have hun := CoW_handler_unshared hva (h.frame hp) hc
  refine ht.setProc (fun q => ?_) ph'
  change d.userRefs q ≤ 1
  by_cases hq : q = (d.get va).ppn
  · have := hun.alone
    rw [← hq] at this
    omega
  · exact Nat.le_trans (hun.le q hq) (ht.proc hp q)

theorem tidy_fault {va : Nat} {u : Unit} (h : Inv ld m) (ht : Tidy m) (hp : m.proc i = some p)
    (hva : va < KERNBASE) (hf : fault i p va m = .ok (u, m')) : Tidy m' := by
  rcases fault_cases hf with ⟨ph, -, he⟩ | ⟨d, ph, hc, rfl⟩
  · exact tidy_exit (m := { m with phys := ph }) ⟨ht.kern, ht.once⟩ hp he
  · exact tidy_cow h ht hp hva hc ph

theorem tidy_store {va : Nat} {b : UInt8} {u : Unit} (h : Inv ld m) (ht : Tidy m) (hp : m.proc i = some p)
    (hva : va < KERNBASE) (hf : store i p va b m = .ok (u, m')) : Tidy m' := by
  rcases store_cases hf with ⟨-, rfl⟩ | ⟨-, ⟨ph, -, he⟩ | ⟨d, ph, hc, rfl⟩⟩
  · exact ⟨ht.kern, ht.once⟩
  · exact tidy_exit (m := { m with phys := ph }) ⟨ht.kern, ht.once⟩ hp he
  · exact tidy_cow h ht hp hva hc _

theorem tidy_exec {ip : Option (List UInt8)} {uargv : List Nat} {r : Bool} (h : Inv ld m) (ht : Tidy m)
    (hp : m.proc i = some p)
    (hshort : ∀ addr ∈ uargv, ∀ arg, fetchstr m.phys p addr = some (some arg) →
      arg.length + 4 ≤ 0x2000000)
    (he : sys_exec ld i p ip uargv m = .ok (r, m')) : Tidy m' := by
  rcases sys_exec_cases he with hx | rfl | ⟨argv, he, hargs⟩
  · exact tidy_exit ht hp hx
  · exact ht
  · have hshort' : ∀ arg ∈ argv, arg.length + 4 ≤ 0x2000000 := by
      intro arg harg
      obtain ⟨addr, ha, hfa⟩ := hargs arg harg
      exact hshort addr ha arg hfa
    rcases exec_cases h ⟨i, p, hp⟩ hshort' he with
      ⟨ph, -, rfl⟩ | ⟨ph, d, m1, d1, sz, hw, hb, -, -, hend⟩
    · exact ⟨ht.kern, ht.once⟩
    · have ht1 : Tidy m1 := Tidy.frame (m := { m with phys := ph }) ⟨ht.kern, ht.once⟩ hw.rest
        fun _ hk => hk.elim
      rcases hend with ⟨ph2, -, rfl⟩ | ⟨p1, ph2, -, -, rfl⟩
      · exact ⟨ht1.kern, ht1.once⟩
      · refine ht1.setProc (fun q => ?_) ph2
        exact userRefs_le_one (fun va hva hpr => Nat.le_of_eq (hb.image.priv va hva hpr).1) q

theorem tidy_userinit {init : List UInt8} {u : Unit} (h : Inv ld m) (ht : Tidy m)
    (hnone : ∀ i, m.proc i = none) (hu : userinit ld init m = .ok (u, m')) : Tidy m' := by
  obtain ⟨j, kstack, ph1, d, ph2, d', ph3, -, hk, hs, hi, rfl⟩ := userinit_cases hu
  obtain ⟨q, s1, ok, s2, hq, hm, rfl⟩ := inituvm_cases hi
  obtain rfl := userinit_mapped h hnone hk hs hq hm
  obtain ⟨ha2, -⟩ := acct_setupkvm (acct_kalloc h.acct hk).2.2.2 hs
  obtain ⟨-, -, hrefs, -⟩ := acct_page (by decide) (by decide) ha2 hq hm
  refine ht.setProc (fun r => ?_) _
  change d'.userRefs r ≤ 1
  rw [hrefs, setupkvm_userRefs hs]
  by_cases hr : r = q
  · rw [hr, one_self]
  · rw [one_of_ne hr]
    exact Nat.zero_le _

theorem tidy_next {a : Act} (h : Inv ld m) (ht : Tidy m) (hs : ShortArgs m a)
    (hn : next ld m a = some m') : Tidy m' := by
  cases a with
  | userinit init =>
    rw [next] at hn
    split at hn
    · next hnone =>
      obtain ⟨u, hu⟩ := snd_some hn
      exact tidy_userinit h ht (fun i => by simpa using hnone i) hu
    · cases hn
  | fork i =>
    obtain ⟨p, hp, -, hf⟩ := by_some hn
    obtain ⟨r, hf⟩ := discard_ok hf
    exact tidy_fork h ht hp hf
  | exec i ip uargv =>
    obtain ⟨p, hp, -, hf⟩ := by_some hn
    obtain ⟨r, hf⟩ := discard_ok hf
    exact tidy_exec h ht hp (hs p hp) hf
  | growproc i n =>
    obtain ⟨p, hp, -, hf⟩ := by_some hn
    obtain ⟨r, hf⟩ := discard_ok hf
    exact tidy_growproc h ht hp hf
  | exit i =>
    obtain ⟨p, hp, -, hf⟩ := by_some hn
    exact tidy_exit ht hp hf
  | wait i j =>
    obtain ⟨p, u, -, hf⟩ := wait_next hn
    obtain ⟨ph1, ph2, -, -, rfl⟩ := wait_ok hf
    exact ht.setProc (fun _ => Nat.zero_le _) ph2
  | pipealloc i files =>
    obtain ⟨p, hp, -, hf⟩ := by_some hn
    obtain ⟨r, hf⟩ := discard_ok hf
    rcases pipealloc_cases hf with ⟨-, rfl⟩ | ⟨ph, -, -, rfl⟩ | ⟨q, ph, -, -, rfl⟩
    · exact ht
    · exact ⟨ht.kern, ht.once⟩
    · exact ⟨ht.kern, ht.once⟩
  | pipeclose i k w =>
    obtain ⟨p, hp, -, hf⟩ := by_some hn
    cases hk : m.pipes[k]? with
    | none => rw [hk] at hf; exact (throw_ok hf).elim
    | some pp =>
      rw [hk] at hf
      rcases pipeclose_cases (if_throw_ok hf).2 with ⟨ph, -, rfl⟩ | ⟨pp', -, rfl⟩
      · exact ⟨ht.kern, ht.once⟩
      · exact ⟨ht.kern, ht.once⟩
  | fault i va =>
    obtain ⟨p, hp, -, hf⟩ := by_some hn
    obtain ⟨hmap, hf⟩ := if_throw_ok hf
    exact tidy_fault h ht hp (Nat.lt_trans hmap.1 (h.wf i p hp).sz_lt) hf
  | load i va =>
    obtain ⟨p, hp, -, hf⟩ := by_some hn
    obtain ⟨-, rfl⟩ := Prod.mk.inj (pure_ok (if_throw_ok hf).2)
    exact ht
  | store i va b =>
    obtain ⟨p, hp, -, hf⟩ := by_some hn
    obtain ⟨hmap, hf⟩ := if_throw_ok hf
    exact tidy_store h ht hp (Nat.lt_trans hmap.1 (h.wf i p hp).sz_lt) hf

theorem tidy_along {ncpu : Nat} {mem : Nat → Page} {m0 : Machine} {tr : List (Machine × Act)}
    (hboot : boot ld ncpu mem = .ok m0) (hrun : Path (Next (next ld)) m0 tr m)
    (hshort : Meets ShortArgs tr) : Along (fun m => Inv ld m ∧ Tidy m) tr m :=
  along_of_step (fun _ _ _ h hs hn => ⟨inv_next h.1 hs hn, tidy_next h.1 h.2 hs hn⟩) hrun
    ⟨inv_boot hboot, tidy_boot hboot⟩ hshort

end Xv6.Sys
