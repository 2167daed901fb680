import Xv6.Sys.Total

/-!
# The size of a process

`sz` says which pages of a process are there, until `growproc` is asked to give all of them back:
`deallocuvm` then returns the new size 0, `growproc` takes it for a failure and keeps the old one.
-/

open Xv6.Cmd Xv6.Run Xv6.Vm

namespace Xv6.Sys

variable {ld : Linker} {s s' : Phys} {d d' : PgDir} {m m' : Machine} {i : Fin NPROC} {p : Proc}

/-- Every page below the size, rounded up, is there, and no other page of user memory is. -/
def Proc.SizeOk (p : Proc) : Prop :=
  (∀ va < pgroundup p.sz, (p.pgdir.get va).present = true) ∧
  ∀ va, pgroundup p.sz ≤ va → va < KERNBASE → (p.pgdir.get va).present = false

def SizeOk (m : Machine) : Prop := ∀ i p, m.proc i = some p → p.zombie = false → p.SizeOk

/-- No `growproc` brings the size to 0. For an `int` this means that `n` is not `-sz`. -/
def KeepsSome (m : Machine) : Act → Prop
  | .growproc i n => ∀ p ∈ m.proc i, n < 0 → addInt p.sz n ≠ 0
  | _ => True

/-! ## The pages below the size -/

/-- The part of `SizeOk` that `Inv` does not have. -/
structure Proc.Filled (p : Proc) : Prop where
  pos : 0 < p.sz
  full : ∀ va, va / PGSIZE * PGSIZE < p.sz → (p.pgdir.get va).present = true

def Machine.Filled (m : Machine) : Prop := ∀ i p, m.proc i = some p → p.Filled

theorem lt_pgroundup_iff {sz va : Nat} (h : sz ≤ KERNBASE) :
    va < pgroundup sz ↔ va / PGSIZE * PGSIZE < sz := by
  rw [pgroundup_of_le h]
  simp only [PGSIZE]
  omega

theorem sizeOk_of_filled (h : Inv ld m) (hf : m.Filled) : SizeOk m := by
  intro i p hp _
  have hwf := h.wf i p hp
  have hround : ∀ va, va < pgroundup p.sz ↔ _ := fun _ => lt_pgroundup_iff (Nat.le_of_lt hwf.sz_lt)
  refine ⟨fun va hva => (hf i p hp).full va ((hround va).mp hva), fun va hva hk => ?_⟩
  by_contra hc
  have := (hround va).mpr (hwf.below va hk (by simpa using hc))
  omega

theorem Machine.Filled.setProc {o : Option Proc} (h : m.Filled) (ho : ∀ p ∈ o, p.Filled) :
    (m.setProc i o).Filled := by
  intro k q hq
  by_cases hk : k = i
  · subst hk
    exact ho q (by simpa [Machine.setProc] using hq)
  · exact h k q (by simpa [Machine.setProc, Function.update_of_ne hk] using hq)

theorem Proc.Filled.mono (h : p.Filled) (hd : ∀ va < KERNBASE, (p.pgdir.get va).present = true →
      (d.get va).present = true) (hsz : p.sz < KERNBASE) : ({ p with pgdir := d } : Proc).Filled where
  pos := h.pos
  full va hva := by
    refine hd va ?_ (h.full va hva)
    simp only [KERNBASE, PGSIZE] at *
    omega

/-! ## Steps -/

theorem filled_userinit {init : List UInt8} {u : Unit} (h : Inv ld m) (hnone : ∀ i, m.proc i = none)
    (hu : userinit ld init m = .ok (u, m')) : m'.Filled := by
  obtain ⟨j, kstack, ph1, d, ph2, d', ph3, -, hk, hs, hi, rfl⟩ := userinit_cases hu
  obtain ⟨q, s1, ok, s2, hq, hm, rfl⟩ := inituvm_cases hi
  obtain rfl := userinit_mapped h hnone hk hs hq hm
  have hget := ((map_user_shape (by decide) (by decide) hm).2.2 rfl).2.2
  have hold : m.Filled := by
    intro i p hp
    rw [hnone] at hp
    cases hp
  refine hold.setProc (i := j) fun p hp => ?_
  obtain rfl := Option.some.inj hp
  refine ⟨(by decide : 0 < PGSIZE), fun va hva => ?_⟩
  change va / PGSIZE * PGSIZE < PGSIZE at hva
  change (d'.get va).present = true
  have h0 : va / PGSIZE = 0 / PGSIZE := by
    simp only [PGSIZE] at *
    omega
  rw [hget va (by simp only [PGSIZE] at *; omega), if_pos h0]
  rfl

theorem filled_fork {r : Bool} (h : Inv ld m) (hfill : m.Filled) (hp : m.proc i = some p)
    (hf : fork ld i p m = .ok (r, m')) : m'.Filled := by
  have hwf := h.wf i p hp
  have hsz := Nat.le_of_lt hwf.sz_lt
  have hpf := hfill i p hp
  rcases fork_cases hf with ⟨-, rfl⟩ | ⟨ph, -, -, rfl⟩ | ⟨j, kstack, ph1, pgdir, o, ph2, -, hk, hc, hrest⟩
  · exact hfill
  · exact hfill
  obtain ⟨-, -, -, ha1⟩ := acct_kalloc (h.frame hp) hk
  rcases hrest with ⟨rfl, -, ph3, -, rfl⟩ | ⟨c, rfl, -, rfl⟩
  · obtain ⟨-, -, hd⟩ := acct_copyuvm_none hsz ha1 hc
    refine hfill.setProc (i := i) fun q hq => ?_
    obtain rfl := Option.some.inj hq
    exact hpf.mono (fun va _ hpr => (hd.present va).trans hpr) hwf.sz_lt
  · have hshape := (copyuvm_shape hsz hc).2
    have hcopied : ∀ va, va / PGSIZE * PGSIZE < p.sz →
        (c.get va).present = true ∧ (pgdir.get va).present = true := by
      intro va hva
      have hva' := hshape va (by simp only [KERNBASE, PGSIZE] at *; omega)
      rw [if_pos hva] at hva'
      rw [hva'.2.1, hva'.2.2]
      exact ⟨hva'.1, hva'.1⟩
    refine Machine.Filled.setProc (i := j) (hfill.setProc (i := i) fun q hq => ?_) fun q hq => ?_
    · obtain rfl := Option.some.inj hq
      exact ⟨hpf.pos, fun va hva => (hcopied va hva).2⟩
    · obtain rfl := Option.some.inj hq
      exact ⟨hpf.pos, fun va hva => (hcopied va hva).1⟩

theorem filled_alloc {newsz sz : Nat} {ph : Phys} (h : Inv ld m) (hp : m.proc i = some p)
    (hfill : p.Filled) (ha : allocuvm ld p.pgdir p.sz newsz m.phys = .ok ((d, sz), ph)) :
    ({ p with pgdir := d, sz := if sz = 0 then p.sz else sz } : Proc).Filled := by
  have hframe := h.frame hp
  have hwf := h.wf i p hp
  have hround : ∀ va, va < pgroundup p.sz ↔ _ := fun _ => lt_pgroundup_iff (Nat.le_of_lt hwf.sz_lt)
  by_cases hz : sz = 0
  · subst hz
    rw [if_pos rfl]
    rcases allocuvm_fail hframe ha with ⟨hsame, -⟩ | ⟨-, -, hun⟩
    · exact hfill.mono (fun va _ hpr => by rw [hsame]; exact hpr) hwf.sz_lt
    · refine ⟨hfill.pos, fun va hva => ?_⟩
      have hlt := hwf.sz_lt
      change (d.get va).present = true
      rw [hun.out va (by simp only [KERNBASE, PGSIZE] at *; omega) (.inl ((hround va).mpr hva))]
      exact hfill.full va hva
  · rw [if_neg hz]
    obtain ⟨hlt, ⟨-, rfl, rfl, -⟩ | ⟨hle, rfl, hg, -⟩⟩ := allocuvm_ok hframe ha hz
    · exact hfill
    · refine ⟨Nat.pos_of_ne_zero hz, fun va hva => ?_⟩
      change (d.get va).present = true
      by_cases hup : pgroundup p.sz ≤ va
      · obtain ⟨-, -, q, hq, -⟩ := hg.new va hup hva
        rw [hq]
        rfl
      · rw [hg.out va (by simp only [KERNBASE, PGSIZE] at *; omega) (.inl (by omega))]
        exact hfill.full va ((hround va).mp (by omega))

theorem filled_dealloc {newsz sz : Nat} {ph : Phys} (hsz : p.sz < KERNBASE) (hfill : p.Filled)
    (hnew : newsz ≠ 0) (ha : deallocuvm ld p.pgdir p.sz newsz m.phys = .ok ((d, sz), ph)) :
    ({ p with pgdir := d, sz := if sz = 0 then p.sz else sz } : Proc).Filled := by
  rcases deallocuvm_shape (Nat.le_of_lt hsz) ha with ⟨-, rfl, rfl, -⟩ | ⟨hlt, rfl, -, hout⟩
  · rw [ite_self]
    exact hfill
  · rw [if_neg hnew]
    refine ⟨Nat.pos_of_ne_zero hnew, fun va hva => ?_⟩
    have hlow : va < pgroundup sz := (lt_pgroundup_iff (by omega)).mpr hva
    change (d.get va).present = true
    change va / PGSIZE * PGSIZE < sz at hva
    rw [hout va (by simp only [KERNBASE, PGSIZE] at *; omega) (.inl hlow)]
    exact hfill.full va (by omega)

theorem filled_growproc {n : Int} {r : Bool} (h : Inv ld m) (hfill : m.Filled)
    (hp : m.proc i = some p) (hkeep : n < 0 → addInt p.sz n ≠ 0)
    (hg : growproc ld i p n m = .ok (r, m')) : m'.Filled := by
  have hpf := hfill i p hp
  rcases growproc_cases hg with ⟨-, -, rfl⟩ | ⟨d, sz, ph, ⟨hn, ha⟩ | ⟨hn, ha⟩, -, rfl⟩
  · exact hfill
  · refine hfill.setProc (i := i) fun q hq => ?_
    obtain rfl := Option.some.inj hq
    exact filled_alloc h hp hpf ha
  · refine hfill.setProc (i := i) fun q hq => ?_
    obtain rfl := Option.some.inj hq
    exact filled_dealloc (h.wf i p hp).sz_lt hpf (hkeep hn) ha

theorem filled_same {d0 : PgDir} (hfill : m.Filled) (hmaps : SameMaps m d0 m' d) : m'.Filled := by
  intro k q hq
  obtain ⟨p, hp, hsz, hget⟩ := hmaps.proc k q hq
  have hpf := hfill k p hp
  refine ⟨hsz ▸ hpf.pos, fun va hva => ?_⟩
  rw [hget]
  exact hpf.full va (hsz ▸ hva)

theorem filled_exit {u : Unit} (hfill : m.Filled) (hp : m.proc i = some p)
    (he : exit i p m = .ok (u, m')) : m'.Filled := by
  obtain ⟨-, rfl⟩ := exit_ok he
  refine hfill.setProc fun q hq => ?_
  obtain rfl := Option.some.inj hq
  exact ⟨(hfill i p hp).pos, (hfill i p hp).full⟩

theorem filled_sys_exec {ip : Option (List UInt8)} {uargv : List Nat} {r : Bool} (h : Inv ld m)
    (hfill : m.Filled) (hp : m.proc i = some p)
    (hshort : ∀ addr ∈ uargv, ∀ arg, fetchstr m.phys p addr = some (some arg) →
      arg.length + 4 ≤ 0x2000000)
    (he : sys_exec ld i p ip uargv m = .ok (r, m')) : m'.Filled := by
  rcases sys_exec_cases he with hx | rfl | ⟨argv, he, hargs⟩
  · exact filled_exit hfill hp hx
  · exact hfill
  have hshort' : ∀ arg ∈ argv, arg.length + 4 ≤ 0x2000000 := by
    intro arg harg
    obtain ⟨addr, ha, hfa⟩ := hargs arg harg
    exact hshort addr ha arg hfa
  rcases exec_cases h ⟨i, p, hp⟩ hshort' he with
    ⟨ph, -, rfl⟩ | ⟨ph, d, m1, d1, sz, hwritten, hb, hpos, -, ⟨ph2, -, rfl⟩ | ⟨p1, ph2, -, -, rfl⟩⟩
  · exact hfill
  · have h1 := filled_same (m := { m with phys := ph }) hfill hwritten.maps
    exact h1
  · have h1 := filled_same (m := { m with phys := ph }) hfill hwritten.maps
    refine h1.setProc (i := i) fun q hq => ?_
    obtain rfl := Option.some.inj hq
    exact ⟨hpos, hb.image.full⟩

theorem filled_cow {va : Nat} {ph : Phys} (h : Inv ld m) (hfill : m.Filled) (hp : m.proc i = some p)
    (hva : va < KERNBASE) (hc : CoW_handler p.pgdir va m.phys = .ok (some d, ph)) :
    (m.setProc i (some { p with pgdir := d })).Filled := by
  have hun := CoW_handler_unshared hva (h.frame hp) hc
  refine hfill.setProc fun q hq => ?_
  obtain rfl := Option.some.inj hq
  refine (hfill i p hp).mono (fun b hb hpr => ?_) (h.wf i p hp).sz_lt
  by_cases hpg : b / PGSIZE = va / PGSIZE
  · rw [← PgDir.get_page d b, hpg, PgDir.get_page]
    exact hun.present
  · rw [hun.out b (by simp only [KERNBASE] at *; omega) hpg]
    exact hpr

theorem filled_next {a : Act} (h : Inv ld m) (hfill : m.Filled) (hs : ShortArgs m a)
    (hk : KeepsSome m a) (hn : next ld m a = some m') : m'.Filled := by
  cases a with
  | userinit init =>
    rw [next] at hn
    split at hn
    · next hnone =>
      obtain ⟨u, hu⟩ := snd_some hn
      exact filled_userinit h (fun i => by simpa using hnone i) hu
    · cases hn
  | fork i =>
    obtain ⟨p, hp, -, hf⟩ := by_some hn
    obtain ⟨r, hf⟩ := discard_ok hf
    exact filled_fork h hfill hp hf
  | exec i ip uargv =>
    obtain ⟨p, hp, -, hf⟩ := by_some hn
    obtain ⟨r, hf⟩ := discard_ok hf
    exact filled_sys_exec h hfill hp (hs p hp) hf
  | growproc i n =>
    obtain ⟨p, hp, -, hf⟩ := by_some hn
    obtain ⟨r, hf⟩ := discard_ok hf
    exact filled_growproc h hfill hp (hk p hp) hf
  | exit i =>
    obtain ⟨p, hp, -, hf⟩ := by_some hn
    exact filled_exit hfill hp hf
  | wait i j =>
    obtain ⟨p, -, -, hf⟩ := by_some hn
    cases hj : m.proc j with
    | none => rw [hj] at hf; exact (throw_ok hf).elim
    | some pj =>
      rw [hj] at hf
      obtain ⟨ph1, ph2, -, -, rfl⟩ := wait_ok (if_throw_ok hf).2
      exact hfill.setProc (i := j) fun q hq => by cases hq
  | pipealloc i files =>
    obtain ⟨p, -, -, hf⟩ := by_some hn
    obtain ⟨r, hf⟩ := discard_ok hf
    rcases pipealloc_cases hf with ⟨-, rfl⟩ | ⟨ph, -, -, rfl⟩ | ⟨q, ph, -, -, rfl⟩ <;> exact hfill
  | pipeclose i k w =>
    obtain ⟨p, -, -, hf⟩ := by_some hn
    cases hk : m.pipes[k]? with
    | none => rw [hk] at hf; exact (throw_ok hf).elim
    | some pp =>
      rw [hk] at hf
      rcases pipeclose_cases (if_throw_ok hf).2 with ⟨ph, -, rfl⟩ | ⟨pp', -, rfl⟩ <;> exact hfill
  | fault i va =>
    obtain ⟨p, hp, -, hf⟩ := by_some hn
    obtain ⟨hmap, hf⟩ := if_throw_ok hf
    rcases fault_cases hf with ⟨ph, -, he⟩ | ⟨d, ph, hc, rfl⟩
    · exact filled_exit (m := { m with phys := ph }) hfill hp he
    · exact filled_cow h hfill hp (Nat.lt_trans hmap.1 (h.wf i p hp).sz_lt) hc
  | load i va =>
    obtain ⟨p, -, -, hf⟩ := by_some hn
    obtain ⟨-, rfl⟩ := Prod.mk.inj (pure_ok (if_throw_ok hf).2)
    exact hfill
  | store i va b =>
    obtain ⟨p, hp, -, hf⟩ := by_some hn
    obtain ⟨hmap, hf⟩ := if_throw_ok hf
    rcases store_cases hf with ⟨-, rfl⟩ | ⟨-, ⟨ph, -, he⟩ | ⟨d, ph, hc, rfl⟩⟩
    · exact hfill
    · exact filled_exit (m := { m with phys := ph }) hfill hp he
    · exact filled_cow h hfill hp (Nat.lt_trans hmap.1 (h.wf i p hp).sz_lt) hc

theorem growproc_whole {n : Int} {r : Bool} (hsz : p.sz < KERNBASE) (hpos : 0 < p.sz) (hn : n < 0)
    (hzero : addInt p.sz n = 0) (hg : growproc ld i p n m = .ok (r, m')) :
    ∃ d ph, deallocuvm ld p.pgdir p.sz 0 m.phys = .ok ((d, 0), ph) ∧ (d.get 0).present = false ∧
      m' = { m.setProc i (some { p with pgdir := d }) with phys := ph } := by
  rcases growproc_cases hg with ⟨rfl, -⟩ | ⟨d, sz, ph, ⟨hn', -⟩ | ⟨-, ha⟩, -, rfl⟩
  · omega
  · omega
  · rw [hzero] at ha
    rcases deallocuvm_shape (Nat.le_of_lt hsz) ha with ⟨hc, -⟩ | ⟨-, rfl, hgone, -⟩
    · omega
    · exact ⟨d, ph, ha, hgone 0 (by decide) (by simpa using hpos), rfl⟩

theorem not_sizeOk_next {a : Act} (h : Inv ld m) (hfill : m.Filled) (hk : ¬ KeepsSome m a)
    (hn : next ld m a = some m') : ¬ SizeOk m' := by
  cases a with
  | growproc i n =>
    obtain ⟨p, hp, hz, hf⟩ := by_some hn
    obtain ⟨r, hf⟩ := discard_ok hf
    have hpos := (hfill i p hp).pos
    have hlt := (h.wf i p hp).sz_lt
    simp only [KeepsSome, hp, Option.mem_some_iff, forall_eq', Classical.not_imp, Classical.not_not] at hk
    obtain ⟨d, ph, -, hgone, rfl⟩ := growproc_whole hlt hpos hk.1 hk.2 hf
    intro hok
    have h0 := (hok i { p with pgdir := d } (Function.update_self i _ m.proc) hz).1 0
      (Nat.lt_of_lt_of_le hpos (le_pgroundup (Nat.le_of_lt hlt)))
    rw [hgone] at h0
    cases h0
  | _ => exact absurd trivial hk

/-! ## What stops `fork` -/

/-- The two panics of `copyuvm`. -/
def CopyPanic (e : Stop) : Prop :=
  e = .panic "copyuvm: pte should exist" ∨ e = .panic "copyuvm: page not present"

abbrev NotCopyPanic (e : Stop) : Prop := ¬ CopyPanic e

theorem throws_kfree (q : Nat) : Throws NotCopyPanic (kfree ld q) := by
  intro s e h
  unfold kfree at h
  split at h
  · cases h
    simp [NotCopyPanic, CopyPanic]
  · cases h

theorem throws_kalloc : Throws NotCopyPanic kalloc := by
  intro s e h
  unfold kalloc at h
  split at h <;> cases h

theorem throws_memset (q : Nat) (c : UInt8) : Throws NotCopyPanic (memset q c) := fun _ _ h => by cases h

theorem throws_walkpgdir (va : Nat) : Throws NotCopyPanic (walkpgdir d va) := by
  unfold walkpgdir
  split
  · exact throws_pure _
  · refine throws_bind throws_kalloc fun r => ?_
    cases r with
    | none => exact throws_pure _
    | some q => exact throws_bind (throws_memset q 0) fun _ => throws_pure _

theorem throws_mapUntil {perm : Perm} {last n a pa : Nat} :
    Throws NotCopyPanic (mapUntil perm last n d a pa) := by
  induction n generalizing d a pa with
  | zero => exact throws_throw (by simp [NotCopyPanic, CopyPanic])
  | succ n ih =>
    unfold mapUntil
    refine throws_bind (throws_walkpgdir a) fun r => ?_
    refine throws_ite (fun _ => throws_pure _) fun _ => throws_ite (fun _ => ?_) fun _ =>
      throws_ite (fun _ => throws_pure _) fun _ => ih
    exact throws_throw (by simp [NotCopyPanic, CopyPanic])

theorem throws_mappages {va size pa : Nat} {perm : Perm} :
    Throws NotCopyPanic (mappages d va size pa perm) :=
  throws_mapUntil

theorem throws_deallocLoop {oldsz n a : Nat} : Throws NotCopyPanic (deallocLoop ld oldsz n d a) := by
  induction n generalizing d a with
  | zero =>
    unfold deallocLoop
    exact throws_ite (fun _ => throws_throw (by simp [NotCopyPanic, CopyPanic])) fun _ => throws_pure _
  | succ n ih =>
    unfold deallocLoop
    refine throws_ite (fun _ => ?_) fun _ => throws_pure _
    refine throws_ite (fun _ => ih) fun _ => throws_ite (fun _ => ?_) fun _ => ih
    refine throws_ite (fun _ => throws_throw (by simp [NotCopyPanic, CopyPanic])) fun _ => ?_
    exact throws_bind (throws_kfree _) fun _ => ih

theorem throws_freeTabs {is : List Nat} : Throws NotCopyPanic (freeTabs ld d is) := by
  induction is with
  | nil => exact throws_pure _
  | cons i is ih =>
    unfold freeTabs
    split
    · exact throws_bind (throws_kfree _) fun _ => ih
    · exact ih

theorem throws_freevm : Throws NotCopyPanic (freevm ld d) := by
  unfold freevm deallocuvm
  refine throws_bind (throws_ite (fun _ => throws_pure _) fun _ => ?_) fun r => ?_
  · exact throws_bind throws_deallocLoop fun _ => throws_pure _
  · exact throws_bind throws_freeTabs fun _ => throws_kfree _

theorem throws_kmapLoop {ks : List Kmap} : Throws NotCopyPanic (kmapLoop ks d) := by
  induction ks generalizing d with
  | nil => exact throws_pure _
  | cons k ks ih =>
    unfold kmapLoop
    exact throws_bind throws_mappages fun r => throws_ite (fun _ => ih) fun _ => throws_pure _

theorem throws_setupkvm : Throws NotCopyPanic (setupkvm ld) := by
  unfold setupkvm
  refine throws_bind throws_kalloc fun r => ?_
  cases r with
  | none => exact throws_pure _
  | some q =>
    refine throws_bind (throws_memset q 0) fun _ => ?_
    refine throws_ite (fun _ => throws_throw (by simp [NotCopyPanic, CopyPanic])) fun _ => ?_
    refine throws_bind throws_kmapLoop fun r => throws_ite (fun _ => throws_pure _) fun _ => ?_
    exact throws_bind throws_freevm fun _ => throws_pure _

theorem throws_copyLoop {sz n a : Nat} {pgdir : PgDir} (hsz : sz ≤ KERNBASE)
    (hfull : ∀ va < sz, (pgdir.get va).present = true) : Throws NotCopyPanic (Vm.copyLoop sz n pgdir d a) := by
  induction n generalizing pgdir d a with
  | zero =>
    unfold Vm.copyLoop
    exact throws_ite (fun _ => throws_throw (by simp [NotCopyPanic, CopyPanic])) fun _ => throws_pure _
  | succ n ih =>
    unfold Vm.copyLoop
    refine throws_ite (fun ha => ?_) fun _ => throws_pure _
    have hpr := hfull a ha
    have htab := PgDir.hasTab_of_present hpr
    refine throws_ite (fun hc => ?_) fun _ => throws_ite (fun hc => ?_) fun _ => ?_
    · simp [PgDir.HasTab, Option.isNone_iff_eq_none.mp hc] at htab
    · rw [hpr] at hc
      cases hc
    · refine throws_bind throws_mappages fun r => throws_ite (fun _ => ?_) fun _ => throws_pure _
      refine throws_bind (fun _ _ h => by cases h) fun _ => ih fun va hva => ?_
      rw [PgDir.get_set htab (by simp only [KERNBASE] at *; omega) (by simp only [KERNBASE] at *; omega)]
      split
      · exact hpr
      · exact hfull va hva

theorem throws_fork (hsz : p.sz ≤ KERNBASE) (hfull : ∀ va < p.sz, (p.pgdir.get va).present = true) :
    Throws NotCopyPanic (fork ld i p) := by
  unfold fork
  refine throws_bind ?_ fun r => ?_
  · intro m e h
    unfold allocproc at h
    split at h
    · cases h
    · refine throws_bind (throws_zoom throws_kalloc) (fun r => ?_) m e h
      cases r <;> exact throws_pure _
  · rcases r with - | ⟨j, kstack⟩
    · exact throws_pure _
    · refine throws_bind (throws_zoom ?_) fun r => throws_bind (fun _ _ h => by cases h) fun _ => ?_
      · unfold copyuvm
        refine throws_bind throws_setupkvm fun r => ?_
        cases r with
        | none => exact throws_pure _
        | some d =>
          refine throws_bind (throws_copyLoop hsz hfull) fun r => ?_
          refine throws_ite (fun _ => throws_pure _) fun _ => ?_
          exact throws_bind throws_freevm fun _ => throws_pure _
      · rcases r with ⟨pgdir, - | d⟩
        · exact throws_bind (throws_zoom (throws_kfree _)) fun _ => throws_pure _
        · exact throws_bind (fun _ _ h => by cases h) fun _ => throws_pure _

/-! ## Runs -/

theorem filled_boot {ncpu : Nat} {mem : Nat → Page} {m0 : Machine} (hboot : boot ld ncpu mem = .ok m0) :
    m0.Filled := by
  intro i p hp
  rw [(boot_ok hboot).2.1] at hp
  cases hp

theorem filled_along {ncpu : Nat} {mem : Nat → Page} {m0 : Machine} {tr : List (Machine × Act)}
    (hboot : boot ld ncpu mem = .ok m0) (hrun : Path (Next (next ld)) m0 tr m) (hshort : Meets ShortArgs tr)
    (hkeep : Meets KeepsSome tr) : Along (fun m => Inv ld m ∧ m.Filled) tr m :=
  along_of_step (fun _ _ _ h (hs : ShortArgs _ _ ∧ KeepsSome _ _) hn =>
      ⟨inv_next h.1 hs.1 hn, filled_next h.1 h.2 hs.1 hs.2 hn⟩)
    hrun ⟨inv_boot hboot, filled_boot hboot⟩ fun x hx => ⟨hshort x hx, hkeep x hx⟩

/-- Along a run with short arguments the sizes match the page tables in every state exactly when no
`growproc` brings a size to 0, and then no `fork` of a live process panics in `copyuvm`. -/
theorem size_matches_iff {ncpu : Nat} {mem : Nat → Page} {m0 : Machine} {tr : List (Machine × Act)}
    (hboot : boot ld ncpu mem = .ok m0) (hrun : Path (Next (next ld)) m0 tr m)
    (hshort : Meets ShortArgs tr) :
    (Along SizeOk tr m ↔ Meets KeepsSome tr) ∧
    (Meets KeepsSome tr → ∀ i p, m.proc i = some p → p.zombie = false →
      ∀ e, fork ld i p m = .error e → ¬ CopyPanic e) := by
  have hiff : Along SizeOk tr m ↔ Meets KeepsSome tr :=
    along_iff_meets (fun m (h : Inv ld m ∧ m.Filled) => sizeOk_of_filled h.1 h.2)
      (fun m a m' h hk (hs : ShortArgs m a ∧ Next (next ld) m a m') =>
        ⟨inv_next h.1 hs.1 hs.2, filled_next h.1 h.2 hs.1 hk hs.2⟩)
      (fun m a m' h hk hs => not_sizeOk_next h.1 h.2 hk hs.2) (hrun.guard hshort)
      ⟨inv_boot hboot, filled_boot hboot⟩
  refine ⟨hiff, fun hk i p hp hz e he => ?_⟩
  have hlt := ((inv_along hboot hrun hshort).2.wf i p hp).sz_lt
  have hok := (hiff.mpr hk).2 i p hp hz
  refine throws_fork (Nat.le_of_lt hlt) (fun va hva => hok.1 va ?_) m e he
  exact Nat.lt_of_lt_of_le hva (le_pgroundup (Nat.le_of_lt hlt))

/-- An `sbrk` up keeps the sizes right. -/
theorem size_matches_after_growth :
    ∃ m0 tr m, boot demoLinker 1 (fun _ _ => 0) = .ok m0 ∧ Path (Next (next demoLinker)) m0 tr m ∧
      tr.map Prod.snd = [.userinit [], .growproc initproc 0x1000] ∧ Along SizeOk tr m := by
  obtain ⟨m0, m, p, hboot, hf, -⟩ := first_growth (c := 1) (n := 0x1000) (by decide) (by decide) (by decide)
  obtain ⟨tr, hrun, htr⟩ := path_of_follow hf
  refine ⟨m0, tr, m, hboot, hrun, htr, (size_matches_iff hboot hrun (meets_growth htr)).1.mpr ?_⟩
  refine meets_of_labels htr fun a ha m => ?_
  rcases List.mem_pair.mp ha with rfl | rfl
  · trivial
  · intro p _ hn
    omega

/-! ## The run that gives everything back -/

theorem kfree_length {q : Nat} {u : Unit} (h : kfree ld q s = .ok (u, s')) :
    s.freelist.length ≤ s'.freelist.length := by
  unfold kfree at h
  split at h
  · cases h
  · obtain ⟨-, rfl⟩ := Prod.mk.inj (Except.ok.inj h)
    split <;> split <;> simp [Phys.push, Phys.setMem, Phys.setRefc]

theorem deallocLoop_length {oldsz n a : Nat} (h : deallocLoop ld oldsz n d a s = .ok (d', s')) :
    s.freelist.length ≤ s'.freelist.length := by
  induction n generalizing d a s with
  | zero =>
    unfold deallocLoop at h
    split at h
    · exact (throw_ok h).elim
    · obtain ⟨-, rfl⟩ := Prod.mk.inj (pure_ok h)
      exact Nat.le_refl _
  | succ n ih =>
    unfold deallocLoop at h
    split at h
    · split at h
      · exact ih h
      split at h
      · split at h
        · exact (throw_ok h).elim
        · obtain ⟨_, s1, hf, h⟩ := bind_ok h
          exact Nat.le_trans (kfree_length hf) (ih h)
      · exact ih h
    · obtain ⟨-, rfl⟩ := Prod.mk.inj (pure_ok h)
      exact Nat.le_refl _

theorem deallocuvm_length {oldsz newsz r : Nat} (h : deallocuvm ld d oldsz newsz s = .ok ((d', r), s')) :
    s.freelist.length ≤ s'.freelist.length := by
  unfold deallocuvm at h
  split at h
  · obtain ⟨-, -, rfl⟩ := pure_pair_ok h
    exact Nat.le_refl _
  · obtain ⟨d1, s1, hl, h⟩ := bind_ok h
    obtain ⟨-, -, rfl⟩ := pure_pair_ok h
    exact deallocLoop_length hl

theorem growproc_of_ok {n : Int} {sz : Nat} {ph : Phys}
    (h : 0 < n ∧ allocuvm ld p.pgdir p.sz (addInt p.sz n) m.phys = .ok ((d, sz), ph) ∨
      n < 0 ∧ deallocuvm ld p.pgdir p.sz (addInt p.sz n) m.phys = .ok ((d, sz), ph)) :
    growproc ld i p n m = .ok (decide (sz ≠ 0),
      { m.setProc i (some { p with pgdir := d, sz := if sz = 0 then p.sz else sz }) with phys := ph }) := by
  unfold growproc
  rcases h with ⟨hn, ha⟩ | ⟨hn, ha⟩
  · rw [if_pos hn, bind_of_ok (onPhys_of_ok ha)]
    by_cases hz : sz = 0 <;> simp only [hz, if_true, if_false, ne_eq, not_false_eq_true, decide_true] <;> rfl
  · rw [if_neg (by omega), if_pos hn, bind_of_ok (onPhys_of_ok ha)]
    by_cases hz : sz = 0 <;> simp only [hz, if_true, if_false, ne_eq, not_false_eq_true, decide_true] <;> rfl

theorem growproc_shrinks {n : Int} (h : Inv ld m) (hp : m.proc i = some p) (hn : n < 0) :
    ∃ r m', growproc ld i p n m = .ok (r, m') := by
  obtain ⟨d, sz, ph, hd⟩ : ∃ d sz ph, deallocuvm ld p.pgdir p.sz (addInt p.sz n) m.phys =
      .ok ((d, sz), ph) := deallocuvm_total (fun _ h => h)
    (Nat.le_of_lt (h.wf i p hp).sz_lt) (h.frame hp)
  exact ⟨_, _, growproc_of_ok (.inr ⟨hn, hd⟩)⟩

theorem fork_panics {j : Fin NPROC} (hu : m.unused = some j) (hfree : 66 ≤ m.phys.freelist.length)
    (hpos : 0 < p.sz) (h0 : (p.pgdir.get 0).present = false) :
    ∃ e, fork ld i p m = .error e ∧ CopyPanic e := by
  obtain ⟨kstack, ph1, hk, hlen1⟩ := kalloc_total (s := m.phys) (by omega)
  obtain ⟨d0, ph2, hs, -⟩ := setupkvm_total ld (s := ph1) (by omega)
  have hcopy : ∃ e, copyuvm ld p.pgdir p.sz ph1 = .error e ∧ CopyPanic e := by
    unfold copyuvm
    rw [bind_of_ok hs]
    dsimp only
    rw [Vm.copyLoop, if_pos hpos, if_pos h0]
    split
    · exact ⟨_, bind_of_error rfl, .inl rfl⟩
    · exact ⟨_, bind_of_error rfl, .inr rfl⟩
  obtain ⟨e, hcopy, hpanic⟩ := hcopy
  refine ⟨e, ?_, hpanic⟩
  unfold fork
  rw [bind_of_ok (allocproc_of_ok hu hk)]
  dsimp only
  rw [bind_of_error]
  simp [onPhys, zoom, hcopy]

/-- The first process grows to two pages and gives both back. Its size stays, its pages are gone, and
its next `fork` panics. -/
theorem shrink_to_zero_keeps_size :
    ∃ m0 tr m p e, boot demoLinker 1 (fun _ _ => 0) = .ok m0 ∧ Path (Next (next demoLinker)) m0 tr m ∧
      tr.map Prod.snd =
        [.userinit [], .growproc initproc 0x1000, .growproc initproc (-0x2000)] ∧
      m.proc initproc = some p ∧ p.zombie = false ∧ p.sz = 0x2000 ∧ (p.pgdir.get 0).present = false ∧
      ¬ Along SizeOk tr m ∧ fork demoLinker initproc p m = .error e ∧ CopyPanic e := by
  obtain ⟨m0, m1, p, hboot, hf, hinv, hfree, hp, hnone, hz, hsz, -⟩ :=
    first_growth (c := 1) (n := 0x1000) (by decide) (by decide) (by decide)
  obtain ⟨tr, hrun, htr⟩ := path_of_follow hf
  have hlt := (hinv.wf initproc p hp).sz_lt
  have hzero : addInt p.sz (-0x2000) = 0 := by
    rw [hsz]
    decide
  have hpos : 0 < p.sz := by
    rw [hsz]
    decide
  obtain ⟨r, m2, hg⟩ := growproc_shrinks hinv hp (n := -0x2000) (by decide)
  obtain ⟨d, ph, hd, hgone, rfl⟩ := growproc_whole hlt hpos (by decide) hzero hg
  have hstep : Next (next demoLinker) m1 (.growproc initproc (-0x2000)) _ :=
    by_of_ok (f := fun p => do let _ ← growproc demoLinker initproc p (-0x2000)) hp hz (discard_of_ok hg)
  have hlen := deallocuvm_length hd
  have hne : (⟨1, by decide⟩ : Fin NPROC) ≠ initproc := by decide
  have hother : (m1.setProc initproc (some { p with pgdir := d })).proc ⟨1, by decide⟩ = none := by
    simpa only [Machine.setProc, Function.update_of_ne hne] using hnone _ hne
  obtain ⟨j, hu⟩ := exists_unused (k := ⟨1, by decide⟩)
    (m := { m1.setProc initproc (some { p with pgdir := d }) with phys := ph }) hother
  obtain ⟨e, hfork, hpanic⟩ := fork_panics (i := initproc)
    (p := { p with pgdir := d }) hu (by dsimp only; omega) hpos hgone
  refine ⟨m0, _, _, { p with pgdir := d }, e, hboot, .snoc hrun hstep, by rw [List.map_append, htr]; rfl,
    Function.update_self initproc _ m1.proc, hz, hsz, hgone, fun hok => ?_, hfork, hpanic⟩
  have h0 := (hok.2 initproc _ (Function.update_self initproc _ m1.proc) hz).1 0
    (Nat.lt_of_lt_of_le hpos (le_pgroundup (Nat.le_of_lt hlt)))
  rw [hgone] at h0
  cases h0

end Xv6.Sys
