import Xv6.Sys.Boot

/-!
# `exec`

`exec` builds a second page table next to that of the process. As long as `copyout` meets no missing
page table, it writes to pages of the new image only, and the invariant is kept.
-/

open Xv6.Cmd Xv6.Pool Xv6.Vm List

namespace Xv6.Sys

variable {ld : Linker} {dom : Nat → Prop} {s s' : Phys} {own sh : Nat → Nat} {d d' : PgDir}
  {m m' : Machine} {i : Fin NPROC} {p : Proc}

/-! ## Loading the file -/

/-- A new image of `sz` bytes, when `sh` are the entries of all other page tables. -/
structure Image (ld : Linker) (sh : Nat → Nat) (d : PgDir) (sz : Nat) : Prop where
  sz_le : sz ≤ KERNBASE
  kmap : KernelMap ld d
  below : ∀ va < KERNBASE, (d.get va).present = true → va / PGSIZE * PGSIZE < sz
  priv : Private d sh
  full : ∀ va, va / PGSIZE * PGSIZE < sz → (d.get va).present = true

theorem Image.tabs {sz : Nat} (h : Image ld sh d sz) (va : Nat) (hva : va / PGSIZE * PGSIZE < sz) :
    d.HasTab va :=
  PgDir.hasTab_of_present (h.full va hva)

theorem image_new (h : setupkvm ld s = .ok (some d, s')) : Image ld sh d 0 := by
  have hshape := setupkvm_shape h
  have habsent : ∀ va < KERNBASE, ¬ (d.get va).present = true := by
    intro va hva hp
    rw [hshape va (by simp only [KERNBASE] at hva; omega), kernelPte_user hva] at hp
    cases hp
  exact ⟨Nat.zero_le _, fun va h1 _ => hshape va h1, fun va hva hp => absurd hp (habsent va hva),
    fun va hva hp => absurd hp (habsent va hva), fun va hva => by omega⟩

theorem Image.round {sz : Nat} (h : Image ld sh d sz) : Image ld sh d (pgroundup sz) := by
  have hle := h.sz_le
  have hup := le_pgroundup hle
  refine ⟨pgroundup_le hle, h.kmap, fun va hva hp => ?_, h.priv, fun va hva => h.full va ?_⟩
  · have := h.below va hva hp
    omega
  · rw [pgroundup_of_le hle] at hva
    simp only [PGSIZE] at *
    omega

theorem Image.grow {sz newsz r : Nat} (h : Image ld sh d sz)
    (ha : Acct dom s (d.kernRefs + own) (d.userRefs + sh))
    (hr : allocuvm ld d sz newsz s = .ok ((d', r), s')) (hr0 : r ≠ 0) :
    Image ld sh d' r ∧ (sz ≤ newsz → r < KERNBASE) := by
  have hpriv := private_allocuvm ha hr hr0 h.priv
  obtain ⟨hlt, ⟨hn, rfl, rfl, -⟩ | ⟨hle, rfl, hg, -⟩⟩ := allocuvm_ok ha hr hr0
  · exact ⟨h, fun hc => by omega⟩
  · refine ⟨⟨Nat.le_of_lt hlt, ?_, ?_, hpriv, ?_⟩, fun _ => hlt⟩
    · refine h.kmap.congr fun va h1 h2 => hg.out va h1 (.inr ?_)
      simp only [KERNBASE, PGSIZE] at *
      omega
    · intro va hva hp
      by_contra hc
      rw [hg.out va (by simp only [KERNBASE] at hva; omega) (.inr (by omega))] at hp
      have := h.below va hva hp
      omega
    · intro va hva
      by_cases hup : pgroundup sz ≤ va
      · obtain ⟨-, -, q, hq, -⟩ := hg.new va hup hva
        rw [hq]
        rfl
      · rw [hg.out va (by simp only [KERNBASE, PGSIZE] at *; omega) (.inl (by omega))]
        apply h.full va
        rw [pgroundup_of_le h.sz_le] at hup
        simp only [PGSIZE] at *
        omega

theorem acct_loadLoop {addr offset sz n k : Nat} {ip : List UInt8} {r : Bool}
    (ha : Acct dom s own sh) (h : loadLoop d addr ip offset sz n k s = .ok (r, s')) :
    Acct dom s' own sh := by
  induction n generalizing s k with
  | zero =>
    unfold loadLoop at h
    split at h
    · exact (throw_ok h).elim
    · obtain ⟨-, rfl⟩ := Prod.mk.inj (pure_ok h)
      exact ha
  | succ n ih =>
    unfold loadLoop at h
    split at h
    · split at h
      · exact (throw_ok h).elim
      · dsimp only at h
        generalize (if sz - k < PGSIZE then sz - k else PGSIZE) = len at h
        generalize readi ip (u32 (offset + k)) len = x at h
        cases x with
        | none =>
          obtain ⟨-, rfl⟩ := Prod.mk.inj (pure_ok h)
          exact ha
        | some bs =>
          obtain ⟨_, s1, hset, h⟩ := bind_ok h
          obtain ⟨-, rfl⟩ := Prod.mk.inj (Except.ok.inj hset)
          have ha1 := acct_setMem ha (p := (d.get (u32 (addr + k))).ppn)
          split at h
          · exact ih (ha1 _) h
          · obtain ⟨-, rfl⟩ := Prod.mk.inj (pure_ok h)
            exact ha1 _
    · obtain ⟨-, rfl⟩ := Prod.mk.inj (pure_ok h)
      exact ha

theorem acct_loaduvm {addr offset sz : Nat} {ip : List UInt8} {r : Bool} (ha : Acct dom s own sh)
    (h : loaduvm d addr ip offset sz s = .ok (r, s')) : Acct dom s' own sh := by
  unfold loaduvm at h
  split at h
  · exact (throw_ok h).elim
  · exact acct_loadLoop ha h

theorem bad_image {r : Option Nat} (ha : Acct dom s (d.kernRefs + own) (d.userRefs + sh))
    (h : (pure (d, none) : K (PgDir × Option Nat)) s = .ok ((d', r), s')) :
    Acct dom s' (d'.kernRefs + own) (d'.userRefs + sh) ∧
    ∀ sz', r = some sz' → Image ld sh d' sz' := by
  obtain ⟨rfl, rfl, rfl⟩ := pure_pair_ok h
  exact ⟨ha, fun sz' hs => by cases hs⟩

theorem loadSegs_image {ip : List UInt8} {n off sz : Nat} {r : Option Nat}
    (hi : Image ld sh d sz) (ha : Acct dom s (d.kernRefs + own) (d.userRefs + sh))
    (h : loadSegs ld ip n off d sz s = .ok ((d', r), s')) :
    Acct dom s' (d'.kernRefs + own) (d'.userRefs + sh) ∧ ∀ sz', r = some sz' → Image ld sh d' sz' := by
  induction n generalizing s d sz off with
  | zero =>
    obtain ⟨rfl, rfl, rfl⟩ := pure_pair_ok h
    exact ⟨ha, fun sz' hs => Option.some.inj hs ▸ hi⟩
  | succ n ih =>
    unfold loadSegs at h
    generalize readFull ip off 32 = x at h
    cases x with
    | none => exact bad_image ha h
    | some ph =>
      dsimp only at h
      split at h
      · exact ih hi ha h
      split at h
      · exact bad_image ha h
      split at h
      · exact bad_image ha h
      obtain ⟨⟨d1, sz1⟩, s1, hal, h⟩ := bind_ok h
      have ha1 := (acct_allocuvm ha hal).1
      dsimp only at h
      split at h
      · exact bad_image ha1 h
      next hsz1 =>
      split at h
      · exact bad_image ha1 h
      obtain ⟨ok, s2, hl, h⟩ := bind_ok h
      have ha2 := acct_loaduvm ha1 hl
      split at h
      · exact ih (hi.grow ha hal hsz1).1 ha2 h
      · exact bad_image ha2 h

theorem clearpteu_ok {uva : Nat} (h : clearpteu d uva s = .ok (d', s')) :
    d.HasTab uva ∧ d' = d.set uva { d.get uva with user := false } ∧ s' = s := by
  unfold clearpteu at h
  split at h
  · exact (throw_ok h).elim
  · next ht =>
    obtain ⟨rfl, rfl⟩ := Prod.mk.inj (pure_ok h)
    exact ⟨by simpa [PgDir.HasTab, Option.isSome_iff_ne_none] using ht, rfl, rfl⟩

theorem clear_user {uva : Nat} (ht : d.HasTab uva) (huva : uva < KERNBASE) :
    (∀ b < 0x100000000, ((d.set uva { d.get uva with user := false }).get b).present =
        (d.get b).present ∧
      ((d.set uva { d.get uva with user := false }).get b).ppn = (d.get b).ppn ∧
      (KERNBASE ≤ b → (d.set uva { d.get uva with user := false }).get b = d.get b)) ∧
    ∀ q, (d.set uva { d.get uva with user := false }).userRefs q = d.userRefs q := by
  constructor
  · intro b hb
    rw [PgDir.get_set ht (by simp only [KERNBASE] at huva; omega) hb]
    split
    · next hpg =>
      have heq : d.get uva = d.get b := by rw [← PgDir.get_page d uva, ← hpg, PgDir.get_page]
      rw [heq]
      refine ⟨rfl, rfl, fun hc => ?_⟩
      simp only [KERNBASE, PGSIZE] at *
      omega
    · exact ⟨rfl, rfl, fun _ => rfl⟩
  · intro q
    have := PgDir.userRefs_set (e := { d.get uva with user := false }) ht huva q
    have hh : Pte.holds { d.get uva with user := false } q = (d.get uva).holds q := rfl
    omega

theorem Image.clear {uva sz : Nat} (h : Image ld sh d sz) (ht : d.HasTab uva)
    (huva : uva < KERNBASE) : Image ld sh (d.set uva { d.get uva with user := false }) sz := by
  obtain ⟨hent, hrefs⟩ := clear_user ht huva
  have hlt : ∀ va, va < KERNBASE → va < 0x100000000 := fun va hva => by
    simp only [KERNBASE] at hva
    omega
  refine ⟨h.sz_le, h.kmap.congr fun va h1 h2 => (hent va h1).2.2 h2, fun va hva hp => ?_,
    fun va hva hp => ?_, fun va hva => ?_⟩
  · rw [(hent va (hlt va hva)).1] at hp
    exact h.below va hva hp
  · rw [(hent va (hlt va hva)).1] at hp
    rw [hrefs, (hent va (hlt va hva)).2.1]
    exact h.priv va hva hp
  · have := h.sz_le
    rw [(hent va (by simp only [KERNBASE, PGSIZE] at *; omega)).1]
    exact h.full va hva

theorem loadImage_image {ip : List UInt8} {r : Option (PgDir × Option Nat)} (ha : Acct dom s own sh)
    (h : loadImage ld ip s = .ok (r, s')) :
    (r = none ∧ Acct dom s' own sh) ∨
    ∃ d o, r = some (d, o) ∧ Acct dom s' (d.kernRefs + own) (d.userRefs + sh) ∧
      ∀ sz, o = some sz → Image ld sh d sz ∧ 0 < sz ∧ sz < KERNBASE := by
  unfold loadImage at h
  generalize readFull ip 0 52 = x at h
  cases x with
  | none =>
    obtain ⟨rfl, rfl⟩ := Prod.mk.inj (pure_ok h)
    exact .inl ⟨rfl, ha⟩
  | some elf =>
  dsimp only at h
  split at h
  · obtain ⟨rfl, rfl⟩ := Prod.mk.inj (pure_ok h)
    exact .inl ⟨rfl, ha⟩
  obtain ⟨r1, s1, hk, h⟩ := bind_ok h
  cases r1 with
  | none =>
    obtain ⟨rfl, rfl⟩ := Prod.mk.inj (pure_ok h)
    exact .inl ⟨rfl, (acct_setupkvm_none ha hk).1⟩
  | some d0 =>
    obtain ⟨⟨d1, o1⟩, s2, hl, h⟩ := bind_ok h
    obtain ⟨ha2, hi2⟩ := loadSegs_image (image_new hk) (acct_setupkvm ha hk).1 hl
    cases o1 with
    | none =>
      obtain ⟨rfl, rfl⟩ := Prod.mk.inj (pure_ok h)
      exact .inr ⟨d1, none, rfl, ha2, fun sz hsz => by cases hsz⟩
    | some sz1 =>
      obtain ⟨⟨d2, sz2⟩, s3, hal, h⟩ := bind_ok h
      have ha3 := (acct_allocuvm ha2 hal).1
      dsimp only at h
      split at h
      · obtain ⟨rfl, rfl⟩ := Prod.mk.inj (pure_ok h)
        exact .inr ⟨d2, none, rfl, ha3, fun sz hsz => by cases hsz⟩
      · next hsz2 =>
        obtain ⟨d3, s4, hc, hend⟩ := bind_ok h
        obtain ⟨ht, rfl, rfl⟩ := clearpteu_ok hc
        obtain ⟨rfl, rfl⟩ := Prod.mk.inj (pure_ok hend)
        have hround := (hi2 sz1 rfl).round
        have hle := hround.sz_le
        obtain ⟨hi3, hlt3⟩ := hround.grow ha2 hal hsz2
        have hnew : pgroundup sz1 ≤ u32 (pgroundup sz1 + 2 * PGSIZE) := by
          rw [u32_of_lt (by simp only [KERNBASE, PGSIZE] at *; omega)]
          omega
        have hlt := hlt3 hnew
        obtain ⟨-, ⟨hc1, -⟩ | ⟨-, hsz, -⟩⟩ := allocuvm_ok ha2 hal hsz2
        · omega
        · -- The guard page is inside the image.
          rw [u32_of_lt (by simp only [KERNBASE, PGSIZE] at *; omega)] at hsz
          have huva : sub32 sz2 (2 * PGSIZE) < KERNBASE := by
            simp only [sub32, u32, KERNBASE, PGSIZE] at *
            omega
          refine .inr ⟨_, some sz2, rfl, ?_, ?_⟩
          · exact ha3.congr (fun q => by simp only [Pi.add_apply, PgDir.kernRefs_set])
              fun q => by simp only [Pi.add_apply, (clear_user ht huva).2]
          · rintro sz hsz'
            obtain rfl := Option.some.inj hsz'
            exact ⟨hi3.clear ht huva, Nat.pos_of_ne_zero hsz2, hlt⟩

/-! ## Writing to the new image -/

/-- The machine while `exec` has a second page table `d`. -/
structure Building (ld : Linker) (m : Machine) (d : PgDir) (sz : Nat) : Prop where
  acct : Acct (Managed ld) m.phys (d.kernRefs + m.own) (d.userRefs + m.shared)
  wf : ∀ i p, m.proc i = some p → p.Wf ld
  excl : m.Excl
  started : m.Started
  image : Image ld m.shared d sz

theorem pokeDir_same {q : Nat} (off : Nat) (bs : List UInt8) (h : d.kernRefs q = 0) :
    d.Same (pokeDir q off bs d) where
  page := rfl
  tab i hi := by
    change (d.tab i).map _ = d.tab i
    cases ht : d.tab i with
    | none => rfl
    | some t =>
      have hne : t.page ≠ q := by
        rintro rfl
        have : 0 < d.kernRefs t.page := (kernRefs_pos_iff d _).mpr (.inr ⟨i, hi, t, ht, rfl⟩)
        omega
      simp [hne]

/-- The machine after every page table has seen the write. -/
def Machine.poked (m : Machine) (q off : Nat) (bs : List UInt8) : Machine :=
  { m with
    phys := m.phys.setMem q (writeBytes (m.phys.mem q) off bs)
    kpgdir := pokeDir q off bs m.kpgdir
    proc := fun i => (m.proc i).map fun p => { p with pgdir := pokeDir q off bs p.pgdir } }

theorem poke_ok {q off : Nat} {bs : List UInt8} (h : poke ld d q off bs m = .ok (d', m')) :
    d' = pokeDir q off bs d ∧ m' = m.poked q off bs := by
  unfold poke at h
  split at h
  · cases h
  · obtain ⟨rfl, rfl⟩ := Prod.mk.inj (Except.ok.inj h)
    exact ⟨rfl, rfl⟩

section Poked

variable {q off : Nat} {bs : List UInt8}

theorem kernOf_le_own (m : Machine) (i : Fin NPROC) (q : Nat) : kernOf (m.proc i) q ≤ m.own q := by
  have := own_eq m i q
  omega

theorem poked_proc (off : Nat) (bs : List UInt8) (h : m.own q = 0) (i : Fin NPROC) :
    m.kpgdir.Same (pokeDir q off bs m.kpgdir) ∧
    ∀ p, m.proc i = some p → p.pgdir.Same (pokeDir q off bs p.pgdir) := by
  constructor
  · refine pokeDir_same off bs ?_
    simp only [Machine.own] at h
    omega
  · intro p hp
    refine pokeDir_same off bs ?_
    have := kernOf_le_own m i q
    rw [hp, kernOf] at this
    omega

theorem poked_own (h : m.own q = 0) (r : Nat) : (m.poked q off bs).own r = m.own r := by
  have hk := (poked_proc off bs h initproc).1.kernRefs r
  have hsum : ∑ i, kernOf ((m.poked q off bs).proc i) r = ∑ i, kernOf (m.proc i) r := by
    refine Finset.sum_congr rfl fun i _ => ?_
    change kernOf ((m.proc i).map _) r = _
    cases hp : m.proc i with
    | none => rfl
    | some p => simp only [Option.map_some, kernOf, ((poked_proc _ _ h i).2 p hp).kernRefs r]
  unfold Machine.own
  rw [hsum]
  simp only [Machine.poked, hk]

theorem poked_shared (h : m.own q = 0) (r : Nat) : (m.poked q off bs).shared r = m.shared r := by
  have hk := (poked_proc off bs h initproc).1.userRefs r
  have hsum : ∑ i, userOf ((m.poked q off bs).proc i) r = ∑ i, userOf (m.proc i) r := by
    refine Finset.sum_congr rfl fun i _ => ?_
    change userOf ((m.proc i).map _) r = _
    cases hp : m.proc i with
    | none => rfl
    | some p => simp only [Option.map_some, userOf, ((poked_proc _ _ h i).2 p hp).userRefs r]
  unfold Machine.shared
  rw [hsum]
  simp only [Machine.poked, hk]

theorem poked_of (h : m.own q = 0) {i : Fin NPROC} {p' : Proc}
    (hp : (m.poked q off bs).proc i = some p') :
    ∃ p, m.proc i = some p ∧ p'.sz = p.sz ∧ ∀ va, p'.pgdir.get va = p.pgdir.get va := by
  change (m.proc i).map _ = some p' at hp
  obtain ⟨p, hm, rfl⟩ := Option.map_eq_some_iff.mp hp
  exact ⟨p, hm, rfl, fun va => ((poked_proc _ _ h i).2 p hm).get va⟩

/-- A slot with the same kernel stack and the same page table, or none in both. -/
def SameSlot : Option Proc → Option Proc → Prop
  | none, none => True
  | some p, some p' => p'.kstack = p.kstack ∧ p.pgdir.Same p'.pgdir
  | _, _ => False

theorem SameSlot.refl (x : Option Proc) : SameSlot x x := by
  cases x with
  | none => trivial
  | some p => exact ⟨rfl, rfl, fun _ _ => rfl⟩

theorem SameSlot.trans {x y z : Option Proc} (h : SameSlot x y) (h' : SameSlot y z) : SameSlot x z := by
  cases x with
  | none =>
    cases y with
    | none => exact h'
    | some _ => exact h.elim
  | some p =>
    cases y with
    | none => exact h.elim
    | some p1 =>
      cases z with
      | none => exact h'.elim
      | some p2 => exact ⟨h'.1.trans h.1, h.2.trans h'.2⟩

/-- Nothing but the contents of pages and the slots in `S` has changed. -/
structure SameBut (S : Fin NPROC → Prop) (m m' : Machine) : Prop where
  kpgdir : m.kpgdir.Same m'.kpgdir
  apstacks : m'.apstacks = m.apstacks
  pipes : m'.pipes = m.pipes
  slot : ∀ k, ¬ S k → SameSlot (m.proc k) (m'.proc k)

theorem SameBut.refl (S : Fin NPROC → Prop) (m : Machine) : SameBut S m m :=
  ⟨⟨rfl, fun _ _ => rfl⟩, rfl, rfl, fun _ _ => .refl _⟩

theorem SameBut.trans {S : Fin NPROC → Prop} {m1 m2 : Machine} (h : SameBut S m m1) (h' : SameBut S m1 m2) :
    SameBut S m m2 :=
  ⟨h.kpgdir.trans h'.kpgdir, h'.apstacks.trans h.apstacks, h'.pipes.trans h.pipes,
    fun k hk => (h.slot k hk).trans (h'.slot k hk)⟩

theorem poked_sameBut (h : m.own q = 0) : SameBut (fun _ => False) m (m.poked q off bs) := by
  refine ⟨(poked_proc off bs h initproc).1, rfl, rfl, fun k _ => ?_⟩
  simp only [Machine.poked]
  cases hp : m.proc k with
  | none => trivial
  | some p => exact ⟨rfl, (poked_proc off bs h k).2 p hp⟩

end Poked

theorem Image.same {sh' : Nat → Nat} {sz : Nat} (h : Image ld sh d sz) (hd : d.Same d')
    (hs : ∀ q, sh' q = sh q) : Image ld sh' d' sz where
  sz_le := h.sz_le
  kmap := h.kmap.congr fun va _ _ => hd.get va
  below va hva hp := h.below va hva (by rwa [hd.get] at hp)
  priv va hva hp := by
    rw [hd.get] at hp ⊢
    rw [hd.userRefs, hs]
    exact h.priv va hva hp
  full va hva := by
    rw [hd.get]
    exact h.full va hva

/-- The new image and every process have the entries that they had. -/
structure SameMaps (m : Machine) (d : PgDir) (m' : Machine) (d' : PgDir) : Prop where
  image : ∀ va, d'.get va = d.get va
  proc : ∀ i p', m'.proc i = some p' →
    ∃ p, m.proc i = some p ∧ p'.sz = p.sz ∧ ∀ va, p'.pgdir.get va = p.pgdir.get va

theorem SameMaps.refl (m : Machine) (d : PgDir) : SameMaps m d m d :=
  ⟨fun _ => rfl, fun _ p hp => ⟨p, hp, rfl, fun _ => rfl⟩⟩

theorem SameMaps.trans {m1 : Machine} {d1 : PgDir} (h : SameMaps m d m1 d1)
    (h' : SameMaps m1 d1 m' d') : SameMaps m d m' d' where
  image va := (h'.image va).trans (h.image va)
  proc i p' hp' := by
    obtain ⟨p1, hp1, hsz1, hget1⟩ := h'.proc i p' hp'
    obtain ⟨p, hp, hsz, hget⟩ := h.proc i p1 hp1
    exact ⟨p, hp, hsz1.trans hsz, fun va => (hget1 va).trans (hget va)⟩

/-- What `copyout` leaves alone. -/
structure Written (m : Machine) (d : PgDir) (m' : Machine) (d' : PgDir) : Prop where
  maps : SameMaps m d m' d'
  rest : SameBut (fun _ => False) m m'

theorem Written.refl (m : Machine) (d : PgDir) : Written m d m d := ⟨.refl m d, .refl _ m⟩

theorem Written.trans {m1 : Machine} {d1 : PgDir} (h : Written m d m1 d1) (h' : Written m1 d1 m' d') :
    Written m d m' d' := ⟨h.maps.trans h'.maps, h.rest.trans h'.rest⟩

theorem Building.poke {va off sz : Nat} {bs : List UInt8} (h : Building ld m d sz)
    (hva : va < KERNBASE) (hp : (d.get va).present = true)
    (hr : poke ld d (d.get va).ppn off bs m = .ok (d', m')) :
    Building ld m' d' sz ∧ Written m d m' d' := by
  obtain ⟨rfl, rfl⟩ := poke_ok hr
  have hpos := PgDir.userRefs_pos hp hva
  have hex := h.acct.excl (d.get va).ppn
  simp only [Pi.add_apply] at hex
  have hd : d.kernRefs (d.get va).ppn = 0 := by omega
  have hm : m.own (d.get va).ppn = 0 := by omega
  have hsame := pokeDir_same off bs hd
  refine ⟨⟨?_, ?_, ?_, ?_, h.image.same hsame (poked_shared hm)⟩, ⟨hsame.get, fun _ _ => poked_of hm⟩,
    poked_sameBut hm⟩
  · refine acct_setMem (h.acct.congr (fun r => ?_) fun r => ?_) _
    · simp only [Pi.add_apply, hsame.kernRefs, poked_own hm]
    · simp only [Pi.add_apply, hsame.userRefs, poked_shared hm]
  · intro i p' hp'
    obtain ⟨p, hpi, hsz, hget⟩ := poked_of hm hp'
    have hwf := h.wf i p hpi
    exact ⟨hsz ▸ hwf.sz_lt, hwf.kmap.congr fun b _ _ => hget b,
      fun b hb hpr => hsz ▸ hwf.below b hb (hget b ▸ hpr)⟩
  · intro i p' hp' b hb hpr hw
    obtain ⟨p, hpi, -, hget⟩ := poked_of hm hp'
    rw [hget] at hpr hw ⊢
    rw [poked_shared hm]
    exact h.excl i p hpi b hb hpr hw
  · obtain ⟨i, p, hpi⟩ := h.started
    refine ⟨i, { p with pgdir := pokeDir (d.get va).ppn off bs p.pgdir }, ?_⟩
    simp [Machine.poked, hpi]

/-! ## `copyout` -/

theorem uva2ka_of_tab {uva : Nat} (h : d.HasTab uva) :
    uva2ka i d uva m = .ok (Pte.ka (d.get uva), m) :=
  if_pos h

theorem Pte.ka_some {e : Pte} {q : Nat} (h : Pte.ka e = some q) : e.present = true ∧ q = e.ppn := by
  unfold Pte.ka at h
  split at h
  · next hp => exact ⟨hp.1, (Option.some.inj h).symm⟩
  · cases h

theorem pgrounddown_page (va : Nat) : pgrounddown va / PGSIZE * PGSIZE = pgrounddown va := by
  simp only [pgrounddown, PGSIZE]
  omega

theorem next_page {va len : Nat} (h : ¬ len < PGSIZE - (va - pgrounddown va)) :
    pgrounddown va + PGSIZE + (len - (PGSIZE - (va - pgrounddown va))) = va + len := by
  simp only [pgrounddown, PGSIZE] at *
  omega

theorem copyLoop_building {n va sz : Nat} {buf : List UInt8} {ok : Bool} (h : Building ld m d sz)
    (hin : buf = [] ∨ va + buf.length ≤ sz) (hr : copyLoop ld i n d va buf m = .ok ((d', ok), m')) :
    Building ld m' d' sz ∧ Written m d m' d' := by
  induction n generalizing m d va buf with
  | zero =>
    obtain ⟨rfl, rfl, rfl⟩ := pure_pair_ok hr
    exact ⟨h, .refl _ _⟩
  | succ n ih =>
    unfold copyLoop at hr
    split at hr
    · obtain ⟨rfl, rfl, rfl⟩ := pure_pair_ok hr
      exact ⟨h, .refl _ _⟩
    · next hlen =>
      have hle := h.image.sz_le
      have hva : va + buf.length ≤ sz := hin.resolve_left fun hc => hlen (by simp [hc])
      have hdown : pgrounddown va ≤ va := by
        simp only [pgrounddown, PGSIZE]
        omega
      have htab := h.image.tabs (pgrounddown va) (by rw [pgrounddown_page]; omega)
      obtain ⟨o, m1, hka, hrest⟩ := bind_ok hr
      rw [uva2ka_of_tab htab] at hka
      obtain ⟨rfl, rfl⟩ := Prod.mk.inj (Except.ok.inj hka)
      cases hq : Pte.ka (d.get (pgrounddown va)) with
      | none =>
        rw [hq] at hrest
        obtain ⟨rfl, rfl, rfl⟩ := pure_pair_ok hrest
        exact ⟨h, .refl _ _⟩
      | some q =>
        rw [hq] at hrest
        obtain ⟨hp, rfl⟩ := Pte.ka_some hq
        obtain ⟨d1, m2, hpk, hrest⟩ := bind_ok hrest
        obtain ⟨h1, hwritten⟩ := h.poke (by omega) hp hpk
        refine (ih h1 ?_ hrest).imp_right hwritten.trans
        -- Either the buffer ends in this page or the next round starts at the next page.
        split
        · exact .inl (by simp)
        · next hlong =>
          right
          have hlt : pgrounddown va + PGSIZE < 0x100000000 := by
            simp only [KERNBASE] at hle
            simp only [PGSIZE]
            omega
          rw [length_drop, u32_of_lt hlt, next_page hlong]
          exact hva

theorem copyLoop_devspace {n : Nat} (va : Nat) {buf : List UInt8} (h : KernelMap ld d) (hva : DEVSPACE ≤ va)
    (hlt : va < 0x100000000) (hbuf : buf ≠ []) :
    copyLoop ld i (n + 1) d va buf m = .ok ((d, false), m) := by
  have hdown : DEVSPACE ≤ pgrounddown va ∧ pgrounddown va < 0x100000000 := by
    simp only [pgrounddown, DEVSPACE, PGSIZE] at *
    omega
  have hget : d.get (pgrounddown va) = kernelPte ld (pgrounddown va) :=
    h _ hdown.2 (by simp only [DEVSPACE, KERNBASE] at *; omega)
  have hpte : kernelPte ld (pgrounddown va) = ⟨pgrounddown va / PGSIZE, true, true, false⟩ := by
    unfold kernelPte
    rw [if_neg (by simp only [KERNBASE, PHYSTOP, DEVSPACE] at *; omega), if_pos hdown.1]
  have htab : d.HasTab (pgrounddown va) := PgDir.hasTab_of_present (by rw [hget, hpte])
  have hka : uva2ka i d (pgrounddown va) m = .ok (none, m) := by
    rw [uva2ka_of_tab htab, hget, hpte]
    rfl
  rw [copyLoop, if_neg (by simpa using hbuf), bind_of_ok hka]
  rfl

theorem copyout_devspace {va : Nat} {buf : List UInt8} (h : KernelMap ld d) (hva : DEVSPACE ≤ va)
    (hlt : va < 0x100000000) (hbuf : buf ≠ []) : copyout ld i d va buf m = .ok ((d, false), m) := by
  obtain ⟨b, bs, rfl⟩ := exists_cons_of_ne_nil hbuf
  exact copyLoop_devspace _ h hva hlt hbuf

/-! ## The arguments -/

theorem copyout_building {va sp sz : Nat} {buf : List UInt8} {ok : Bool} (h : Building ld m d sz)
    (hsp : sp ≤ sz) (hbuf : buf ≠ [])
    (hva : va + buf.length ≤ sp ∨ DEVSPACE ≤ va ∧ va < 0x100000000)
    (hr : copyout ld i d va buf m = .ok ((d', ok), m')) :
    (Building ld m' d' sz ∧ Written m d m' d') ∧ (ok = true → va ≤ sz) := by
  rcases hva with hlow | ⟨hdev, hlt⟩
  · exact ⟨copyLoop_building h (.inr (by omega)) hr, fun _ => by omega⟩
  · rw [copyout_devspace h.image.kmap hdev hlt hbuf] at hr
    obtain ⟨rfl, rfl, rfl⟩ := pure_pair_ok hr
    exact ⟨⟨h, .refl _ _⟩, fun hc => by cases hc⟩

theorem pushArgs_building {argv : List (List UInt8)} {sp sz : Nat} {ustack : List Nat}
    {r : Option (Nat × List Nat)} (h : Building ld m d sz) (hsp : sp ≤ sz)
    (hst : ustack.length ≤ MAXARG) (hshort : ∀ arg ∈ argv, arg.length + 4 ≤ 0x2000000)
    (hr : pushArgs ld i argv d sp ustack m = .ok ((d', r), m')) :
    (Building ld m' d' sz ∧ Written m d m' d') ∧
    ∀ sp' l, r = some (sp', l) → sp' ≤ sz ∧ l.length ≤ MAXARG := by
  induction argv generalizing m d sp ustack with
  | nil =>
    obtain ⟨rfl, rfl, rfl⟩ := pure_pair_ok hr
    refine ⟨⟨h, .refl _ _⟩, fun sp' l hl => ?_⟩
    obtain ⟨rfl, rfl⟩ := Prod.mk.inj (Option.some.inj hl)
    exact ⟨hsp, hst⟩
  | cons arg argv ih =>
    unfold pushArgs at hr
    split at hr
    · obtain ⟨rfl, rfl, rfl⟩ := pure_pair_ok hr
      exact ⟨⟨h, .refl _ _⟩, fun sp' l hl => by cases hl⟩
    · next hmax =>
      obtain ⟨⟨d1, ok⟩, m1, hc, hr⟩ := bind_ok hr
      have hlen := hshort arg (by simp)
      have hle := h.image.sz_le
      obtain ⟨⟨h1, hwritten⟩, hsp1⟩ := copyout_building h hsp (by simp) (by
        simp only [length_append, length_singleton, sub32, u32, KERNBASE, DEVSPACE] at *
        omega) hc
      dsimp only at hr
      split at hr
      · next hok =>
        exact (ih h1 (hsp1 hok) (by simp; omega) (fun a ha => hshort a (by simp [ha])) hr).imp_left
          (·.imp_right hwritten.trans)
      · obtain ⟨rfl, rfl, rfl⟩ := pure_pair_ok hr
        exact ⟨⟨h1, hwritten⟩, fun sp' l hl => by cases hl⟩

theorem flatMap_wordBytes_length (l : List Nat) : (l.flatMap wordBytes).length = 4 * l.length := by
  induction l with
  | nil => rfl
  | cons w l ih =>
    rw [flatMap_cons, length_append, ih, length_cons]
    simp [wordBytes]
    omega

theorem pushStack_building {argv : List (List UInt8)} {sz : Nat} {ok : Bool}
    (h : Building ld m d sz) (hshort : ∀ arg ∈ argv, arg.length + 4 ≤ 0x2000000)
    (hr : pushStack ld i argv d sz m = .ok ((d', ok), m')) :
    Building ld m' d' sz ∧ Written m d m' d' := by
  unfold pushStack at hr
  obtain ⟨⟨d1, r⟩, m1, hp, hr⟩ := bind_ok hr
  obtain ⟨⟨h1, hwritten⟩, hr1⟩ := pushArgs_building h (Nat.le_refl _) (Nat.zero_le _) hshort hp
  cases r with
  | none =>
    obtain ⟨rfl, rfl, rfl⟩ := pure_pair_ok hr
    exact ⟨h1, hwritten⟩
  | some x =>
    obtain ⟨sp, ptrs⟩ := x
    obtain ⟨hsp, hptrs⟩ := hr1 sp ptrs rfl
    have hle := h1.image.sz_le
    refine (copyout_building h1 hsp ?_ ?_ hr).1.imp_right hwritten.trans
    · rw [Ne, ← length_eq_zero_iff, flatMap_wordBytes_length]
      simp
    · rw [flatMap_wordBytes_length]
      simp only [length_append, length_cons, length_nil, sub32, u32, KERNBASE, DEVSPACE,
        MAXARG] at *
      omega

/-! ## The whole call -/

theorem Building.inv_of_freevm {sz : Nat} {ph : Phys} (h : Building ld m d sz)
    (hf : freevm ld d m.phys = .ok ((), ph)) : Inv ld { m with phys := ph } :=
  ⟨(acct_freevm h.acct hf).1, h.wf, h.excl, .inl h.started⟩

theorem acct_old (ha : Acct (Managed ld) m.phys (d.kernRefs + m.own) (d.userRefs + m.shared))
    (hp : m.proc i = some p) :
    Acct (Managed ld) m.phys (p.pgdir.kernRefs + (d.kernRefs + (m.ownRest i + one p.kstack)))
      (p.pgdir.userRefs + (d.userRefs + m.sharedRest i)) :=
  ha.congr
    (fun q => by
      have := own_eq m i q
      simp only [hp, kernOf, Pi.add_apply] at *
      omega)
    (fun q => by
      have := shared_eq m i q
      simp only [hp, userOf, Pi.add_apply] at *
      omega)

theorem Building.inv_of_commit {sz : Nat} {ph : Phys} (h : Building ld m d sz) (hsz : sz < KERNBASE)
    (hp : m.proc i = some p) (hf : freevm ld p.pgdir m.phys = .ok ((), ph)) :
    Inv ld { m.setProc i (some { p with pgdir := d, sz := sz }) with phys := ph } := by
  have hacct := (acct_freevm (acct_old h.acct hp) hf).1
  have hrest : ∀ q, m.sharedRest i q ≤ m.shared q := fun q => by
    rw [shared_eq m i q]
    omega
  refine inv_of_slot h.wf h.excl (acct_slot rfl hacct) ?_ ⟨?_, ?_⟩ (started_setProc _ _ _)
  · rintro p' hp'
    obtain rfl := Option.some.inj hp'
    exact ⟨hsz, h.image.kmap, h.image.below⟩
  · intro q hq _
    by_contra hc
    have hpos : 0 < d.userRefs q := Nat.pos_of_ne_zero hc
    obtain ⟨va, hva, hpr, rfl⟩ := exists_of_userRefs_pos hpos
    have := (h.image.priv va hva hpr).2
    have := hrest (d.get va).ppn
    omega
  · rintro p' hp' va hva hpr -
    obtain rfl := Option.some.inj hp'
    dsimp only at hpr ⊢
    obtain ⟨h1, h2⟩ := h.image.priv va hva hpr
    have := hrest (d.get va).ppn
    omega

theorem commitImage_of_ok {ph : Phys} (d : PgDir) (sz : Nat) (hp : m.proc i = some p)
    (hf : freevm ld p.pgdir m.phys = .ok ((), ph)) :
    commitImage ld i d sz m = .ok (true, { m.setProc i (some { p with pgdir := d, sz := sz }) with phys := ph }) := by
  unfold commitImage
  rw [hp]
  have hf1 := onPhys_of_ok (m := m.setProc i (some { p with pgdir := d, sz := sz })) hf
  exact (bind_of_ok (rfl : setProc i _ m = .ok ((), m.setProc i _))).trans ((bind_of_ok hf1).trans rfl)

theorem commitImage_ok {sz : Nat} {r : Bool} (h : commitImage ld i d sz m = .ok (r, m')) :
    ∃ p ph, m.proc i = some p ∧ freevm ld p.pgdir m.phys = .ok ((), ph) ∧ r = true ∧
      m' = { m.setProc i (some { p with pgdir := d, sz := sz }) with phys := ph } := by
  unfold commitImage at h
  cases hp : m.proc i with
  | none =>
    rw [hp] at h
    cases h
  | some p =>
    rw [hp] at h
    replace h := bind_setProc h
    obtain ⟨_, ph, hf, h⟩ := bind_onPhys h
    obtain ⟨rfl, rfl⟩ := Prod.mk.inj (pure_ok h)
    exact ⟨p, ph, rfl, hf, rfl, rfl⟩

/-- What `exec` can do with short arguments: give up before there is an image, give the image up, or
commit it. -/
theorem exec_cases {ip : Option (List UInt8)} {argv : List (List UInt8)} {r : Bool} (h : Inv ld m)
    (hs : m.Started) (hshort : ∀ arg ∈ argv, arg.length + 4 ≤ 0x2000000)
    (he : exec ld i ip argv m = .ok (r, m')) :
    (∃ ph, Acct (Managed ld) ph m.own m.shared ∧ m' = { m with phys := ph }) ∨
    ∃ ph d m1 d1 sz, Written { m with phys := ph } d m1 d1 ∧ Building ld m1 d1 sz ∧ 0 < sz ∧
      sz < KERNBASE ∧
      ((∃ ph2, freevm ld d1 m1.phys = .ok ((), ph2) ∧ m' = { m1 with phys := ph2 }) ∨
       ∃ p ph2, m1.proc i = some p ∧ freevm ld p.pgdir m1.phys = .ok ((), ph2) ∧
        m' = { m1.setProc i (some { p with pgdir := d1, sz := sz }) with phys := ph2 }) := by
  unfold exec at he
  cases ip with
  | none =>
    obtain ⟨-, rfl⟩ := Prod.mk.inj (pure_ok he)
    exact .inl ⟨_, h.acct, rfl⟩
  | some ip =>
    obtain ⟨o, ph, hl, he⟩ := bind_onPhys he
    rcases loadImage_image h.acct hl with ⟨rfl, ha⟩ | ⟨d, o, rfl, ha, hi⟩
    · obtain ⟨-, rfl⟩ := Prod.mk.inj (pure_ok he)
      exact .inl ⟨ph, ha, rfl⟩
    · cases o with
      | none =>
        obtain ⟨_, ph2, hf, he⟩ := bind_onPhys he
        obtain ⟨-, rfl⟩ := Prod.mk.inj (pure_ok he)
        exact .inl ⟨ph2, (acct_freevm ha hf).1, rfl⟩
      | some sz =>
        obtain ⟨hi, hpos, hsz⟩ := hi sz rfl
        obtain ⟨⟨d1, ok⟩, m1, hp, he⟩ := bind_ok he
        have hb0 : Building ld { m with phys := ph } d sz := ⟨ha, h.wf, h.excl, hs, hi⟩
        obtain ⟨hb, hwritten⟩ := pushStack_building hb0 hshort hp
        refine .inr ⟨ph, d, m1, d1, sz, hwritten, hb, hpos, hsz, ?_⟩
        dsimp only at he
        split at he
        · obtain ⟨p, ph2, hpi, hf, -, rfl⟩ := commitImage_ok he
          exact .inr ⟨p, ph2, hpi, hf, rfl⟩
        · obtain ⟨_, ph2, hf, he⟩ := bind_onPhys he
          obtain ⟨-, rfl⟩ := Prod.mk.inj (pure_ok he)
          exact .inl ⟨ph2, hf, rfl⟩

theorem inv_exec {ip : Option (List UInt8)} {argv : List (List UInt8)} {r : Bool} (h : Inv ld m)
    (hs : m.Started) (hshort : ∀ arg ∈ argv, arg.length + 4 ≤ 0x2000000)
    (he : exec ld i ip argv m = .ok (r, m')) : Inv ld m' := by
  rcases exec_cases h hs hshort he with
    ⟨ph, ha, rfl⟩ | ⟨ph, d, m1, d1, sz, -, hb, -, hsz, ⟨ph2, hf, rfl⟩ | ⟨p, ph2, hp, hf, rfl⟩⟩
  · exact inv_setPhys h hs ha
  · exact hb.inv_of_freevm hf
  · exact hb.inv_of_commit hsz hp hf

theorem mem_of_fetchArgs {uargv : List Nat} {argv : List (List UInt8)}
    (h : fetchArgs s p uargv = some (some argv)) :
    ∀ arg ∈ argv, ∃ addr ∈ uargv, fetchstr s p addr = some (some arg) := by
  induction uargv generalizing argv with
  | nil =>
    obtain rfl := Option.some.inj (Option.some.inj h)
    simp
  | cons addr uargv ih =>
    unfold fetchArgs at h
    split at h
    · cases h
    · cases h
    · next arg0 hf =>
      obtain ⟨o, ho, hm⟩ := Option.map_eq_some_iff.mp h
      obtain ⟨rest, rfl, rfl⟩ := Option.map_eq_some_iff.mp hm
      rintro arg harg
      rcases mem_cons.mp harg with rfl | harg
      · exact ⟨addr, by simp, hf⟩
      · obtain ⟨a, ha, hfa⟩ := ih ho arg harg
        exact ⟨a, by simp [ha], hfa⟩

theorem sys_exec_cases {ip : Option (List UInt8)} {uargv : List Nat} {r : Bool}
    (he : sys_exec ld i p ip uargv m = .ok (r, m')) :
    exit i p m = .ok ((), m') ∨ m' = m ∨ ∃ argv, exec ld i ip argv m = .ok (r, m') ∧
      ∀ arg ∈ argv, ∃ addr ∈ uargv, fetchstr m.phys p addr = some (some arg) := by
  unfold sys_exec at he
  cases hf : fetchArgs m.phys p (uargv.take MAXARG) with
  | none =>
    rw [hf] at he
    obtain ⟨_, m1, hx, he⟩ := bind_ok he
    obtain ⟨-, rfl⟩ := Prod.mk.inj (pure_ok he)
    exact .inl hx
  | some o =>
    rw [hf] at he
    cases o with
    | none => exact .inr (.inl (Prod.mk.inj (Except.ok.inj he)).2.symm)
    | some argv =>
      dsimp only at he
      split at he
      · exact .inr (.inl (Prod.mk.inj (Except.ok.inj he)).2.symm)
      · refine .inr (.inr ⟨argv, he, fun arg harg => ?_⟩)
        obtain ⟨addr, ha, hfa⟩ := mem_of_fetchArgs hf arg harg
        exact ⟨addr, mem_of_mem_take ha, hfa⟩

theorem inv_sys_exec {ip : Option (List UInt8)} {uargv : List Nat} {r : Bool} (h : Inv ld m)
    (hp : m.proc i = some p)
    (hshort : ∀ addr ∈ uargv, ∀ arg, fetchstr m.phys p addr = some (some arg) →
      arg.length + 4 ≤ 0x2000000)
    (he : sys_exec ld i p ip uargv m = .ok (r, m')) : Inv ld m' := by
  rcases sys_exec_cases he with hx | rfl | ⟨argv, he, hargs⟩
  · exact inv_exit h hp hx
  · exact h
  · refine inv_exec h ⟨i, p, hp⟩ (fun arg harg => ?_) he
    obtain ⟨addr, ha, hfa⟩ := hargs arg harg
    exact hshort addr ha arg hfa

end Xv6.Sys
