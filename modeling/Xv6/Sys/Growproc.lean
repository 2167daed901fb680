import Xv6.Sys.ForkCost
import Xv6.Sys.Size

/-!
# What `growproc` promises

A call to `growproc` gives the process the size that it asked for, or it fails and changes nothing.
The two calls for which this is wrong bring the size to 0 or below it: `deallocuvm` returns the new
size 0, which `growproc` takes for a failure, and `sz + n` wraps around below 0.
-/

open Xv6.Cmd Xv6.Vm Function

namespace Xv6.Sys

variable {ld : Linker} {d : PgDir} {m m' : Machine} {i : Fin NPROC} {p : Proc} {n : Int}

/-- The pages below `PGROUNDUP(sz)` are exactly the user mappings of `d`. -/
def MapsBelow (d : PgDir) (sz : Nat) : Prop :=
  ∀ va < KERNBASE, (d.get va).present = true ↔ va < pgroundup sz

/-- The process has the size `sz` and exactly the pages below it. Those that it had already are the same,
with the same bytes, the others are zero. Pages that others use too keep their bytes. -/
structure Resized (ld : Linker) (i : Fin NPROC) (p : Proc) (sz : Nat) (m m' : Machine) : Prop where
  proc : ∃ d, m'.proc i = some { p with pgdir := d, sz := sz } ∧ MapsBelow d sz ∧
    ∀ va < pgroundup sz,
      if va < pgroundup p.sz then
        d.get va = p.pgdir.get va ∧ Phys.byte m'.phys d va = Phys.byte m.phys p.pgdir va
      else Phys.byte m'.phys d va = 0
  slots : ∀ k, k ≠ i → m'.proc k = m.proc k
  others : ∀ q, Managed ld q → (p.pgdir.userRefs q : Int) < m.phys.refc_cnt q →
    m'.phys.mem q = m.phys.mem q

/-- `growproc` returns, with 0 and the size `sz + n`, or with -1 and the old size. -/
def GrowContract (ld : Linker) (i : Fin NPROC) (p : Proc) (n : Int) (m : Machine) : Prop :=
  ∃ r m', growproc ld i p n m = .ok (r, m') ∧
    (r = true ∧ 0 ≤ (p.sz : Int) + n ∧ Resized ld i p ((p.sz : Int) + n).toNat m m' ∨
      r = false ∧ Resized ld i p p.sz m m')

/-! ## The page table afterwards -/

theorem addInt_of_nonneg (h : 0 ≤ (p.sz : Int) + n) (hlt : (p.sz : Int) + n < 0x100000000) :
    addInt p.sz n = ((p.sz : Int) + n).toNat := by
  rw [addInt, Int.emod_eq_of_lt h hlt]

theorem pgroundup_mono {a b : Nat} (h : a ≤ b) (hb : b ≤ KERNBASE) : pgroundup a ≤ pgroundup b := by
  rw [pgroundup_of_le hb, pgroundup_of_le (Nat.le_trans h hb)]
  omega

theorem pgroundup_le_kernbase {a : Nat} (h : a ≤ KERNBASE) : pgroundup a ≤ KERNBASE := by
  rw [pgroundup_of_le h]
  simp only [KERNBASE] at *
  omega

theorem Lendable.not_free {s : Phys} {q : Nat} (h : Lendable ld s d)
    (hq : 0 < d.userRefs q ∨ (d.userRefs q : Int) < s.refc_cnt q) : q ∉ s.freelist := by
  intro hf
  have hzero := h.free.count q hf
  rcases hq with hq | hq
  · have := (h.user q hq).2
    omega
  · omega

theorem resized_granted {newsz : Nat} {ph : Phys} (hl : Lendable ld m.phys p.pgdir)
    (hmap : MapsBelow p.pgdir p.sz) (hle : p.sz ≤ newsz) (hlt : newsz < KERNBASE)
    (hg : Granted p.sz newsz p.pgdir m.phys d ph) :
    Resized ld i p newsz m { m.setProc i (some { p with pgdir := d, sz := newsz }) with phys := ph } where
  proc := by
    have htop := pgroundup_le_kernbase (Nat.le_of_lt hlt)
    have hround : ∀ va, va < pgroundup newsz ↔ _ := fun _ => lt_pgroundup_iff (Nat.le_of_lt hlt)
    have hkb : ∀ va < KERNBASE, va < 0x100000000 := fun va h => Nat.lt_trans h (by decide)
    refine ⟨d, update_self i _ m.proc, fun va hva => ?_, fun va hva => ?_⟩
    · by_cases hup : va < pgroundup p.sz
      · rw [hg.old va (hkb va hva) (.inl hup), hmap va hva]
        exact ⟨fun _ => Nat.lt_of_lt_of_le hup (pgroundup_mono hle (Nat.le_of_lt hlt)), fun _ => hup⟩
      by_cases hnew : va < pgroundup newsz
      · obtain ⟨q, hq, -⟩ := hg.new va (Nat.le_of_not_lt hup) ((hround va).mp hnew)
        rw [hq]
        exact ⟨fun _ => hnew, fun _ => rfl⟩
      · rw [hg.old va (hkb va hva) (.inr (Nat.le_of_not_lt fun h => hnew ((hround va).mpr h))), hmap va hva]
        exact ⟨fun h => absurd h hup, fun h => absurd h hnew⟩
    · have hva' : va < KERNBASE := Nat.lt_of_lt_of_le hva htop
      split
      · next hup =>
        have hold := hg.old va (hkb va hva') (.inl hup)
        refine ⟨hold, ?_⟩
        rw [Phys.byte, hold]
        have hpos := PgDir.userRefs_pos ((hmap va hva').mpr hup) hva'
        exact congrFun (hg.kept _ (hl.not_free (.inl hpos))) _
      · next hup =>
        obtain ⟨q, hq, -, hz⟩ := hg.new va (Nat.le_of_not_lt hup) ((hround va).mp hva)
        rw [Phys.byte, hq]
        exact congrFun hz _
  slots k hk := update_of_ne hk _ _
  others q _ hq := hg.kept q (hl.not_free (.inr hq))

theorem resized_withdrawn {ph : Phys} (hsz : p.sz < KERNBASE) (hl : Lendable ld m.phys p.pgdir)
    (hmap : MapsBelow p.pgdir p.sz) (hw : Withdrawn p.pgdir m.phys d ph) :
    Resized ld i p p.sz m { m.setProc i (some { p with pgdir := d }) with phys := ph } where
  proc := by
    have htop := pgroundup_le_kernbase (Nat.le_of_lt hsz)
    have hkb : ∀ va < KERNBASE, va < 0x100000000 := fun va h => Nat.lt_trans h (by decide)
    refine ⟨d, update_self i _ m.proc, fun va hva => ?_, fun va hva => ?_⟩
    · rw [hw.present va (hkb va hva)]
      exact hmap va hva
    · have hva' : va < KERNBASE := Nat.lt_of_lt_of_le hva htop
      have hpr := (hmap va hva').mpr hva
      have hold := hw.same va (hkb va hva') hpr
      rw [if_pos hva]
      refine ⟨hold, ?_⟩
      rw [Phys.byte, hold]
      exact congrFun (hw.kept _ (hl.not_free (.inl (PgDir.userRefs_pos hpr hva')))) _
  slots k hk := update_of_ne hk _ _
  others q _ hq := hw.kept q (hl.not_free (.inr hq))

theorem resized_refl (hp : m.proc i = some p) (hmap : MapsBelow p.pgdir p.sz) :
    Resized ld i p p.sz m m where
  proc := ⟨p.pgdir, hp, hmap, fun va hva => by
    rw [if_pos hva]
    exact ⟨rfl, rfl⟩⟩
  slots _ _ := rfl
  others _ _ _ := rfl

theorem resized_freed {newsz r : Nat} {ph : Phys} (hsz : p.sz < KERNBASE)
    (hl : Lendable ld m.phys p.pgdir) (hmap : MapsBelow p.pgdir p.sz) (hlt : newsz < p.sz)
    (h : deallocuvm ld p.pgdir p.sz newsz m.phys = .ok ((d, r), ph)) :
    Resized ld i p newsz m { m.setProc i (some { p with pgdir := d, sz := newsz }) with phys := ph } := by
  have hsz' := Nat.le_of_lt hsz
  obtain ⟨-, hkept, -⟩ := acct_deallocuvm hsz' hl.acct h
  obtain ⟨hle, -⟩ | ⟨-, -, hgone, hout⟩ := deallocuvm_shape hsz' h
  · omega
  have hmono := pgroundup_mono (Nat.le_of_lt hlt) hsz'
  have htop := pgroundup_le_kernbase hsz'
  have hkb : ∀ va < KERNBASE, va < 0x100000000 := fun va h => Nat.lt_trans h (by decide)
  refine ⟨⟨d, update_self i _ m.proc, fun va hva => ?_, fun va hva => ?_⟩,
    fun k hk => update_of_ne hk _ _, fun q hq hlt => hkept q ?_⟩
  · by_cases hup : va < pgroundup newsz
    · rw [hout va (hkb va hva) (.inl hup), hmap va hva]
      exact ⟨fun _ => hup, fun _ => Nat.lt_of_lt_of_le hup hmono⟩
    · refine ⟨fun hpr => absurd hpr ?_, fun h => absurd h hup⟩
      by_cases hpage : va / PGSIZE * PGSIZE < p.sz
      · rw [hgone va (Nat.le_of_not_lt hup) hpage]
        exact Bool.false_ne_true
      · rw [hout va (hkb va hva) (.inr (Nat.le_of_not_lt hpage)), hmap va hva, lt_pgroundup_iff hsz']
        exact hpage
  · have hup : va < pgroundup p.sz := Nat.lt_of_lt_of_le hva hmono
    have hva' : va < KERNBASE := Nat.lt_of_lt_of_le hup htop
    have hold := hout va (hkb va hva') (.inl hva)
    have hpr : (d.get va).present = true := by
      rw [hold]
      exact (hmap va hva').mpr hup
    rw [if_pos hup]
    refine ⟨hold, ?_⟩
    have hpos := PgDir.userRefs_pos hpr hva'
    rw [Phys.byte, Phys.byte, ← hold]
    exact congrFun (hkept _ (by simp only [Pi.add_apply]; omega)) _
  · have hrefs := hl.refs ⟨hq, .inr (by omega)⟩
    simp only [Pi.add_apply]
    omega

/-! ## The calls -/

theorem contract_grow (hp : m.proc i = some p) (hsz : p.sz < KERNBASE)
    (hl : Lendable ld m.phys p.pgdir) (hmap : MapsBelow p.pgdir p.sz) (hn : 0 < n) (hint : n < 0x80000000) :
    GrowContract ld i p n m := by
  have hsum : addInt p.sz n = ((p.sz : Int) + n).toNat :=
    addInt_of_nonneg (by omega) (by simp only [KERNBASE] at hsz; omega)
  by_cases hbig : KERNBASE ≤ addInt p.sz n
  · have ha : allocuvm ld p.pgdir p.sz (addInt p.sz n) m.phys = .ok ((p.pgdir, 0), m.phys) := by
      rw [allocuvm, if_pos hbig]
      rfl
    refine ⟨_, _, growproc_of_ok (.inl ⟨hn, ha⟩), .inr ⟨rfl, ?_⟩⟩
    rw [if_pos rfl, setProc_self hp]
    exact resized_refl hp hmap
  · have hle : p.sz ≤ addInt p.sz n := by omega
    obtain ⟨d, r, ph, ha, hout⟩ : ∃ d r ph, allocuvm ld p.pgdir p.sz (addInt p.sz n) m.phys = .ok ((d, r), ph) ∧
        (r = addInt p.sz n ∧ Granted p.sz (addInt p.sz n) p.pgdir m.phys d ph ∨
          r = 0 ∧ Withdrawn p.pgdir m.phys d ph) := by
      rw [allocuvm, if_neg hbig, if_neg (by omega)]
      refine allocLoop_outcome (by omega) (le_pgroundup (by omega)) (fun va hva hup => ?_) hl.free (.start _ _ _)
        (by simp) (by simp only [PGSIZE]; omega) (by simp)
      have := hmap va hva
      rw [← Bool.not_eq_true, this]
      omega
    refine ⟨_, _, growproc_of_ok (.inl ⟨hn, ha⟩), ?_⟩
    rcases hout with ⟨rfl, hg⟩ | ⟨rfl, hw⟩
    · have hne : addInt p.sz n ≠ 0 := by omega
      rw [if_neg hne, ← hsum]
      exact .inl ⟨decide_eq_true hne, by omega, resized_granted hl hmap hle (by omega) hg⟩
    · rw [if_pos rfl]
      exact .inr ⟨rfl, resized_withdrawn hsz hl hmap hw⟩

theorem contract_shrink (hsz : p.sz < KERNBASE) (hl : Lendable ld m.phys p.pgdir)
    (hmap : MapsBelow p.pgdir p.sz) (hn : n < 0) (hpos : 0 < (p.sz : Int) + n) : GrowContract ld i p n m := by
  have hsum : addInt p.sz n = ((p.sz : Int) + n).toNat :=
    addInt_of_nonneg (by omega) (by simp only [KERNBASE] at hsz; omega)
  have hsz' := Nat.le_of_lt hsz
  obtain ⟨d, r, ph, hd⟩ : ∃ d r ph, deallocuvm ld p.pgdir p.sz (addInt p.sz n) m.phys = .ok ((d, r), ph) :=
    deallocuvm_total (fun _ hq => hq.1) hsz' hl.acct
  refine ⟨_, _, growproc_of_ok (.inr ⟨hn, hd⟩), .inl ?_⟩
  obtain rfl : r = addInt p.sz n := by
    rcases deallocuvm_shape hsz' hd with ⟨hle, -⟩ | ⟨-, rfl, -⟩
    · omega
    · rfl
  have hne : addInt p.sz n ≠ 0 := by omega
  rw [if_neg hne, ← hsum]
  exact ⟨decide_eq_true hne, by omega, resized_freed hsz hl hmap (by omega) hd⟩

theorem Proc.SizeOk.mapsBelow (h : p.SizeOk) : MapsBelow p.pgdir p.sz := by
  intro va hva
  refine ⟨fun hpr => ?_, h.1 va⟩
  by_contra hc
  rw [h.2 va (Nat.le_of_not_lt hc) hva] at hpr
  cases hpr

theorem contract_empty (hp : m.proc i = some p) (hmap : MapsBelow p.pgdir p.sz) (hn : n < 0)
    (hzero : p.sz = 0) : GrowContract ld i p n m := by
  have hd : deallocuvm ld p.pgdir p.sz (addInt p.sz n) m.phys = .ok ((p.pgdir, 0), m.phys) := by
    rw [deallocuvm, if_pos (by omega), hzero]
    rfl
  refine ⟨_, _, growproc_of_ok (.inr ⟨hn, hd⟩), .inr ⟨rfl, ?_⟩⟩
  rw [if_pos rfl, setProc_self hp]
  exact resized_refl hp hmap

theorem not_contract_whole (hsz : p.sz < KERNBASE) (hpos : 0 < p.sz) (hzero : (p.sz : Int) + n = 0) :
    ¬ GrowContract ld i p n m := by
  rintro ⟨r, m', hg, hout⟩
  have hsum : addInt p.sz n = 0 := by rw [addInt, hzero]; rfl
  obtain ⟨d, ph, hd, hgone, rfl⟩ := growproc_whole hsz hpos (by omega) hsum hg
  have hr := growproc_of_ok (i := i) (.inr ⟨by omega, hsum.symm ▸ hd⟩)
  rw [hg] at hr
  obtain ⟨rfl, -⟩ := Prod.mk.inj (Except.ok.inj hr)
  rcases hout with ⟨hr, -⟩ | ⟨-, hres⟩
  · exact absurd hsum (of_decide_eq_true hr)
  · obtain ⟨d', hd', hmap, -⟩ := hres.proc
    have hsame : d' = d := by
      have h := (update_self i _ m.proc).symm.trans hd'
      exact (congrArg Proc.pgdir (Option.some.inj h)).symm
    have h0 := (hmap 0 (by decide)).mpr (Nat.lt_of_lt_of_le hpos (le_pgroundup (Nat.le_of_lt hsz)))
    rw [hsame, hgone] at h0
    cases h0

theorem growproc_below (hp : m.proc i = some p) (hsz : p.sz < KERNBASE) (hpos : 0 < p.sz)
    (hneg : (p.sz : Int) + n < 0) (hint : -0x80000000 ≤ n) : growproc ld i p n m = .ok (true, m) := by
  have hbig : p.sz ≤ addInt p.sz n := by
    simp only [addInt, KERNBASE] at *
    omega
  have hd : deallocuvm ld p.pgdir p.sz (addInt p.sz n) m.phys = .ok ((p.pgdir, p.sz), m.phys) := by
    rw [deallocuvm, if_pos hbig]
    rfl
  have hne : p.sz ≠ 0 := by omega
  rw [growproc_of_ok (.inr ⟨by omega, hd⟩), if_neg hne, decide_eq_true hne, setProc_self hp]

theorem not_contract_below (hp : m.proc i = some p) (hsz : p.sz < KERNBASE) (hpos : 0 < p.sz)
    (hneg : (p.sz : Int) + n < 0) (hint : -0x80000000 ≤ n) : ¬ GrowContract ld i p n m := by
  rintro ⟨r, m', hg, hout⟩
  rw [growproc_below hp hsz hpos hneg hint] at hg
  obtain ⟨rfl, -⟩ := Prod.mk.inj (Except.ok.inj hg)
  rcases hout with ⟨-, hle, -⟩ | ⟨hr, -⟩
  · omega
  · cases hr

/-- The contract holds for every call that leaves some memory, and for no other one. -/
theorem growproc_contract_iff (hp : m.proc i = some p) (hsz : p.sz < KERNBASE)
    (hl : Lendable ld m.phys p.pgdir) (hmap : MapsBelow p.pgdir p.sz) (hlow : -0x80000000 ≤ n)
    (hint : n < 0x80000000) : GrowContract ld i p n m ↔ 0 ≤ n ∨ p.sz = 0 ∨ 0 < (p.sz : Int) + n := by
  constructor
  · intro h
    by_contra hc
    rcases Int.lt_trichotomy ((p.sz : Int) + n) 0 with hneg | hzero | hpos
    · exact not_contract_below hp hsz (by omega) hneg hlow h
    · exact not_contract_whole hsz (by omega) hzero h
    · omega
  · intro h
    rcases Int.lt_trichotomy n 0 with hn | rfl | hn
    · rcases h with h | h | h
      · omega
      · exact contract_empty hp hmap hn h
      · exact contract_shrink hsz hl hmap hn h
    · refine ⟨true, m, rfl, .inl ⟨rfl, by omega, ?_⟩⟩
      rw [Int.add_zero, Int.toNat_natCast]
      exact resized_refl hp hmap
    · exact contract_grow hp hsz hl hmap hn hint

theorem growproc_contract_one_page :
    ∃ m', growproc smallKernel initproc ⟨0x1000, onePageDir, 0x302, false⟩ 0x1000 lowMemory = .ok (true, m') ∧
      Resized smallKernel initproc ⟨0x1000, onePageDir, 0x302, false⟩ 0x2000 lowMemory m' := by
  have hmap : MapsBelow onePageDir 0x1000 := by
    intro va hva
    rw [onePageDir, PgDir.get_set (PgDir.hasTab_addTab _ 0 _) (by decide) (Nat.lt_trans hva (by decide)),
      PgDir.get_addTab rfl, lt_pgroundup_iff (by decide)]
    split
    · next h0 => simp [h0, Perm.pte]
    · next h0 =>
      refine ⟨fun h => (Bool.false_ne_true h).elim, fun h => absurd h ?_⟩
      simp only [PGSIZE] at *
      omega
  obtain ⟨r, m', hg, ⟨rfl, -, hres⟩ | ⟨rfl, hres⟩⟩ := (growproc_contract_iff (n := 0x1000) (m := lowMemory)
    (i := initproc) (p := ⟨0x1000, onePageDir, 0x302, false⟩) rfl (by decide) lendable_lowMemory hmap (by decide)
    (by decide)).mpr (.inl (by decide))
  · exact ⟨m', hg, hres⟩
  · have hrun : ((growproc smallKernel initproc ⟨0x1000, onePageDir, 0x302, false⟩ 0x1000
        lowMemory).toOption.map Prod.fst) = some true := by decide +kernel
    rw [hg] at hrun
    cases Option.some.inj hrun

/-- The first process asks for all its memory back, and for more than that. -/
theorem growproc_breaks_contract :
    ∃ m0 m p, boot demoLinker 1 (fun _ _ => 0) = .ok m0 ∧ next demoLinker m0 (.userinit []) = some m ∧
      m.proc initproc = some p ∧ p.sz = 0x1000 ∧ MapsBelow p.pgdir 0x1000 ∧
      (∃ d ph, growproc demoLinker initproc p (-0x1000) m =
          .ok (false, { m.setProc initproc (some { p with pgdir := d }) with phys := ph }) ∧
        (d.get 0).present = false) ∧
      growproc demoLinker initproc p (-0x2000) m = .ok (true, m) ∧
      ¬ GrowContract demoLinker initproc p (-0x1000) m ∧ ¬ GrowContract demoLinker initproc p (-0x2000) m := by
  obtain ⟨m0, m, d, kstack, hboot, hn, hinv, -, hp, -⟩ := first_process (c := 1) (by decide)
  have hfill := filled_next (a := .userinit []) (inv_boot hboot) (filled_boot hboot) trivial trivial hn
  have hmap := (sizeOk_of_filled hinv hfill initproc _ hp rfl).mapsBelow
  obtain ⟨p, hsz, hfirst⟩ : ∃ p : Proc, p.sz = 0x1000 ∧ firstProc d kstack = p := ⟨_, rfl, rfl⟩
  rw [hfirst] at hp hmap
  have hlt := (hinv.wf initproc p hp).sz_lt
  have hzero : addInt p.sz (-0x1000) = 0 := by
    rw [hsz]
    decide
  obtain ⟨r, m', hg⟩ := growproc_shrinks hinv hp (n := -0x1000) (by decide)
  obtain ⟨d', ph, hd, hgone, rfl⟩ := growproc_whole hlt (by omega) (by decide) hzero hg
  refine ⟨m0, m, p, hboot, hn, hp, hsz, hsz ▸ hmap, ⟨d', ph, ?_, hgone⟩,
    growproc_below hp hlt (by omega) (by omega) (by decide), not_contract_whole hlt (by omega) (by omega),
    not_contract_below hp hlt (by omega) (by omega) (by decide)⟩
  rw [← hzero] at hd
  have h := growproc_of_ok (i := initproc) (.inr ⟨by decide, hd⟩)
  rwa [hzero] at h

end Xv6.Sys
