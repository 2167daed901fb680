import Xv6.Sys.Smash

/-!
# The arguments of the new program

The strings and the words that `exec` puts on the stack. The guard page stops every copy that does
not fit into the stack page.
-/

open Xv6.Cmd Xv6.Pool Xv6.Run Xv6.Vm List

namespace Xv6.Sys

variable {ld : Linker} {d d' : PgDir} {m m' : Machine} {i : Fin NPROC} {p : Proc} {sz : Nat}
  {read : Nat → UInt8} {argv : List (List UInt8)}

/-! ## The guard page and the stack page -/

/-- The last two pages of the image: one that is not the user's, and the stack. -/
structure StackTop (d : PgDir) (sz : Nat) : Prop where
  aligned : sz % PGSIZE = 0
  room : 2 * PGSIZE ≤ sz
  guard : ∀ a, sz - 2 * PGSIZE ≤ a → a < sz - PGSIZE → (d.get a).user = false
  stack : ∀ a, sz - PGSIZE ≤ a → a < sz → (d.get a).present = true ∧ (d.get a).user = true

theorem stackPages_top {dom : Nat → Prop} {own sh : Nat → Nat} {s0 s s' : Phys} {sz0 : Nat}
    (hl : Loaded ld dom own sh s0 (d, some sz0) s) (h : stackPages ld d sz0 s = .ok ((d', some sz), s')) :
    StackTop d' sz := by
  have hle := hl.of_image.round.sz_le
  have hmod := pgroundup_mod sz0
  obtain ⟨⟨d1, r⟩, s1, hal, h⟩ := bind_ok h
  dsimp only at h
  split at h
  · obtain ⟨-, hc, -⟩ := pure_pair_ok h
    cases hc
  · next hr =>
    obtain ⟨d2, s2, hc, hend⟩ := bind_ok h
    obtain ⟨ht, rfl, rfl⟩ := clearpteu_ok hc
    obtain ⟨rfl, hsz, rfl⟩ := pure_pair_ok hend
    obtain rfl := Option.some.inj hsz
    have hnew : u32 (pgroundup sz0 + 2 * PGSIZE) = pgroundup sz0 + 2 * PGSIZE :=
      u32_of_lt (by simp only [KERNBASE, PGSIZE] at *; omega)
    rw [hnew] at hal
    obtain ⟨hlt, ⟨hc, -⟩ | ⟨-, rfl, hg, -⟩⟩ := allocuvm_ok hl.acct hal hr
    · omega
    rw [show pgroundup (pgroundup sz0) = pgroundup sz0 from by
      rw [pgroundup_of_le hle]
      simp only [PGSIZE] at hmod
      omega] at hg
    have huva : sub32 (pgroundup sz0 + 2 * PGSIZE) (2 * PGSIZE) = pgroundup sz0 := by
      simp only [sub32, u32, KERNBASE, PGSIZE] at *
      omega
    rw [huva] at ht ⊢
    have hget : ∀ a, pgroundup sz0 ≤ a → a < pgroundup sz0 + 2 * PGSIZE →
        (d1.get a).present = true ∧ (d1.get a).user = true := by
      intro a h1 h2
      obtain ⟨-, -, q, hq, -⟩ := hg.new a h1 (by simp only [PGSIZE] at *; omega)
      rw [hq]
      exact ⟨rfl, rfl⟩
    have hlow : pgroundup sz0 + 2 * PGSIZE < 0x100000000 := by simp only [KERNBASE] at hlt; omega
    refine ⟨by simp only [PGSIZE] at *; omega, by omega, fun a h1 h2 => ?_, fun a h1 h2 => ?_⟩
    · rw [PgDir.get_set ht (by omega) (by omega), if_pos (by simp only [PGSIZE] at *; omega)]
    · rw [PgDir.get_set ht (by omega) (by omega), if_neg (by simp only [PGSIZE] at *; omega)]
      exact hget a (by simp only [PGSIZE] at *; omega) h2

theorem StackTop.above {a n sp : Nat} (h : StackTop d sz) (hsz : sz ≤ KERNBASE) (hu : UserRange d a n) (hn : 0 < n)
    (hle : a + n ≤ sp) (hnear : sp ≤ a + n + 3) (hsp : sz - PGSIZE ≤ sp) (hspz : sp ≤ sz) : sz - PGSIZE ≤ a := by
  by_contra hlt
  obtain ⟨b, rfl⟩ : ∃ b, sz = b + 2 * PGSIZE := ⟨sz - 2 * PGSIZE, (Nat.sub_add_cancel h.room).symm⟩
  have htop : b + 2 * PGSIZE - PGSIZE = b + PGSIZE := by omega
  have hguard := h.guard
  rw [htop] at hlt hsp hguard
  rw [Nat.add_sub_cancel] at hguard
  -- One byte of the copy is in the guard page.
  obtain ⟨k, hk, h1, h2⟩ : ∃ k < n, b ≤ a + k ∧ a + k < b + PGSIZE := by
    simp only [PGSIZE] at *
    by_cases hend : a + n ≤ b + 4096
    · exact ⟨n - 1, by omega, by omega, by omega⟩
    · exact ⟨b + 4095 - a, by omega, by omega, by omega⟩
  have huser := (hu k hk).2
  rw [u32_of_lt (by simp only [KERNBASE] at hsz; omega), hguard _ h1 h2] at huser
  cases huser

theorem stringAddr_near {sp : Nat} (arg : List UInt8) (hsp : sp ≤ KERNBASE) :
    sp ≤ stringAddr sp arg + (arg.length + 1) + 3 := by
  simp only [stringAddr, sub32, u32, KERNBASE] at *
  omega

theorem stringAddr_mod (sp : Nat) (arg : List UInt8) : stringAddr sp arg % 4 = 0 := Nat.mul_mod_left _ _

theorem Strings.above {sp : Nat} (h : Strings d read sp argv) (ht : StackTop d sz) (hsz : sz ≤ KERNBASE)
    (hsp : sz - PGSIZE ≤ sp) (hspz : sp ≤ sz) (hal : sp % 4 = 0) :
    sz - PGSIZE ≤ stringsEnd sp argv ∧ stringsEnd sp argv % 4 = 0 := by
  induction argv generalizing sp with
  | nil => exact ⟨hsp, hal⟩
  | cons arg argv ih =>
    obtain ⟨hle, hu, -, hrest⟩ := h
    have habove := ht.above hsz hu (Nat.succ_pos _) (by omega)
      (stringAddr_near arg (Nat.le_trans hspz hsz)) hsp hspz
    exact ih hrest habove (by omega) (stringAddr_mod sp arg)

/-! ## The layout -/

/-- The word at `a`. -/
def wordAt (read : Nat → UInt8) (a : Nat) : Nat := number ((List.range 4).map fun k => read (a + k)) 0 4

/-- The argument block of a program that starts with the stack pointer `esp`: the strings `argv` are at
`ptrs`, in the stack page below `sz`. -/
structure ArgBlock (read : Nat → UInt8) (sz esp : Nat) (argv : List (List UInt8)) (ptrs : List Nat) : Prop where
  ret : wordAt read esp = 0xffffffff
  argc : wordAt read (esp + 4) = argv.length
  vec : wordAt read (esp + 8) = esp + 12
  length : ptrs.length = argv.length
  ptr : ∀ j < argv.length, wordAt read (esp + 12 + 4 * j) = ptrs.getD j 0
  null : wordAt read (esp + 12 + 4 * argv.length) = 0
  string : ∀ j < argv.length, ∀ k ≤ (argv.getD j []).length,
    read (ptrs.getD j 0 + k) = (argv.getD j [] ++ [0]).getD k 0
  aligned : esp % 4 = 0 ∧ ∀ j < argv.length, ptrs.getD j 0 % 4 = 0
  inside : sz - PGSIZE ≤ esp ∧ ∀ j < argv.length, ptrs.getD j 0 + (argv.getD j []).length + 1 ≤ sz
  below : ∀ j < argv.length, esp + 4 * (4 + argv.length) ≤ ptrs.getD j 0
  apart : ∀ j l, j < l → l < argv.length → ptrs.getD l 0 + (argv.getD l []).length + 1 ≤ ptrs.getD j 0

theorem Strings.get {sp : Nat} (h : Strings d read sp argv) {j : Nat} (hj : j < argv.length) :
    (∀ k ≤ (argv.getD j []).length, read ((stringAddrs sp argv).getD j 0 + k) = (argv.getD j [] ++ [0]).getD k 0) ∧
    (stringAddrs sp argv).getD j 0 % 4 = 0 ∧
    (stringAddrs sp argv).getD j 0 + (argv.getD j []).length + 1 ≤ sp ∧
    stringsEnd sp argv ≤ (stringAddrs sp argv).getD j 0 ∧
    ∀ l, j < l → l < argv.length →
      (stringAddrs sp argv).getD l 0 + (argv.getD l []).length + 1 ≤ (stringAddrs sp argv).getD j 0 := by
  induction argv generalizing sp j with
  | nil => cases hj
  | cons arg argv ih =>
    obtain ⟨hle, -, hb, hrest⟩ := h
    cases j with
    | zero =>
      refine ⟨fun k hk => hb k (Nat.lt_succ_of_le hk), stringAddr_mod sp arg, hle, hrest.end_le, fun l h0 hl => ?_⟩
      obtain ⟨l, rfl⟩ := Nat.exists_eq_add_of_lt h0
      rw [Nat.zero_add] at hl ⊢
      exact (ih hrest (Nat.lt_of_succ_lt_succ hl)).2.2.1
    | succ j =>
      obtain ⟨h1, h2, h3, h4, h5⟩ := ih hrest (Nat.lt_of_succ_lt_succ hj)
      refine ⟨h1, h2, ?_, h4, fun l h0 hl => ?_⟩
      · exact Nat.le_trans h3 (by omega)
      · obtain ⟨l, rfl⟩ : ∃ l', l = l' + 1 := ⟨l - 1, by omega⟩
        exact h5 l (by omega) (Nat.lt_of_succ_lt_succ hl)

theorem getD_flatMap_wordBytes (l : List Nat) (w b : Nat) (hb : b < 4) :
    (l.flatMap wordBytes).getD (4 * w + b) 0 = (wordBytes (l.getD w 0)).getD b 0 := by
  induction l generalizing w with
  | nil =>
    have : b = 0 ∨ b = 1 ∨ b = 2 ∨ b = 3 := by omega
    rcases this with rfl | rfl | rfl | rfl <;> simp [wordBytes, List.range, List.range.loop]
  | cons x l ih =>
    have hlen : (wordBytes x).length = 4 := rfl
    simp only [getD_eq_getElem?_getD] at *
    rw [flatMap_cons]
    cases w with
    | zero =>
      rw [List.getElem?_append_left (by omega)]
      simp
    | succ w =>
      rw [List.getElem?_append_right (by omega), hlen, show 4 * (w + 1) + b - 4 = 4 * w + b by omega, ih,
        List.getElem?_cons_succ]

theorem Pushed.wordAt (h : Pushed d read sz argv) {w : Nat} (hw : w < 4 + argv.length)
    (hlt : (ustackWords (stringsEnd sz argv) (stringAddrs sz argv)).getD w 0 < 0x100000000) :
    wordAt read (espOf sz argv + 4 * w) = (ustackWords (stringsEnd sz argv) (stringAddrs sz argv)).getD w 0 := by
  unfold Sys.wordAt
  rw [← number_wordBytes hlt]
  congr 1
  refine ext_getElem (by simp [wordBytes]) fun b hb _ => ?_
  have hb4 : b < 4 := by simpa using hb
  have hbyte := h.words (4 * w + b) (by omega)
  rw [ustackBytes, getD_flatMap_wordBytes _ _ _ hb4] at hbyte
  simp only [getElem_map, getElem_range]
  rw [Nat.add_assoc, hbyte]
  simp [wordBytes, getD_eq_getElem?_getD, hb4]

theorem Pushed.esp_add (h : Pushed d read sz argv) (hsz : sz ≤ KERNBASE) :
    espOf sz argv + 4 * (4 + argv.length) = stringsEnd sz argv ∧ stringsEnd sz argv ≤ sz := by
  have hroom := h.room
  have hend := h.strings.end_le
  refine ⟨?_, hend⟩
  rw [espOf, ustackAddr, stringAddrs_length] at hroom ⊢
  simp only [sub32, u32, KERNBASE] at *
  omega

theorem Pushed.congr {read' : Nat → UInt8} (h : Pushed d read sz argv) (hsz : sz ≤ KERNBASE)
    (hread : ∀ a < sz, read' a = read a) : Pushed d read' sz argv := by
  obtain ⟨hesp, hend⟩ := h.esp_add hsz
  refine ⟨h.strings.congr (fun _ => rfl) fun a _ ha => hread a ha, h.room, h.user, fun k hk => ?_⟩
  rw [hread _ (by omega)]
  exact h.words k hk

theorem Pushed.argBlock (h : Pushed d read sz argv) (ht : StackTop d sz) (hsz : sz ≤ KERNBASE) :
    ArgBlock read sz (espOf sz argv) argv (stringAddrs sz argv) := by
  obtain ⟨hesp, hend⟩ := h.esp_add hsz
  have hsz4 : sz % 4 = 0 := by
    have := ht.aligned
    simp only [PGSIZE] at this
    omega
  obtain ⟨habove, hal⟩ := h.strings.above ht hsz (Nat.sub_le _ _) (Nat.le_refl _) hsz4
  have hinside : sz - PGSIZE ≤ espOf sz argv :=
    ht.above hsz h.user (by omega) (Nat.le_of_eq hesp) (by omega) habove hend
  have hlen := stringAddrs_length argv sz
  have hword := fun {w : Nat} => h.wordAt (w := w)
  have hptrs : ∀ j < argv.length, (ustackWords (stringsEnd sz argv) (stringAddrs sz argv)).getD (3 + j) 0 =
      (stringAddrs sz argv).getD j 0 := by
    intro j hj
    rw [Nat.add_comm]
    simp [ustackWords, getD_eq_getElem?_getD, List.getElem?_append_left (show j < (stringAddrs sz argv).length by omega)]
  have hnull : (ustackWords (stringsEnd sz argv) (stringAddrs sz argv)).getD (3 + argv.length) 0 = 0 := by
    rw [Nat.add_comm]
    simp [ustackWords, getD_eq_getElem?_getD, ← hlen]
  have hk : KERNBASE = 0x80000000 := rfl
  refine ⟨?_, ?_, ?_, hlen, fun j hj => ?_, ?_, fun j hj => (h.strings.get hj).1,
    ⟨by omega, fun j hj => (h.strings.get hj).2.1⟩, ⟨hinside, fun j hj => (h.strings.get hj).2.2.1⟩,
    fun j hj => ?_, fun j l hjl hl => (h.strings.get (by omega)).2.2.2.2 l hjl hl⟩
  · exact hword (w := 0) (by omega) (by simp [ustackWords])
  · have := hword (w := 1) (by omega) (by simp [ustackWords, hlen]; omega)
    simpa [ustackWords, hlen] using this
  · have hvec : sub32 (stringsEnd sz argv) (((stringAddrs sz argv).length + 1) * 4) = espOf sz argv + 12 := by
      rw [hlen]
      simp only [sub32, u32, KERNBASE] at *
      omega
    have := hword (w := 2) (by omega) (by simp only [ustackWords]; simp [hvec]; omega)
    simpa [ustackWords, hvec] using this
  · have hb := (h.strings.get hj).2.2.1
    have := hword (w := 3 + j) (by omega) (by rw [hptrs j hj]; omega)
    rw [hptrs j hj] at this
    rw [← this]
    congr 1
    omega
  · have := hword (w := 3 + argv.length) (by omega) (by rw [hnull]; decide)
    rw [hnull] at this
    rw [← this]
    congr 1
    omega
  · rw [hesp]
    exact (h.strings.get hj).2.2.2.1

/-! ## The whole call -/

/-- The calls made by the time the arguments are copied. -/
def fsDone (k : Caller) (ph : Phys) : Caller :=
  { k with
    mach := { k.mach with phys := ph }
    calls := k.calls ++ [.begin_op] ++ [.namei] ++ [.ilock] ++ [.iunlockput] ++ [.end_op] }

theorem execCall_of_load {ip : List UInt8} {k : Caller} {ph0 ph : Phys} {d0 : PgDir} {sz0 : Nat} (i : Fin NPROC)
    (path : List UInt8) (argv : List (List UInt8))
    (hf : loadFileBy loaduvm ld ip k.mach.phys = .ok (some (d0, some sz0), ph0))
    (hs : stackPages ld d0 sz0 ph0 = .ok ((d, some sz), ph)) :
    execCall ld i path (some ip) argv k = execArgs ld i path ip argv d sz (fsDone k ph) := by
  have hf' := onMach_of_ok (k := { k with calls := k.calls ++ [.begin_op] ++ [.namei] ++ [.ilock] })
    (onPhys_of_ok hf)
  have hs' := onMach_of_ok (k := fsDone k ph0) (onPhys_of_ok hs)
  unfold execCall
  rw [bind_fsCall]
  dsimp only
  rw [bind_fsCall, bind_fsCall, bind_of_ok hf']
  dsimp only
  rw [bind_fsCall, bind_fsCall]
  exact (bind_of_ok hs').trans rfl

theorem load_of_execCall {path : List UInt8} {ip : Option (List UInt8)} {k k' : Caller}
    (h : execCall ld i path ip argv k = .ok (true, k')) :
    ∃ f d0 sz0 ph0 d sz ph, ip = some f ∧
      loadFileBy loaduvm ld f k.mach.phys = .ok (some (d0, some sz0), ph0) ∧
      stackPages ld d0 sz0 ph0 = .ok ((d, some sz), ph) := by
  unfold execCall at h
  rw [bind_fsCall] at h
  cases ip with
  | none => cases (Prod.mk.inj (Except.ok.inj h)).1
  | some f =>
    dsimp only at h
    rw [bind_fsCall, bind_fsCall] at h
    obtain ⟨r, k1, hload, h⟩ := bind_ok h
    obtain ⟨m1, hm, rfl⟩ := zoom_ok hload
    obtain ⟨ph0, hf, hph⟩ := zoom_ok hm
    cases r with
    | none => cases bad_false h
    | some x =>
    obtain ⟨d0, o⟩ := x
    cases o with
    | none => cases bad_false h
    | some sz0 =>
    dsimp only at h
    rw [bind_fsCall, bind_fsCall] at h
    obtain ⟨r2, k2, hst, h⟩ := bind_ok h
    obtain ⟨m2, hm2, rfl⟩ := zoom_ok hst
    obtain ⟨ph, hs, -⟩ := zoom_ok hm2
    obtain ⟨d, o⟩ := r2
    cases o with
    | none => cases bad_false h
    | some sz =>
      dsimp only at hph
      subst hph
      exact ⟨f, d0, sz0, ph0, d, sz, ph, rfl, hf, hs⟩

theorem loadImage_of_parts {ip : List UInt8} {s ph0 ph : Phys} {d0 : PgDir} {sz0 : Nat}
    (hf : loadFileBy loaduvm ld ip s = .ok (some (d0, some sz0), ph0))
    (hs : stackPages ld d0 sz0 ph0 = .ok ((d, some sz), ph)) :
    loadImage ld ip s = .ok (some (d, some sz), ph) := by
  rw [← loadImageBy_loaduvm, loadImageBy, bind_of_ok hf]
  dsimp only
  rw [bind_of_ok hs]
  rfl

theorem parts_of_loadImage {ip : List UInt8} {s ph : Phys} (h : loadImage ld ip s = .ok (some (d, some sz), ph)) :
    ∃ d0 sz0 ph0, loadFileBy loaduvm ld ip s = .ok (some (d0, some sz0), ph0) ∧
      stackPages ld d0 sz0 ph0 = .ok ((d, some sz), ph) := by
  rw [← loadImageBy_loaduvm] at h
  obtain ⟨r, ph0, hf, h⟩ := bind_ok h
  cases r with
  | none => cases (Prod.mk.inj (Except.ok.inj h)).1
  | some x =>
  obtain ⟨d0, o⟩ := x
  cases o with
  | none => cases (Prod.mk.inj (Except.ok.inj h)).1
  | some sz0 =>
    obtain ⟨r2, ph1, hs, h⟩ := bind_ok h
    obtain ⟨hr, rfl⟩ := Prod.mk.inj (Except.ok.inj h)
    obtain rfl := Option.some.inj hr
    exact ⟨d0, sz0, ph0, hf, hs⟩

theorem Building.byte_commit {ph : Phys} {a : Nat} (h : Building ld m d sz) (hp : m.proc i = some p)
    (hf : freevm ld p.pgdir m.phys = .ok ((), ph)) (ha : a < sz) : Phys.byte ph d a = Phys.byte m.phys d a := by
  have hle := h.image.sz_le
  have hpr := h.image.full a (Nat.lt_of_le_of_lt (Nat.div_mul_le_self a PGSIZE) ha)
  have hpos := PgDir.userRefs_pos hpr (by omega)
  unfold Phys.byte
  rw [(acct_freevm (acct_old h.acct hp) hf).2 _ (by simp only [Pi.add_apply]; omega)]

/-- The process in slot `i` runs the image `d` of `sz` bytes that `ph` holds, with the arguments `argv` in
its stack page. -/
def Runs (i : Fin NPROC) (d : PgDir) (sz : Nat) (ph : Phys) (argv : List (List UInt8)) (k : Caller) : Prop :=
  ∃ p ptrs, k.mach.proc i = some p ∧ p.sz = sz ∧ (∀ a, p.pgdir.get a = d.get a) ∧
    (∀ a, sz - PGSIZE ≤ a → a < sz → p.Maps a) ∧
    ArgBlock (Phys.byte k.mach.phys p.pgdir) sz k.esp argv ptrs ∧
    ∀ a < sz - PGSIZE, Phys.byte k.mach.phys p.pgdir a = Phys.byte ph d a

theorem short_of_size {arg : List UInt8} {argv : List (List UInt8)} (h : arg ∈ argv) :
    arg.length + 1 ≤ stringsSize argv := by
  induction argv with
  | nil => cases h
  | cons arg' argv ih =>
    rw [stringsSize]
    rcases mem_cons.mp h with rfl | h
    · omega
    · have := ih h
      omega

theorem execArgs_runs {k : Caller} {ph : Phys} (path ip : List UInt8) (h : Inv ld m) (hp : m.proc i = some p)
    (hk : k.mach = { m with phys := ph }) (hl : Loaded ld (Managed ld) m.own m.shared m.phys (d, some sz) ph)
    (ht : StackTop d sz) (hshort : ∀ arg ∈ argv, arg.length + 4 ≤ 0x2000000) (hargc : argv.length < MAXARG) :
    ∃ r k', execArgs ld i path ip argv d sz k = .ok (r, k') ∧ (r = true → Runs i d sz ph argv k') ∧
      (stringsSize argv + 4 * (4 + argv.length) ≤ PGSIZE → r = true) := by
  have hb : Building ld k.mach d sz := by
    rw [hk]
    exact ⟨hl.acct, h.wf, h.excl, ⟨i, p, hp⟩, hl.of_image⟩
  have hsz := hl.of_image.sz_le
  obtain ⟨d1, ok, m1, -, hpush, hst, hdone, hfits⟩ := pushStack_spec i hb hshort
  have hget := hst.written.maps.image
  rw [execArgs_eq hpush]
  cases ok with
  | false =>
    obtain ⟨ph2, hf⟩ := freevm_total (fun _ hq => hq) hst.building.acct
    rw [if_neg (by decide)]
    refine ⟨false, { k with mach := { m1 with phys := ph2 } }, ?_, nofun, fun hfit => ?_⟩
    · unfold bad
      exact (bind_of_ok (onMach_of_ok (k := { k with mach := m1 }) (onPhys_of_ok hf))).trans rfl
    · have hroom := ht.room
      have haligned := ht.aligned
      refine hfits (sz - PGSIZE) (fun a ha => ?_) (by simp only [PGSIZE] at *; omega)
        (by simp only [PGSIZE] at *; omega) (Nat.le_of_lt hargc)
      rw [u32_of_lt (by simp only [KERNBASE] at hsz; omega)]
      exact ht.stack _ (by omega) (by simp only [PGSIZE] at *; omega)
  | true =>
    obtain ⟨hpushed, hout⟩ := hdone rfl
    have hslot := hst.written.rest.slot i (by simp)
    rw [hk] at hslot
    change SameSlot (m.proc i) (m1.proc i) at hslot
    rw [hp] at hslot
    cases hp1 : m1.proc i with
    | none => rw [hp1] at hslot; exact hslot.elim
    | some p1 =>
      obtain ⟨ph2, hf⟩ := freevm_total (fun _ hq => hq) (acct_old hst.building.acct hp1)
      have hbytes : ∀ a < sz, Phys.byte ph2 d1 a = Phys.byte m1.phys d1 a :=
        fun a ha => hst.building.byte_commit hp1 hf ha
      have hcommit := commitImage_of_ok d1 sz hp1 hf
      rw [if_pos rfl]
      refine ⟨true, _, onMach_of_ok hcommit, fun _ => ?_, fun _ => rfl⟩
      refine ⟨{ p1 with pgdir := d1, sz := sz }, stringAddrs sz argv, ?_, rfl, hget, fun a h1 h2 => ?_, ?_, ?_⟩
      · exact Function.update_self i _ m1.proc
      · obtain ⟨h3, h4⟩ := ht.stack a h1 h2
        rw [← hget] at h3 h4
        exact ⟨h2, h3, h4⟩
      · exact (hpushed.congr hsz hbytes).argBlock ht hsz
      · intro a ha
        have hblock := (hpushed.argBlock ht hsz).inside.1
        change Phys.byte ph2 d1 a = _
        rw [hbytes a (by omega), hout a (by omega) (by omega), hk]

end Xv6.Sys
