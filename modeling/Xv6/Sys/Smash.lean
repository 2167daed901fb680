import Xv6.Sys.ExecCall
import Xv6.Vm.Blind

/-!
# A string that rewrites the new page table

A process that knows which pages `exec` will take prepares a string whose words are page table
entries. The copy of the string starts where the new image has no table. With the fake entry at
address 0 its first page goes to the first table of device memory, and every later page goes where
the string itself says.
-/

open Xv6.Cmd Xv6.Pool Xv6.Run Xv6.Vm Function List

namespace Xv6.Sys

variable {ld : Linker} {d d' : PgDir} {m m' : Machine} {i : Fin NPROC} {p : Proc} {s s' : Phys}

/-! ## Which pages the next `exec` takes -/

theorem freerange_freelist {ps : List Nat} (hps : ∀ p ∈ ps, Managed ld p)
    (h : freerange ld ps s = .ok ((), s')) : s'.freelist = ps.reverse ++ s.freelist := by
  induction ps generalizing s with
  | nil =>
    obtain ⟨-, rfl⟩ := Prod.mk.inj (pure_ok h)
    rfl
  | cons p ps ih =>
    rw [freerange_cons (hps p (by simp))] at h
    rw [ih (fun q hq => hps q (by simp [hq])) h, reverse_cons, append_assoc]
    rfl

theorem boot_freelist {c : Nat} {mem : Nat → Page} (h : boot demoLinker c mem = .ok m) :
    ∃ rest, m.phys.freelist = (List.range' 0x400 0xdc00).reverse ++ rest := by
  obtain ⟨s1, s2, s3, -, -, -, h4⟩ := bootMain_ok (boot_ok h).1
  exact ⟨s3.freelist, freerange_freelist (fun p hp => ((mem_high (by decide) p).mp hp).1) h4⟩

theorem userinit_took {init : List UInt8} {u : Unit} (h : userinit ld init m = .ok (u, m')) :
    ∃ t, m.phys.freelist = t ++ m'.phys.freelist ∧ t.length ≤ 1091 := by
  obtain ⟨j, kstack, ph1, d, ph2, d', ph3, -, hk, hs, hi, rfl⟩ := userinit_cases h
  obtain ⟨q, s1, ok, s2, hq, hm, rfl⟩ := inituvm_cases hi
  obtain ⟨t, ht, hlen⟩ := setupkvm_took hs
  obtain ⟨t2, ht2, hn, -⟩ := map_took (by decide) hm
  have hcount := hn.count
  have hgaps := gaps_le d
  simp only [NPDENTRIES] at hgaps
  refine ⟨[kstack] ++ (d.page :: t) ++ ([q] ++ t2), ?_, ?_⟩
  · have h1 := (took_kalloc hk).free
    have h2 := ht.free
    have h3 := ((took_kalloc hq).trans ht2).free
    rw [append_assoc]
    change m.phys.freelist = [kstack] ++ ((d.page :: t) ++ (([q] ++ t2) ++ s2.freelist))
    rw [h1, ← h3, ← h2]
    rfl
  · simp only [length_append, length_cons, length_nil]
    omega

/-- The page numbers whose bytes, in an entry, are not 0. -/
def NoZero (q : Nat) : Prop := 0xb010 ≤ q ∧ q < 0xc000

theorem noZero_of_taken {l0 t l rest : List Nat}
    (hl : (List.range' 0x400 0xdc00).reverse ++ rest = l0 ++ (t ++ l)) (h1 : 8195 ≤ l0.length)
    (h2 : l0.length + t.length ≤ 12000) {q : Nat} (hq : q ∈ t) : NoZero q := by
  obtain ⟨j, hj, rfl⟩ := mem_iff_getElem.mp hq
  have hlen : ((List.range' 0x400 0xdc00).reverse).length = 0xdc00 := by simp
  have hget : ((List.range' 0x400 0xdc00).reverse ++ rest)[l0.length + j]? = some t[j] := by
    rw [hl, List.getElem?_append_right (by omega), Nat.add_sub_cancel_left, List.getElem?_append_left hj,
      List.getElem?_eq_getElem hj]
  rw [List.getElem?_append_left (by rw [hlen]; omega), List.getElem?_reverse (by simp; omega)] at hget
  rw [List.getElem?_range' (by simp; omega)] at hget
  have := Option.some.inj hget
  simp at this
  unfold NoZero
  omega

/-! ## The words of the string -/

/-- The directory entries in the order in which their tables are overwritten: device memory, where the
table of the local APIC is the third, and then the user's first one. -/
def smashTab : Nat → Nat
  | 2 => 1019
  | 3 => 1018
  | 8 => 0
  | n => 1016 + n

/-- Where the pages of the string go: the first eight to the other tables `T 1` to `T 8`, the rest to `S`. -/
def smashFrame (T : Nat → Nat) (S e : Nat) : Nat := if e < 8 then T (e + 1) else S

/-- An entry with all permissions and a bit that the hardware ignores. -/
def smashWord (T : Nat → Nat) (S e : Nat) : Nat := smashFrame T S e * 0x1000 + 0x107

def smashByte (T : Nat → Nat) (S o : Nat) : UInt8 := UInt8.ofNat (smashWord T S (o / 4) / 256 ^ (o % 4))

/-- The last page of the string maps the local APIC again. -/
def lastByte (T : Nat → Nat) (S o : Nat) : UInt8 :=
  if o / 4 = 512 then UInt8.ofNat (0xfee0011b / 256 ^ (o % 4)) else smashByte T S o

/-- The byte `o` of the string. -/
def smashAt (T : Nat → Nat) (S o : Nat) : UInt8 :=
  if o < 0x2002000 then smashByte T S (o % 4096) else lastByte T S (o - 0x2002000)

def smashLen : Nat := 0x2002fff

def smashArg (T : Nat → Nat) (S : Nat) : List UInt8 := (List.range smashLen).map (smashAt T S)

section Words

variable {T : Nat → Nat} {S : Nat}

theorem ka_smashWord (e : Nat) : Pte.ka (Pte.ofWord (smashWord T S e)) = some (smashFrame T S e) := by
  have h1 : smashWord T S e % 2 = 1 := by unfold smashWord; omega
  have h2 : smashWord T S e / 4 % 2 = 1 := by unfold smashWord; omega
  have h3 : smashWord T S e / 0x1000 = smashFrame T S e := by unfold smashWord; omega
  simp [Pte.ka, Pte.ofWord, h1, h2, h3]

theorem smashFrame_noZero (hT : ∀ n < 9, NoZero (T n)) (hS : NoZero S) (e : Nat) : NoZero (smashFrame T S e) := by
  unfold smashFrame
  split
  · exact hT _ (by omega)
  · exact hS

theorem ofNat_ne_zero {n : Nat} (h : n % 256 ≠ 0) : UInt8.ofNat n ≠ 0 := by
  intro hc
  have := congrArg UInt8.toNat hc
  simp at this
  omega

theorem smashByte_ne_zero (hT : ∀ n < 9, NoZero (T n)) (hS : NoZero S) (o : Nat) : smashByte T S o ≠ 0 := by
  obtain ⟨h1, h2⟩ := smashFrame_noZero hT hS (o / 4)
  refine ofNat_ne_zero ?_
  unfold smashWord
  have : o % 4 = 0 ∨ o % 4 = 1 ∨ o % 4 = 2 ∨ o % 4 = 3 := by omega
  rcases this with h | h | h | h <;> rw [h] <;> omega

theorem smashAt_ne_zero (hT : ∀ n < 9, NoZero (T n)) (hS : NoZero S) (o : Nat) : smashAt T S o ≠ 0 := by
  unfold smashAt lastByte
  split
  · exact smashByte_ne_zero hT hS _
  · split
    · refine ofNat_ne_zero ?_
      have : (o - 0x2002000) % 4 = 0 ∨ (o - 0x2002000) % 4 = 1 ∨ (o - 0x2002000) % 4 = 2 ∨
        (o - 0x2002000) % 4 = 3 := by omega
      rcases this with h | h | h | h <;> rw [h] <;> decide
    · exact smashByte_ne_zero hT hS _

/-- A page of the string. -/
def smashPage (T : Nat → Nat) (S : Nat) : List UInt8 := (List.range 4096).map (smashByte T S)

/-- The string from its page `k` on, with the NUL. -/
def smashFrom (T : Nat → Nat) (S k : Nat) : List UInt8 :=
  (List.range (smashLen - 4096 * k)).map (fun o => smashAt T S (4096 * k + o)) ++ [0]

theorem smashFrom_zero : smashFrom T S 0 = smashArg T S ++ [0] := by
  simp [smashFrom, smashArg]

theorem smashFrom_length {k : Nat} (hk : k ≤ 8194) : (smashFrom T S k).length = 0x2003000 - 4096 * k := by
  simp [smashFrom, smashLen]
  omega

theorem smashFrom_take {k : Nat} (hk : k < 8194) : (smashFrom T S k).take 4096 = smashPage T S := by
  have hle : 4096 ≤ smashLen - 4096 * k := by
    unfold smashLen
    omega
  rw [smashFrom, take_append_of_le_length (by simpa using hle), ← map_take, take_range,
    Nat.min_eq_left hle]
  refine map_congr_left fun o ho => ?_
  have := mem_range.mp ho
  rw [smashAt, if_pos (by omega), Nat.mul_add_mod, Nat.mod_eq_of_lt this]

theorem smashFrom_drop {k : Nat} (hk : k < 8194) : (smashFrom T S k).drop 4096 = smashFrom T S (k + 1) := by
  have hle : 4096 ≤ smashLen - 4096 * k := by
    unfold smashLen
    omega
  rw [smashFrom, drop_append_of_le_length (by simpa using hle), smashFrom]
  refine congrArg (· ++ [0]) (ext_getElem ?_ fun o h1 h2 => ?_)
  · rw [length_drop, length_map, length_map, length_range, length_range]
    omega
  · simp only [getElem_drop, getElem_map, getElem_range]
    rw [Nat.mul_succ, Nat.add_assoc]

theorem pokeEntry_smash {j : Nat} (hj : j < 1024) (hlt : smashWord T S j < 0x100000000) (e : Pte) :
    pokeEntry j 0 (smashPage T S) e = Pte.ofWord (smashWord T S j) := by
  have hlen : (smashPage T S).length = 4096 := by simp [smashPage]
  unfold pokeEntry
  rw [if_pos (by rw [hlen]; omega)]
  dsimp only
  rw [← number_wordBytes hlt]
  refine congrArg (fun l => Pte.ofWord (number l 0 4)) (map_congr_left fun b hb => ?_)
  have hb4 := mem_range.mp hb
  rw [writeBytes, if_pos (by rw [hlen]; omega), Nat.sub_zero, getD_eq_getElem?_getD, smashPage,
    List.getElem?_map, List.getElem?_range (by omega)]
  have h1 : (4 * j + b) / 4 = j := by omega
  have h2 : (4 * j + b) % 4 = b := by omega
  simp [smashByte, h1, h2]

end Words

/-! ## The copy -/

/-- The new image `d` has the tables `T n` and the stack page `S`. -/
structure Frames (d : PgDir) (T : Nat → Nat) (S : Nat) : Prop where
  tab : ∀ n < 9, 0 < d.kernRefs (T n) ∧ T n ≠ d.page
  inj : ∀ n < 9, ∀ l < 9, T n = T l → n = l
  stack : 0 < d.userRefs S

/-- One of the pages that the copy writes to. -/
def Target (T : Nat → Nat) (S q : Nat) : Prop := (∃ n < 9, q = T n) ∨ q = S

/-- The machine and the page table `d` during the copy. It was `d0` before, and the first `k` of the tables
have been overwritten. -/
structure Smashed (ld : Linker) (i : Fin NPROC) (d0 : PgDir) (T : Nat → Nat) (S k : Nat) (m : Machine)
    (d : PgDir) : Prop where
  acct : Acct (Managed ld) m.phys (d0.kernRefs + m.own) (d0.userRefs + m.shared)
  page : d.page = d0.page
  alone : m.shared S = 0
  fake : ∃ p, m.proc i = some p ∧ (p.pgdir.get 0).present = true ∧
    (List.range 4).map (m.phys.mem (p.pgdir.get 0).ppn) = wordBytes (T 0 * 0x1000 + 5)
  gap : d.tab 1015 = none
  tab : ∀ n < 9, ∃ t, d.tab (smashTab n) = some t ∧ t.page = T n ∧
    (n < k → ∀ e < 1024, t.entry e = Pte.ofWord (smashWord T S e))

section Copy

variable {T : Nat → Nat} {S k q off : Nat} {d0 : PgDir} {bs : List UInt8}

theorem Smashed.target (h : Smashed ld i d0 T S k m d) (hf : Frames d0 T S) (hq : Target T S q) :
    ¬ m.KernelData ld d q ∧ m.own q = 0 ∧ m.shared q = 0 := by
  have hex := h.acct.excl q
  have hone := h.acct.single q
  have hdom := h.acct.inDom q
  have hmem := h.acct.mem q
  simp only [Pi.add_apply] at hex hone hdom hmem
  have hpos : 0 < d0.kernRefs q ∧ q ≠ d0.page ∨ 0 < d0.userRefs q ∧ m.shared q = 0 := by
    rcases hq with ⟨n, hn, rfl⟩ | rfl
    · exact .inl (hf.tab n hn)
    · exact .inr ⟨hf.stack, h.alone⟩
  have hd : q ≠ d0.page := by
    rcases hpos with ⟨-, hd⟩ | ⟨hu, -⟩
    · exact hd
    · intro hc
      have := (kernRefs_pos_iff d0 q).mpr (.inl hc.symm)
      omega
  have hown : m.own q = 0 := by omega
  refine ⟨not_kernelData (hdom (by omega)) (fun hc => ?_) hown (h.page ▸ hd), hown, by omega⟩
  have := (hmem.mp hc).2
  omega

theorem Smashed.poked {k' : Nat} (h : Smashed ld i d0 T S k m d) (hf : Frames d0 T S) (hq : Target T S q)
    (hent : ∀ n < 9, n < k' → ∀ t : PgTab, t.page = T n →
      (n < k → ∀ e < 1024, t.entry e = Pte.ofWord (smashWord T S e)) → ∀ e < 1024,
      (if t.page = q then pokeEntry e off bs (t.entry e) else t.entry e) =
        Pte.ofWord (smashWord T S e)) :
    Smashed ld i d0 T S k' (m.poked q off bs) (pokeDir q off bs d) := by
  obtain ⟨-, hown, hsh⟩ := h.target hf hq
  refine ⟨?_, h.page, ?_, ?_, ?_, fun n hn => ?_⟩
  · exact acct_setMem (h.acct.congr (fun r => by simp only [Pi.add_apply, poked_own hown])
      fun r => by simp only [Pi.add_apply, poked_shared hown]) _
  · rw [poked_shared hown]
    exact h.alone
  · obtain ⟨p, hp, hpres, hword⟩ := h.fake
    have hsame := (poked_proc off bs hown i).2 p hp
    refine ⟨{ p with pgdir := pokeDir q off bs p.pgdir }, ?_, ?_, ?_⟩
    · change (m.proc i).map _ = _
      rw [hp]
      rfl
    · rw [hsame.get]
      exact hpres
    · have hne : (p.pgdir.get 0).ppn ≠ q := by
        rintro rfl
        have := shared_pos hp (by decide) hpres
        omega
      rw [← hword]
      refine map_congr_left fun a _ => ?_
      change update m.phys.mem q _ ((pokeDir q off bs p.pgdir).get 0).ppn a = _
      rw [hsame.get, update_of_ne hne]
  · change (d.tab 1015).map _ = none
    rw [h.gap]
    rfl
  · obtain ⟨t, ht, hpage, hw⟩ := h.tab n hn
    refine ⟨if t.page = q then { t with entry := fun j => pokeEntry j off bs (t.entry j) } else t, ?_, ?_,
      fun hk e he => ?_⟩
    · change (d.tab _).map _ = _
      rw [ht]
      rfl
    · split <;> exact hpage
    · rw [← hent n hn hk t hpage hw e he]
      split <;> rfl

theorem Smashed.poke_runs (h : Smashed ld i d0 T S k m d) (hf : Frames d0 T S) (hq : Target T S q) :
    poke ld d q off bs m = .ok (pokeDir q off bs d, m.poked q off bs) := by
  unfold poke
  rw [if_neg (h.target hf hq).1]
  rfl

theorem Smashed.next (h : Smashed ld i d0 T S k m d) (hf : Frames d0 T S) (hq : Target T S q)
    (hlt : ∀ e, smashWord T S e < 0x100000000) (hk : k < 9 → q = T k) :
    Smashed ld i d0 T S (k + 1) (m.poked q 0 (smashPage T S)) (pokeDir q 0 (smashPage T S) d) := by
  refine h.poked hf hq fun n hn hnk t hpage hw e he => ?_
  split
  · exact pokeEntry_smash he (hlt e) _
  · next hne =>
    refine hw ?_ e he
    by_contra hc
    obtain rfl : n = k := by omega
    exact hne (hpage.trans (hk hn).symm)

/-- Where the page `k` of the string starts. -/
def smashAddr (k : Nat) : Nat := u32 (0xfdfff000 + 4096 * k)

/-- The page that it overwrites. -/
def smashTarget (T : Nat → Nat) (S : Nat) : Nat → Nat
  | 0 => T 0
  | k + 1 => smashFrame T S (k % 1024)

theorem smashTarget_target (k : Nat) : Target T S (smashTarget T S k) := by
  cases k with
  | zero => exact .inl ⟨0, by decide, rfl⟩
  | succ k =>
    by_cases hk : k % 1024 < 8
    · exact .inl ⟨k % 1024 + 1, by omega, if_pos hk⟩
    · exact .inr (if_neg hk)

theorem smashTarget_small (hk : k < 9) : smashTarget T S k = T k := by
  cases k with
  | zero => rfl
  | succ k => rw [smashTarget, smashFrame, Nat.mod_eq_of_lt (by omega), if_pos (by omega)]

theorem exists_smashTab {k : Nat} (hk : k < 8194) :
    ∃ n < 9, n < k + 1 ∧ pdx (smashAddr (k + 1)) = smashTab n ∧ ptx (smashAddr (k + 1)) = k % 1024 := by
  have hptx : ptx (smashAddr (k + 1)) = k % 1024 := by
    simp only [ptx, smashAddr, u32]
    omega
  have hpdx : pdx (smashAddr (k + 1)) = (1016 + k / 1024) % 1024 := by
    simp only [pdx, smashAddr, u32]
    omega
  have hb : k / 1024 < 9 := by omega
  by_cases h2 : k / 1024 = 2
  · exact ⟨3, by decide, by omega, by rw [hpdx, h2]; rfl, hptx⟩
  by_cases h3 : k / 1024 = 3
  · exact ⟨2, by decide, by omega, by rw [hpdx, h3]; rfl, hptx⟩
  refine ⟨k / 1024, hb, by omega, ?_, hptx⟩
  rw [hpdx]
  by_cases h8 : k / 1024 = 8
  · rw [h8]
    rfl
  · rw [smashTab]
    · omega
    all_goals omega

theorem Smashed.uva2ka_gap (h : Smashed ld i d0 T S k m d) (hT : T 0 < 0x100000) {uva : Nat}
    (hpdx : pdx uva = 1015) : uva2ka i d uva m = .ok (some (T 0), m) := by
  obtain ⟨p, hp, hpres, hword⟩ := h.fake
  exact uva2ka_fake (by rw [hpdx]; exact h.gap) hp hpres hT hword

theorem Smashed.look (h : Smashed ld i d0 T S k m d) (hT : T 0 < 0x100000) (hk : k ≤ 8194) :
    uva2ka i d (smashAddr k) m = .ok (some (smashTarget T S k), m) := by
  cases k with
  | zero => exact h.uva2ka_gap hT (by decide)
  | succ k =>
    obtain ⟨n, hn, hnk, hpdx, hptx⟩ := exists_smashTab (k := k) (by omega)
    obtain ⟨t, ht, -, hw⟩ := h.tab n hn
    rw [← hpdx] at ht
    have hget : d.get (smashAddr (k + 1)) = Pte.ofWord (smashWord T S (k % 1024)) := by
      rw [← hw hnk _ (Nat.mod_lt _ (by decide)), ← hptx]
      simp only [PgDir.get, ht]
    rw [uva2ka_of_tab (show (d.tab (pdx (smashAddr (k + 1)))).isSome = true by rw [ht]; rfl), hget, ka_smashWord]
    rfl

theorem smashAddr_next (k : Nat) : pgrounddown (smashAddr k) = smashAddr k ∧
    u32 (smashAddr k + PGSIZE) = smashAddr (k + 1) := by
  simp only [pgrounddown, smashAddr, u32, PGSIZE]
  omega

theorem copyLoop_page {n va q : Nat} {buf : List UInt8} (hva : pgrounddown va = va) (hlen : PGSIZE ≤ buf.length)
    (hlook : uva2ka i d va m = .ok (some q, m)) (hpoke : poke ld d q 0 (buf.take PGSIZE) m = .ok (d', m')) :
    copyLoop ld i (n + 1) d va buf m = copyLoop ld i n d' (u32 (va + PGSIZE)) (buf.drop PGSIZE) m' := by
  have hpos : 0 < PGSIZE := by decide
  rw [copyLoop, if_neg (by omega), hva, bind_of_ok hlook]
  dsimp only
  rw [Nat.sub_self, Nat.sub_zero, if_neg (by omega), bind_of_ok hpoke]

theorem Smashed.round (h : Smashed ld i d0 T S k m d) (hf : Frames d0 T S) (hT : T 0 < 0x100000) (hk : k ≤ 8194)
    (n : Nat) :
    copyLoop ld i (n + 1) d (smashAddr k) (smashFrom T S k) m =
      copyLoop ld i n (pokeDir (smashTarget T S k) 0 ((smashFrom T S k).take PGSIZE) d) (smashAddr (k + 1))
        ((smashFrom T S k).drop PGSIZE) (m.poked (smashTarget T S k) 0 ((smashFrom T S k).take PGSIZE)) := by
  obtain ⟨haddr, hnext⟩ := smashAddr_next k
  have hlen : PGSIZE ≤ (smashFrom T S k).length := by
    rw [smashFrom_length hk, PGSIZE]
    omega
  rw [copyLoop_page haddr hlen (h.look hT hk) (h.poke_runs hf (smashTarget_target k)), hnext]

theorem Smashed.wrote (h : Smashed ld i d0 T S k m d) (hf : Frames d0 T S) (hq : Target T S q) (off : Nat)
    (bs : List UInt8) : Smashed ld i d0 T S 0 (m.poked q off bs) (pokeDir q off bs d) :=
  h.poked hf hq fun n _ hc => absurd hc (Nat.not_lt_zero n)

theorem Smashed.copyLoop_runs {j n : Nat} (hf : Frames d0 T S) (hlt : ∀ e, smashWord T S e < 0x100000000)
    (hT : T 0 < 0x100000) (h : Smashed ld i d0 T S k m d) (hk : k + j = 8194) (hn : j < n) :
    ∃ d' m', copyLoop ld i n d (smashAddr k) (smashFrom T S k) m = .ok ((d', true), m') ∧
      Smashed ld i d0 T S 0 m' d' := by
  induction j generalizing k m d n with
  | zero =>
    obtain ⟨n, rfl⟩ : ∃ n', n = n' + 1 := ⟨n - 1, by omega⟩
    have hend : (smashFrom T S k).drop PGSIZE = [] := by
      refine drop_eq_nil_of_le ?_
      rw [smashFrom_length (by omega), PGSIZE]
      omega
    rw [h.round hf hT (by omega), hend]
    refine ⟨_, _, ?_, h.wrote hf (smashTarget_target k) 0 ((smashFrom T S k).take PGSIZE)⟩
    cases n with
    | zero => rfl
    | succ n => rfl
  | succ j ih =>
    obtain ⟨n, rfl⟩ : ∃ n', n = n' + 1 := ⟨n - 1, by omega⟩
    rw [h.round hf hT (by omega), PGSIZE, smashFrom_take (by omega), smashFrom_drop (by omega)]
    exact ih (h.next hf (smashTarget_target k) hlt smashTarget_small) (by omega) (by omega)

/-! ## The argument phase -/

theorem smashArg_length : (smashArg T S).length = smashLen := by simp [smashArg]

theorem stringAddr_smash : stringAddr 0x2000 (smashArg T S) = smashAddr 0 := by
  rw [stringAddr, smashArg_length]
  decide

theorem espOf_smash : espOf 0x2000 [smashArg T S] = 0xfdffefec := by
  simp only [espOf, stringsEnd, stringAddrs, stringAddr_smash]
  decide

theorem Smashed.pushStack_runs (hf : Frames d0 T S) (hlt : ∀ e, smashWord T S e < 0x100000000)
    (hT : T 0 < 0x100000) (h : Smashed ld i d0 T S 0 m d) :
    ∃ d' m', pushStack ld i [smashArg T S] d 0x2000 m = .ok ((d', true), m') ∧ Smashed ld i d0 T S 0 m' d' := by
  have hlen : (smashArg T S ++ [0]).length = smashLen + 1 := by
    rw [length_append, smashArg_length, length_singleton]
  have hj : 8194 < smashLen + 1 := by decide
  obtain ⟨d1, m1, hcopy, h1⟩ := h.copyLoop_runs hf hlt hT (Nat.zero_add 8194) hj
  rw [smashFrom_zero] at hcopy
  have hout : copyout ld i d (smashAddr 0) (smashArg T S ++ [0]) m = .ok ((d1, true), m1) := by
    rw [copyout, hlen]
    exact hcopy
  have hargs : pushArgs ld i [smashArg T S] d 0x2000 [] m = .ok ((d1, some (smashAddr 0, [smashAddr 0])), m1) := by
    rw [pushArgs, if_neg (by decide),
      show sub32 0x2000 ((smashArg T S).length + 1) / 4 * 4 = smashAddr 0 from stringAddr_smash, bind_of_ok hout]
    rfl
  have hq : Target T S (T 0) := .inl ⟨0, by decide, rfl⟩
  obtain ⟨bytes, hbytes⟩ : ∃ l, l = ustackBytes 0x2000 [smashArg T S] := ⟨_, rfl⟩
  have hblen : bytes.length = 20 := by rw [hbytes, ustackBytes_length]; rfl
  have hlook := h1.uva2ka_gap hT (by decide : pdx 0xfdffe000 = 1015)
  have hustack : copyout ld i d1 0xfdffefec bytes m1 =
      .ok ((pokeDir (T 0) 0xfec bytes d1, true), m1.poked (T 0) 0xfec bytes) := by
    rw [copyout, hblen, copyLoop, hblen, if_neg (by decide),
      show pgrounddown 0xfdffefec = 0xfdffe000 from by decide, bind_of_ok hlook]
    dsimp only
    rw [show 0xfdffefec - 0xfdffe000 = 0xfec from by decide,
      show (if 20 < PGSIZE - 0xfec then 20 else PGSIZE - 0xfec) = 20 from by decide,
      take_of_length_le (by omega), drop_eq_nil_of_le (by omega), bind_of_ok (h1.poke_runs hf hq)]
    rfl
  refine ⟨_, _, ?_, h1.wrote hf hq 0xfec bytes⟩
  unfold pushStack
  rw [bind_of_ok hargs, ← hustack, hbytes]
  simp only [ustackBytes, stringsEnd, stringAddrs, stringAddr_smash]
  rfl

end Copy

/-! ## The pages of the new image -/

theorem blind_loadLoop (d : PgDir) (addr : Nat) (ip : List UInt8) (offset sz n k : Nat) :
    Blind (loadLoop d addr ip offset sz n k) := by
  induction n generalizing k with
  | zero => exact blind_ite (blind_throw _) (blind_pure _)
  | succ n ih =>
    refine blind_ite (blind_ite (blind_throw _) ?_) (blind_pure _)
    dsimp only
    cases readi ip (u32 (offset + k)) (if sz - k < PGSIZE then sz - k else PGSIZE) with
    | none => exact blind_pure _
    | some bs =>
      refine blind_bind (fun s mem a s' h => ?_) fun _ => blind_ite (ih _) (blind_pure _)
      obtain ⟨rfl, rfl⟩ := Prod.mk.inj (Except.ok.inj h)
      exact ⟨_, rfl⟩

theorem blind_loadSegs (ip : List UInt8) (n off : Nat) (d : PgDir) (sz : Nat) :
    Blind (loadSegs ld ip n off d sz) := by
  induction n generalizing off d sz with
  | zero => exact blind_pure _
  | succ n ih =>
    unfold loadSegs
    cases readFull ip off 32 with
    | none => exact blind_pure _
    | some ph =>
      refine blind_ite (ih _ _ _) (blind_ite (blind_pure _) (blind_ite (blind_pure _) ?_))
      refine blind_bind (blind_allocuvm _ _ _) fun r => blind_ite (blind_pure _) (blind_ite (blind_pure _) ?_)
      refine blind_bind ?_ fun ok => blind_ite (ih _ _ _) (blind_pure _)
      exact blind_ite (blind_throw _) (blind_loadLoop _ _ _ _ _ _ _)

theorem blind_loadImage (ip : List UInt8) : Blind (loadImage ld ip) := by
  unfold loadImage
  cases readFull ip 0 52 with
  | none => exact blind_pure _
  | some elf =>
    refine blind_ite (blind_pure _) (blind_bind blind_setupkvm fun r => ?_)
    cases r with
    | none => exact blind_pure _
    | some d =>
      refine blind_bind (blind_loadSegs _ _ _ _ _) fun x => ?_
      obtain ⟨d, o⟩ := x
      cases o with
      | none => exact blind_pure _
      | some sz =>
        refine blind_bind (blind_allocuvm _ _ _) fun y => blind_ite (blind_pure _) ?_
        exact blind_bind (blind_clearpteu _ _) fun _ => blind_pure _

/-- The page of the table `smashTab n`. -/
def tabOf (d : PgDir) (n : Nat) : Nat :=
  match d.tab (smashTab n) with
  | some t => t.page
  | none => 0

theorem Building.exists_tab (h : Building ld m d 0x2000) {n : Nat} (hn : n < 9) :
    ∃ t, d.tab (smashTab n) = some t ∧ t.page = tabOf d n := by
  have hsome : (d.tab (smashTab n)).isSome = true := by
    by_cases h8 : n = 8
    · rw [h8]
      exact h.image.tabs 0 (by decide)
    · have hdev : ∀ n < 8, DEVSPACE ≤ smashTab n * 0x400000 ∧ smashTab n * 0x400000 < 0x100000000 ∧
        pdx (smashTab n * 0x400000) = smashTab n := by decide
      obtain ⟨h1, h2, h3⟩ := hdev n (by omega)
      have htab : (d.tab (pdx (smashTab n * 0x400000))).isSome = true := (devspace_not_user h.image.kmap h1 h2).1
      rwa [h3] at htab
  obtain ⟨t, ht⟩ := Option.isSome_iff_exists.mp hsome
  exact ⟨t, ht, by rw [tabOf, ht]⟩

theorem Building.frames (h : Building ld m d 0x2000) : Frames d (tabOf d) (d.get 0x1000).ppn := by
  have hidx : ∀ n < 9, smashTab n < NPDENTRIES := by decide
  have hone : ∀ q, d.kernRefs q ≤ 1 := fun q => by
    have := h.acct.single q
    simp only [Pi.add_apply] at this
    omega
  refine ⟨fun n hn => ?_, fun n hn l hl heq => ?_, ?_⟩
  · obtain ⟨t, ht, hp⟩ := h.exists_tab hn
    rw [← hp]
    exact ⟨(kernRefs_pos_iff d _).mpr (.inr ⟨_, hidx n hn, t, ht, rfl⟩),
      (tab_unique (hone _) (hidx n hn) ht).1.symm⟩
  · obtain ⟨t, ht, hp⟩ := h.exists_tab hn
    obtain ⟨t', ht', hp'⟩ := h.exists_tab hl
    have hinj : ∀ n < 9, ∀ l < 9, smashTab n = smashTab l → n = l := by decide
    exact hinj n hn l hl ((tab_unique (hone _) (hidx l hl) ht').2 _ t (hidx n hn) ht (by rw [hp, hp', heq]))
  · exact PgDir.userRefs_pos (h.image.full 0x1000 (by decide)) (by decide)

theorem Building.smashed (h : Building ld m d 0x2000) (hgap : d.tab 1015 = none) (hp : m.proc i = some p)
    (hpres : (p.pgdir.get 0).present = true)
    (hword : (List.range 4).map (m.phys.mem (p.pgdir.get 0).ppn) = wordBytes (tabOf d 0 * 0x1000 + 5)) :
    Smashed ld i d (tabOf d) (d.get 0x1000).ppn 0 m d := by
  refine ⟨h.acct, rfl, ?_, ⟨p, hp, hpres, hword⟩, hgap, fun n hn => ?_⟩
  · exact (h.image.priv 0x1000 (by decide) (h.image.full 0x1000 (by decide))).2
  · obtain ⟨t, ht, htp⟩ := h.exists_tab hn
    exact ⟨t, ht, htp, fun hc => absurd hc (Nat.not_lt_zero n)⟩

theorem Building.taken {t : List Nat} {s : Phys} {q : Nat} (h : Building ld m d 0x2000)
    (ha : Acct (Managed ld) s m.own m.shared) (ht : s.freelist = t ++ m.phys.freelist)
    (hq : Target (tabOf d) (d.get 0x1000).ppn q) : q ∈ t := by
  have hex := h.acct.excl q
  have hone := h.acct.single q
  have hdom := h.acct.inDom q
  simp only [Pi.add_apply] at hex hone hdom
  have hf := h.frames
  have hpos : 0 < d.kernRefs q ∨ 0 < d.userRefs q ∧ m.shared q = 0 := by
    rcases hq with ⟨n, hn, rfl⟩ | rfl
    · exact .inl (hf.tab n hn).1
    · exact .inr ⟨hf.stack, (h.image.priv 0x1000 (by decide) (h.image.full 0x1000 (by decide))).2⟩
  have hfree : q ∈ s.freelist := (ha.mem q).mpr ⟨hdom (by omega), by omega⟩
  rw [ht] at hfree
  refine (mem_append.mp hfree).resolve_right fun hc => ?_
  have := ((h.acct.mem q).mp hc).2
  simp only [Pi.add_apply] at this
  omega

/-! ## The run -/

/-- What the process writes: the fake entry for the page `T 0`, and the string from address 0x1000 on. -/
def smashPayload (T : Nat → Nat) (S a : Nat) : UInt8 :=
  if a < 4 then (wordBytes (T 0 * 0x1000 + 5)).getD a 0 else if a < 0x1000 then 0 else smashAt T S (a - 0x1000)

/-- The calls of the first process. -/
def smashActs (T : Nat → Nat) (S : Nat) : List Act :=
  [.userinit [], .growproc initproc 0x2003000] ++ storeActs initproc (smashPayload T S) (0x1000 + smashLen)

theorem growth_took {m0 m : Machine} {c : Nat} (hboot : boot demoLinker c (fun _ _ => 0) = .ok m0) (hcpu : c ≤ 8)
    (hf : follow (next demoLinker) m0 [.userinit [], .growproc initproc 0x2003000] = some m)
    (hp : m.proc initproc = some p) (hsz : p.sz = 0x2004000) :
    ∃ t, m0.phys.freelist = t ++ m.phys.freelist ∧ 8195 ≤ t.length ∧ t.length ≤ 10310 := by
  obtain ⟨m0', m1, d1, kstack, hboot', h0, -, -, hp1, -⟩ := first_process hcpu
  obtain rfl := Except.ok.inj (hboot'.symm.trans hboot)
  rw [follow, h0, Option.bind_some, follow] at hf
  obtain ⟨m2, hg, hend⟩ := Option.bind_eq_some_iff.mp hf
  obtain rfl := Option.some.inj hend
  obtain ⟨p1, hp1', -, hg⟩ := by_some hg
  obtain rfl := Option.some.inj (hp1.symm.trans hp1')
  obtain ⟨r, hg⟩ := discard_ok hg
  rw [next] at h0
  split at h0
  · obtain ⟨u, hu⟩ := snd_some h0
    obtain ⟨t1, ht1, hl1⟩ := userinit_took hu
    rcases growproc_cases hg with ⟨hc, -⟩ | ⟨d, sz, ph, ⟨-, ha⟩ | ⟨hc, -⟩, -, rfl⟩
    · cases hc
    · have hp' : (m1.setProc initproc (some { firstProc d1 kstack with
          pgdir := d, sz := if sz = 0 then (firstProc d1 kstack).sz else sz })).proc initproc = some p := hp
      obtain rfl := Option.some.inj ((update_self initproc _ m1.proc).symm.trans hp')
      have hr : sz ≠ 0 := by
        rintro rfl
        cases hsz
      rw [show (firstProc d1 kstack).sz = PGSIZE from rfl, show addInt PGSIZE 0x2003000 = 0x2004000 from by decide] at ha
      obtain ⟨t2, n, ht2, h1, h2, h3, h4⟩ := allocuvm_took (by decide) hr ha
      rw [show pgroundup PGSIZE = 0x1000 from by decide, PGSIZE] at h3 h4
      refine ⟨t1 ++ t2, ?_, ?_, ?_⟩
      · rw [ht1, ht2.free, append_assoc]
      · rw [length_append]
        omega
      · rw [length_append]
        omega
    · cases hc
  · cases h0

theorem exists_smash : ∃ m0 acts m p d ph T S d' m' p' ph',
    boot demoLinker 1 (fun _ _ => 0) = .ok m0 ∧ follow (next demoLinker) m0 acts = some m ∧
    m.proc initproc = some p ∧ fetchArgs m.phys p [0x1000] = some (some [smashArg T S]) ∧
    loadImage demoLinker emptyElf m.phys = .ok (some (d, some 0x2000), ph) ∧
    pushStack demoLinker initproc [smashArg T S] d 0x2000 { m with phys := ph } = .ok ((d', true), m') ∧
    m'.proc initproc = some p' ∧ freevm demoLinker p'.pgdir m'.phys = .ok ((), ph') := by
  obtain ⟨m0, m1, p, hboot, hgrow, hinv1, hfree1, hp1, -, hz, hsz, hmaps, hzero⟩ :=
    first_growth (c := 1) (n := 0x2003000) (by decide) (by decide) (by decide)
  have hsz' : p.sz = 0x2004000 := by rw [hsz]
  rw [show ((0x2003000 : Nat) : Int) = 0x2003000 from rfl] at hgrow
  have hpres : ∀ a < p.sz, (p.pgdir.get a).present = true := fun a ha => (hmaps a ha).1.2.1
  -- Which pages `exec` takes is known before anything is written.
  obtain ⟨d, s1, hl1, ha1, -, -, hgap, t, htook, htlen⟩ := loadImage_empty hinv1.acct hfree1
  have hb1 := building_of_load hinv1 ⟨initproc, p, hp1⟩ hl1
  obtain ⟨l0, hl0, h8195, h10310⟩ := growth_took hboot (by decide) hgrow hp1 hsz'
  obtain ⟨rest, hrest⟩ := boot_freelist hboot
  have hno : ∀ q, Target (tabOf d) (d.get 0x1000).ppn q → NoZero q := fun q hq =>
    noZero_of_taken (by rw [← hrest, hl0, htook.free]) h8195 (by omega) (hb1.taken hinv1.acct htook.free hq)
  have hT : ∀ n < 9, NoZero (tabOf d n) := fun n hn => hno _ (.inl ⟨n, hn, rfl⟩)
  have hS : NoZero (d.get 0x1000).ppn := hno _ (.inr rfl)
  have hw := writes_of_inv hinv1 hp1 hz hmaps
  have hlen : smashLen = 0x2002fff := rfl
  obtain ⟨ph, hst, hinv2, ⟨mem, hmem⟩, hbyte⟩ := follow_stores (n := 0x1000 + smashLen)
    (smashPayload (tabOf d) (d.get 0x1000).ppn) hinv1 hp1 hw (by rw [hsz']; decide)
  obtain ⟨mem', hl2⟩ := blind_loadImage emptyElf m1.phys mem _ _ hl1
  rw [← hmem] at hl2
  have hb2 := building_of_load hinv2 ⟨initproc, p, hp1⟩ hl2
  obtain ⟨d2, ph2, hl2', -, hkept, -⟩ := loadImage_empty hinv2.acct (by rw [hmem]; exact hfree1)
  obtain ⟨-, rfl⟩ := Prod.mk.inj (Except.ok.inj (hl2.symm.trans hl2'))
  have hword : (List.range 4).map (mem' (p.pgdir.get 0).ppn) = wordBytes (tabOf d 0 * 0x1000 + 5) := by
    have hpos := shared_pos hp1 (by decide) (hpres 0 (by omega))
    rw [← word_found (s := ph) (p := p) fun a ha => by rw [hbyte a (by omega), if_pos (by omega), smashPayload, if_pos ha]]
    have hk := hkept (p.pgdir.get 0).ppn (Nat.add_pos_right _ hpos)
    exact congrArg (fun f => (List.range 4).map f) hk
  have hfetch : fetchstr ph p 0x1000 = some (some (smashArg (tabOf d) (d.get 0x1000).ppn)) := by
    unfold fetchstr
    rw [if_neg (by omega)]
    refine fetchLoop_map (fun k _ => smashAt_ne_zero hT hS k) (by omega) hpres (fun k hk => ?_) ?_
    · rw [hbyte _ (by omega), if_pos (by omega), smashPayload, if_neg (by omega), if_neg (by omega),
        Nat.add_sub_cancel_left]
    · rw [hbyte _ (by omega), if_neg (by omega)]
      exact hzero _ (by simp only [PGSIZE]; omega) (by omega)
  have hlt : ∀ e, smashWord (tabOf d) (d.get 0x1000).ppn e < 0x100000000 := fun e => by
    have := (smashFrame_noZero hT hS e).2
    unfold smashWord
    omega
  have hT0 : tabOf d 0 < 0x100000 := by
    have := (hT 0 (by decide)).2
    omega
  have hsm := hb2.smashed hgap hp1 (hpres 0 (by omega)) hword
  obtain ⟨d', m', hpush, hend⟩ := hsm.pushStack_runs hb1.frames hlt hT0
  obtain ⟨p', hp', -⟩ := hend.fake
  obtain ⟨ph', hfree⟩ := freevm_total (fun _ hq => hq) (acct_old hend.acct hp')
  refine ⟨m0, smashActs (tabOf d) (d.get 0x1000).ppn, { m1 with phys := ph }, p, d, _, _, _, d', m', p', ph',
    hboot, ?_, hp1, ?_, hl2, hpush, hp', hfree⟩
  · rw [smashActs, follow_append, hgrow, Option.bind_some, hst]
  · rw [fetchArgs, hfetch]
    rfl

end Xv6.Sys
