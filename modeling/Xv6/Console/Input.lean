import Xv6.Lib.Ring
import Xv6.Lib.Run

/-!
# Console input

`consoleintr` and `consoleread` of `console.c`. What is typed goes into a ring of `INPUT_BUF` characters: the
bytes from `r` to `w` can be read, those from `w` to `e` are the line that is still edited. The ring is
compared with a list of committed bytes that only grows.
-/

open Xv6.Ring Xv6.Run List

namespace Xv6.Console

/-! ## The code -/

def INPUT_BUF : Nat := 128

/-- `C(x)` -/
def ctrl (x : Char) : UInt8 := x.toUInt8 - '@'.toUInt8

def nl : UInt8 := '\n'.toUInt8

/-- `input` -/
structure Input where
  buf : Nat → UInt8
  r : BitVec 32
  w : BitVec 32
  e : BitVec 32

def Input.back (s : Input) : Input := { s with e := s.e - 1 }

/-- `input.buf[input.e++ % INPUT_BUF] = c;` -/
def Input.store (s : Input) (c : UInt8) : Input :=
  { s with buf := Function.update s.buf (s.e.toNat % INPUT_BUF) c, e := s.e + 1 }

def Input.commit (s : Input) : Input := { s with w := s.e }

/-- The loop for `C('U')`. Every turn brings `e` nearer to `w`, so `e - w` turns are enough. -/
def Input.killLine : Nat → Input → Input
  | 0, s => s
  | k + 1, s =>
    if s.e ≠ s.w ∧ s.buf ((s.e - 1).toNat % INPUT_BUF) ≠ nl then s.back.killLine k else s

/-- One character in `consoleintr`. -/
def Input.typed (s : Input) (c : UInt8) : Input :=
  if c = ctrl 'P' then s
  else if c = ctrl 'U' then s.killLine (s.e - s.w).toNat
  else if c = ctrl 'H' ∨ c = 0x7f then
    if s.e ≠ s.w then s.back else s
  else if c ≠ 0 ∧ (s.e - s.r).toNat < INPUT_BUF then
    let c := if c = '\r'.toUInt8 then nl else c
    let s := s.store c
    if c = nl ∨ c = ctrl 'D' ∨ s.e = s.r + BitVec.ofNat 32 INPUT_BUF then s.commit else s
  else s

/-- The next character for `consoleread`. -/
def Input.head (s : Input) : Option UInt8 :=
  if s.r = s.w then none else some (s.buf (s.r.toNat % INPUT_BUF))

def Input.pop (s : Input) : Input := { s with r := s.r + 1 }

/-- What `consoleread` needs from the input. -/
structure Source (σ : Type) where
  typed : σ → UInt8 → σ
  head : σ → Option UInt8
  pop : σ → σ

def ring : Source Input := ⟨Input.typed, Input.head, Input.pop⟩

/-- A process in the loop of `consoleread`. -/
structure Reader where
  n : Nat
  target : Nat

structure System (σ : Type) where
  input : σ
  reader : Nat → Option Reader

inductive Label
  /-- A character comes. -/
  | typed (c : UInt8)
  /-- Process `p` calls `consoleread`. -/
  | call (p n : Nat)
  /-- One turn of its loop. -/
  | turn (p : Nat)
  /-- It finds nothing to read and that it was killed. -/
  | killed (p : Nat)

/-- What a step takes from the input, and the result of a call that returns. -/
structure Out where
  consumed : Option UInt8
  result : Option Int

variable {σ : Type}

def System.put (s : System σ) (p : Nat) (rd : Option Reader) : System σ :=
  { s with reader := Function.update s.reader p rd }

def System.pop (src : Source σ) (s : System σ) : System σ := { s with input := src.pop s.input }

/-- One turn of the loop, for the character `c`. `^D` stays in the input, by `input.r--`, when the reader has
some bytes. -/
def turn (src : Source σ) (s : System σ) (p : Nat) (rd : Reader) (c : UInt8) : System σ × Out :=
  if c = ctrl 'D' then
    if rd.n < rd.target then (s.put p none, ⟨none, some (rd.target - rd.n)⟩)
    else ((s.pop src).put p none, ⟨some c, some (rd.target - rd.n)⟩)
  else if c = nl then ((s.pop src).put p none, ⟨some c, some (rd.target - (rd.n - 1 : Nat))⟩)
  else ((s.pop src).put p (some { rd with n := rd.n - 1 }), ⟨some c, none⟩)

/-- One step. A reader that finds nothing sleeps: its turn cannot be taken. -/
def step (src : Source σ) (s : System σ) : Label → Option (System σ × Out)
  | .typed c => some ({ s with input := src.typed s.input c }, ⟨none, none⟩)
  | .call p n =>
    match s.reader p with
    | some _ => none
    | none => some (s.put p (some ⟨n, n⟩), ⟨none, none⟩)
  | .turn p =>
    match s.reader p with
    | none => none
    | some rd =>
      if rd.n = 0 then some (s.put p none, ⟨none, some rd.target⟩)
      else (src.head s.input).map (turn src s p rd)
  | .killed p =>
    match s.reader p with
    | none => none
    | some rd =>
      if rd.n ≠ 0 ∧ src.head s.input = none then some (s.put p none, ⟨none, some (-1)⟩) else none

/-- The kernel's data is zero at first. -/
def start : System Input := ⟨⟨fun _ => 0, 0, 0, 0⟩, fun _ => none⟩

/-! ## What the console is for -/

/-- All bytes committed so far, how many of them are read, and the line that is edited. -/
structure Stream where
  committed : List UInt8
  taken : Nat
  line : List UInt8

def Stream.unread (a : Stream) : List UInt8 := a.committed.drop a.taken

def Stream.typed (a : Stream) (c : UInt8) : Stream :=
  if c = ctrl 'P' then a
  else if c = ctrl 'U' then { a with line := [] }
  else if c = ctrl 'H' ∨ c = 0x7f then { a with line := a.line.dropLast }
  else if c = 0 ∨ INPUT_BUF ≤ a.unread.length + a.line.length then a
  else
    let c := if c = '\r'.toUInt8 then nl else c
    -- A newline, `^D` or a full buffer commits the line.
    if c = nl ∨ c = ctrl 'D' ∨ a.unread.length + a.line.length + 1 = INPUT_BUF then
      { a with committed := a.committed ++ (a.line ++ [c]), line := [] }
    else { a with line := a.line ++ [c] }

def stream : Source Stream := ⟨Stream.typed, fun a => a.unread.head?, fun a => { a with taken := a.taken + 1 }⟩

def Stream.start : System Stream := ⟨⟨[], 0, []⟩, fun _ => none⟩

/-! ## The ring holds the stream -/

/-- The ring holds the unread bytes and then the line. -/
structure Holds (s : Input) (a : Stream) : Prop where
  taken_le : a.taken ≤ a.committed.length
  w : s.w = s.r + BitVec.ofNat 32 a.unread.length
  e : s.e = s.r + BitVec.ofNat 32 (a.unread ++ a.line).length
  fits : (a.unread ++ a.line).length ≤ INPUT_BUF
  data : contents INPUT_BUF s.buf s.r.toNat (a.unread ++ a.line).length = a.unread ++ a.line
  plain : nl ∉ a.line

variable {s : Input} {a : Stream} {c : UInt8}

theorem Holds.sub (h : Holds s a) : (s.w - s.r).toNat = a.unread.length ∧
    (s.e - s.r).toNat = a.unread.length + a.line.length ∧ (s.e - s.w).toNat = a.line.length := by
  have hfits := h.fits
  rw [h.w, h.e]
  rw [length_append] at hfits ⊢
  simp only [INPUT_BUF] at hfits
  refine ⟨?_, ?_, ?_⟩ <;> bv_omega

theorem Holds.e_eq_w (h : Holds s a) : s.e = s.w ↔ a.line = [] := by
  have hsub := h.sub.2.2
  rw [← length_eq_zero_iff, ← hsub]
  constructor <;> intro heq <;> bv_omega

theorem Holds.back {l : List UInt8} {x : UInt8} (h : Holds s a) (hl : a.line = l ++ [x]) :
    Holds s.back { a with line := l } ∧ s.buf ((s.e - 1).toNat % INPUT_BUF) = x := by
  have hlen : (a.unread ++ a.line).length = (a.unread ++ l).length + 1 := by
    simp only [hl, length_append, length_singleton, Nat.add_assoc]
  have hfits := h.fits
  have he := h.e
  have hdata := h.data
  rw [hlen, contents_succ, hl, ← append_assoc] at hdata
  obtain ⟨hinit, hlast⟩ := append_inj' hdata rfl
  rw [hlen] at he hfits
  simp only [INPUT_BUF] at hfits
  have he' : s.e - 1 = s.r + BitVec.ofNat 32 (a.unread ++ l).length := by
    rw [he]
    bv_omega
  refine ⟨⟨h.taken_le, h.w, he', by simp only [INPUT_BUF]; exact Nat.le_of_succ_le hfits, hinit, ?_⟩, ?_⟩
  · intro hmem
    exact h.plain (by simp [hl, hmem])
  · rw [← singleton_inj.mp hlast, he']
    congr 1
    simp only [INPUT_BUF, BitVec.toNat_add, BitVec.toNat_ofNat]
    omega

theorem Holds.killLine (h : Holds s a) : Holds (s.killLine a.line.length) { a with line := [] } := by
  generalize hk : a.line.length = k
  induction k generalizing s a with
  | zero =>
    rw [← length_eq_zero_iff.mp hk]
    exact h
  | succ k ih =>
    obtain hnil | ⟨l, x, hl⟩ := eq_nil_or_concat' a.line
    · rw [hnil] at hk
      cases hk
    obtain ⟨hback, hx⟩ := h.back hl
    have hne : s.e ≠ s.w := fun hc => by simp [h.e_eq_w.mp hc] at hl
    rw [Input.killLine, if_pos ⟨hne, fun hc => h.plain (by rw [hl, ← hc, hx]; simp)⟩]
    refine ih (a := { a with line := l }) hback ?_
    rw [hl, length_append, length_singleton] at hk
    exact Nat.succ.inj hk

theorem Holds.store (h : Holds s a) (hlt : (a.unread ++ a.line).length < INPUT_BUF) (c : UInt8) :
    (s.store c).e = s.r + BitVec.ofNat 32 (a.unread ++ (a.line ++ [c])).length ∧
    contents INPUT_BUF (s.store c).buf s.r.toNat (a.unread ++ (a.line ++ [c])).length =
      a.unread ++ (a.line ++ [c]) := by
  have hlen : (a.unread ++ (a.line ++ [c])).length = (a.unread ++ a.line).length + 1 := by
    simp only [length_append, length_singleton, Nat.add_assoc]
  have hcell : s.e.toNat % INPUT_BUF = (s.r.toNat + (a.unread ++ a.line).length) % INPUT_BUF := by
    rw [h.e]
    simp only [INPUT_BUF, BitVec.toNat_add, BitVec.toNat_ofNat] at *
    omega
  rw [hlen]
  refine ⟨?_, ?_⟩
  · rw [Input.store, h.e, BitVec.ofNat_add, BitVec.add_assoc]
    rfl
  · rw [Input.store, hcell, contents_push hlt, h.data, append_assoc]

theorem Holds.grow (h : Holds s a) (hlt : (a.unread ++ a.line).length < INPUT_BUF) (hc : c ≠ nl) :
    Holds (s.store c) { a with line := a.line ++ [c] } := by
  obtain ⟨he, hdata⟩ := h.store hlt c
  refine ⟨h.taken_le, h.w, he, ?_, hdata, ?_⟩
  · rw [← append_assoc, length_append]
    exact hlt
  · simpa [h.plain] using hc.symm

theorem Holds.commit (h : Holds s a) (hlt : (a.unread ++ a.line).length < INPUT_BUF) (c : UInt8) :
    Holds (s.store c).commit { a with committed := a.committed ++ (a.line ++ [c]), line := [] } := by
  obtain ⟨he, hdata⟩ := h.store hlt c
  have hunread : (Stream.mk (a.committed ++ (a.line ++ [c])) a.taken []).unread = a.unread ++ (a.line ++ [c]) :=
    drop_append_of_le_length h.taken_le
  refine ⟨?_, ?_, ?_, ?_, ?_, not_mem_nil⟩
  · rw [length_append]
    exact Nat.le_add_right_of_le h.taken_le
  · rw [hunread]
    exact he
  · rw [hunread, append_nil]
    exact he
  · rw [hunread, append_nil, ← append_assoc, length_append]
    exact hlt
  · rw [hunread, append_nil]
    exact hdata

theorem Holds.typed (h : Holds s a) (c : UInt8) : Holds (s.typed c) (a.typed c) := by
  obtain ⟨-, her, hew⟩ := h.sub
  unfold Input.typed Stream.typed
  by_cases hP : c = ctrl 'P'
  · rwa [if_pos hP, if_pos hP]
  by_cases hU : c = ctrl 'U'
  · rw [if_neg hP, if_neg hP, if_pos hU, if_pos hU, hew]
    exact h.killLine
  by_cases hH : c = ctrl 'H' ∨ c = 0x7f
  · rw [if_neg hP, if_neg hP, if_neg hU, if_neg hU, if_pos hH, if_pos hH]
    obtain hnil | ⟨l, x, hl⟩ := eq_nil_or_concat' a.line
    · rw [if_neg (not_not_intro (h.e_eq_w.mpr hnil)), hnil, dropLast_nil, ← hnil]
      exact h
    · rw [if_pos fun hc => by simp [h.e_eq_w.mp hc] at hl, hl, dropLast_concat]
      exact (h.back hl).1
  rw [if_neg hP, if_neg hP, if_neg hU, if_neg hU, if_neg hH, if_neg hH, her]
  by_cases hroom : c = 0 ∨ INPUT_BUF ≤ a.unread.length + a.line.length
  · rw [if_pos hroom, if_neg fun hc => hroom.elim hc.1 (Nat.not_le.mpr hc.2)]
    exact h
  have hlt : (a.unread ++ a.line).length < INPUT_BUF := by
    rw [length_append]
    exact Nat.lt_of_not_le (not_or.mp hroom).2
  rw [if_neg hroom, if_pos ⟨(not_or.mp hroom).1, Nat.lt_of_not_le (not_or.mp hroom).2⟩]
  generalize (if c = '\r'.toUInt8 then nl else c) = c'
  have hfull : (s.store c').e = (s.store c').r + BitVec.ofNat 32 INPUT_BUF ↔
      a.unread.length + a.line.length + 1 = INPUT_BUF := by
    rw [(h.store hlt c').1]
    simp only [length_append, length_singleton, INPUT_BUF, Input.store] at hlt ⊢
    constructor <;> intro heq <;> bv_omega
  simp only [hfull]
  split
  · exact h.commit hlt c'
  · next hno => exact h.grow hlt fun hc => hno (.inl hc)

theorem Holds.head (h : Holds s a) : s.head = a.unread.head? := by
  have hw := h.sub.1
  unfold Input.head
  cases hu : a.unread with
  | nil =>
    rw [hu, length_nil] at hw
    rw [if_pos (by bv_omega)]
    rfl
  | cons c t =>
    have hdata := h.data
    rw [hu, cons_append, length_cons, contents_pop] at hdata
    rw [hu, length_cons] at hw
    rw [if_neg (by bv_omega), (List.cons.inj hdata).1]
    rfl

theorem Holds.pop (h : Holds s a) {t : List UInt8} (hc : a.unread = c :: t) :
    Holds s.pop { a with taken := a.taken + 1 } := by
  have hlt : a.taken < a.committed.length := by
    by_contra hle
    rw [Stream.unread, drop_eq_nil_of_le (Nat.le_of_not_lt hle)] at hc
    cases hc
  have hunread : (Stream.mk a.committed (a.taken + 1) a.line).unread = t := by
    rw [Stream.unread, ← drop_drop]
    exact congrArg (List.drop 1) hc
  obtain ⟨-, hw, he, hfits, hdata, hplain⟩ := h
  rw [hc, cons_append, length_cons] at he hfits hdata
  rw [hc, length_cons] at hw
  refine ⟨hlt, ?_, ?_, ?_, ?_, hplain⟩
  · rw [hunread, Input.pop, hw]
    bv_omega
  · rw [hunread, Input.pop, he]
    bv_omega
  · rw [hunread]
    exact Nat.le_of_succ_le hfits
  · have hmod : s.pop.r.toNat ≡ s.r.toNat + 1 [MOD INPUT_BUF] := by
      simp only [Input.pop, Nat.ModEq, INPUT_BUF, BitVec.toNat_add, show (1 : BitVec 32).toNat = 1 from rfl]
      omega
    rw [contents_pop] at hdata
    rw [hunread]
    exact (contents_congr hmod).trans (List.cons.inj hdata).2

/-! ## Runs -/

/-- Two systems with the same readers, one over the ring and one over the stream. -/
structure Simulates (s : System Input) (t : System Stream) : Prop where
  holds : Holds s.input t.input
  reader : s.reader = t.reader

variable {s s' : System Input} {t t' : System Stream} {l : Label} {o : Out}

theorem Simulates.put (h : Simulates s t) (p : Nat) (rd : Option Reader) : Simulates (s.put p rd) (t.put p rd) :=
  ⟨h.holds, by rw [System.put, System.put, h.reader]⟩

theorem turn_sim (h : Simulates s t) (hc : t.input.unread.head? = some c) (p : Nat) (rd : Reader) :
    (turn ring s p rd c).2 = (turn stream t p rd c).2 ∧
    Simulates (turn ring s p rd c).1 (turn stream t p rd c).1 := by
  have hpop : Simulates (s.pop ring) (t.pop stream) :=
    ⟨h.holds.pop (eq_cons_of_mem_head? hc), h.reader⟩
  unfold turn
  split
  · split
    · exact ⟨rfl, h.put p none⟩
    · exact ⟨rfl, hpop.put p none⟩
  · split
    · exact ⟨rfl, hpop.put p none⟩
    · exact ⟨rfl, hpop.put p _⟩

theorem step_sim (h : Simulates s t) (hs : step ring s l = some (s', o)) :
    ∃ t', step stream t l = some (t', o) ∧ Simulates s' t' := by
  have hhead : ring.head s.input = stream.head t.input := h.holds.head
  cases l with
  | typed c =>
    cases hs
    exact ⟨_, rfl, h.holds.typed c, h.reader⟩
  | call p n =>
    simp only [step, h.reader] at hs ⊢
    split at hs
    · cases hs
    · cases hs
      exact ⟨_, rfl, h.put p _⟩
  | turn p =>
    simp only [step, h.reader, hhead] at hs ⊢
    split at hs
    · cases hs
    · next rd hrd =>
      split at hs
      · next hn =>
        cases hs
        exact ⟨_, if_pos hn, h.put p none⟩
      · next hn =>
        obtain ⟨c, hc, heq⟩ := Option.map_eq_some_iff.mp hs
        obtain ⟨hout, hsim⟩ := turn_sim h hc p rd
        rw [heq] at hout hsim
        exact ⟨(turn stream t p rd c).1, by rw [if_neg hn, hc, Option.map_some, show o = _ from hout], hsim⟩
  | killed p =>
    simp only [step, h.reader, hhead] at hs ⊢
    split at hs
    · cases hs
    · split at hs
      · next hn =>
        cases hs
        exact ⟨_, if_pos hn, h.put p none⟩
      · cases hs

theorem committed_typed (a : Stream) (c : UInt8) :
    a.committed <+: (a.typed c).committed ∧ (a.typed c).taken = a.taken := by
  unfold Stream.typed
  dsimp only
  split_ifs <;> first | exact ⟨prefix_rfl, rfl⟩ | exact ⟨prefix_append _ _, rfl⟩

/-- The bytes that readers have taken. -/
def Stream.read (a : Stream) : List UInt8 := a.committed.take a.taken

theorem step_read (h : step stream t l = some (t', o)) (hle : t.input.taken ≤ t.input.committed.length) :
    t'.input.read = t.input.read ++ o.consumed.toList ∧ t'.input.taken ≤ t'.input.committed.length := by
  have hsame : t.input.read = t.input.read ++ (none : Option UInt8).toList := (append_nil _).symm
  cases l with
  | typed c =>
    cases h
    obtain ⟨⟨more, hmore⟩, htaken⟩ := committed_typed t.input c
    rw [Stream.read, stream, htaken, ← hmore, take_append_of_le_length hle, length_append]
    exact ⟨hsame, Nat.le_add_right_of_le hle⟩
  | call p n =>
    simp only [step] at h
    split at h
    · cases h
    · cases h
      exact ⟨hsame, hle⟩
  | turn p =>
    simp only [step] at h
    split at h
    · cases h
    · split at h
      · cases h
        exact ⟨hsame, hle⟩
      · obtain ⟨c, hc, heq⟩ := Option.map_eq_some_iff.mp h
        have hget : t.input.committed[t.input.taken]? = some c := by
          rw [← List.head?_drop]
          exact hc
        have hpop : t.input.committed.take (t.input.taken + 1) = t.input.read ++ [c] := by
          rw [take_add_one, hget]
          rfl
        have hlt := (List.getElem?_eq_some_iff.mp hget).1
        unfold turn at heq
        split_ifs at heq <;> cases heq
        · exact ⟨hsame, hle⟩
        all_goals exact ⟨hpop, hlt⟩
  | killed p =>
    simp only [step] at h
    split at h
    · cases h
    · split at h
      · cases h
        exact ⟨hsame, hle⟩
      · cases h

theorem serve_read {ls : List Label} {os : List Out} (h : serve (step stream) t ls = some (t', os))
    (hle : t.input.taken ≤ t.input.committed.length) :
    t'.input.read = t.input.read ++ os.filterMap Out.consumed := by
  induction ls generalizing t os with
  | nil =>
    cases h
    exact (append_nil _).symm
  | cons l ls ih =>
    obtain ⟨⟨t1, o⟩, hs, hrest⟩ := Option.bind_eq_some_iff.mp h
    obtain ⟨⟨t2, os'⟩, hserve, heq⟩ := Option.map_eq_some_iff.mp hrest
    cases heq
    obtain ⟨hread, hle'⟩ := step_read hs hle
    rw [ih hserve hle', hread, append_assoc]
    cases o with
    | mk consumed result => cases consumed <;> rfl

/-- The bytes from `r` to `w`. -/
def Input.unread (s : Input) : List UInt8 := contents INPUT_BUF s.buf s.r.toNat (s.w - s.r).toNat

theorem Holds.unread_eq {s : Input} (h : Holds s a) : s.unread = a.unread := by
  rw [Input.unread, h.sub.1, ← take_contents (Nat.le_add_right _ a.line.length), ← length_append, h.data,
    take_left']
  rfl

theorem killLine_r (k : Nat) (s : Input) : (s.killLine k).r = s.r := by
  induction k generalizing s with
  | zero => rfl
  | succ k ih =>
    rw [Input.killLine]
    split
    · exact ih s.back
    · rfl

theorem typed_r (s : Input) (c : UInt8) : (s.typed c).r = s.r := by
  unfold Input.typed
  dsimp only
  split_ifs <;> first | rfl | exact killLine_r _ s

/-- A reader that has some bytes leaves `^D` in the input, and the next read is empty. -/
theorem eof_left {p m : Nat} {rd : Reader} (hrd : s.reader p = some rd) (hn : 0 < rd.n) (hlt : rd.n < rd.target)
    (hhead : s.input.head = some (ctrl 'D')) (hm : 0 < m) :
    ∃ s1 s2 s3, step ring s (.turn p) = some (s1, ⟨none, some (rd.target - rd.n)⟩) ∧
      step ring s1 (.call p m) = some (s2, ⟨none, none⟩) ∧
      step ring s2 (.turn p) = some (s3, ⟨some (ctrl 'D'), some 0⟩) := by
  have hhead' : ring.head s.input = some (ctrl 'D') := hhead
  refine ⟨s.put p none, (s.put p none).put p (some ⟨m, m⟩),
    (((s.put p none).put p (some ⟨m, m⟩)).pop ring).put p none, ?_, ?_, ?_⟩
  · simp only [step, hrd, hhead', Option.map_some, turn, if_true]
    rw [if_neg (by omega), if_pos hlt]
  · simp [step, System.put]
  · simp [step, System.put, hhead', turn, Nat.ne_of_gt hm]

/-- Over every run of typed characters and readers the indices stay in order, no character that is typed takes
away a byte that can be read, and the readers get, in order, the bytes that were committed. -/
theorem console_discipline (ls : List Label) (s : System Input) (os : List Out)
    (hrun : serve (step ring) start ls = some (s, os)) :
    ((s.input.w - s.input.r).toNat ≤ (s.input.e - s.input.r).toNat ∧
      (s.input.e - s.input.r).toNat ≤ INPUT_BUF) ∧
    (∀ c, (s.input.typed c).r = s.input.r ∧ s.input.unread <+: (s.input.typed c).unread) ∧
    (∃ t, serve (step stream) Stream.start ls = some (t, os) ∧
      t.input.committed = os.filterMap Out.consumed ++ s.input.unread) ∧
    ∀ p rd m, s.reader p = some rd → 0 < rd.n → rd.n < rd.target → s.input.head = some (ctrl 'D') → 0 < m →
      ∃ s1 s2 s3, step ring s (.turn p) = some (s1, ⟨none, some (rd.target - rd.n)⟩) ∧
        step ring s1 (.call p m) = some (s2, ⟨none, none⟩) ∧
        step ring s2 (.turn p) = some (s3, ⟨some (ctrl 'D'), some 0⟩) := by
  have hstart : Simulates start Stream.start :=
    ⟨⟨Nat.le_refl _, rfl, rfl, Nat.zero_le _, rfl, List.not_mem_nil⟩, rfl⟩
  have hstep : ∀ s t l s' o, Simulates s t → step ring s l = some (s', o) →
      ∃ t', step stream t l = some (t', o) ∧ Simulates s' t' := fun _ _ _ _ _ h hs => step_sim h hs
  obtain ⟨t, hserve, hsim⟩ := serve_sim hstep hstart hrun
  obtain ⟨hw, he, -⟩ := hsim.holds.sub
  have hfits := hsim.holds.fits
  rw [List.length_append] at hfits
  refine ⟨⟨by omega, by omega⟩, fun c => ⟨typed_r _ c, ?_⟩, ⟨t, hserve, ?_⟩, fun p rd m h => eof_left h⟩
  · rw [(hsim.holds.typed c).unread_eq, hsim.holds.unread_eq, Stream.unread, Stream.unread,
      (committed_typed t.input c).2]
    exact (committed_typed t.input c).1.drop _
  · have hread : t.input.read = os.filterMap Out.consumed := serve_read hserve (Nat.le_refl _)
    rw [← hread, hsim.holds.unread_eq]
    exact (List.take_append_drop _ _).symm

/-- `ax`, a backspace and a newline: the reader gets `a` and the newline. -/
theorem console_discipline_edit : ∃ s os,
    serve (step ring) start [.call 0 9, .typed 97, .typed 120, .typed 8, .typed 13, .turn 0, .turn 0] =
      some (s, os) ∧ os.filterMap Out.consumed = [97, nl] ∧
    ∃ t, serve (step stream) Stream.start
        [.call 0 9, .typed 97, .typed 120, .typed 8, .typed 13, .turn 0, .turn 0] = some (t, os) ∧
      t.input.committed = [97, nl] ++ s.input.unread := by
  refine ⟨_, _, rfl, rfl, ?_⟩
  exact (console_discipline _ _ _ rfl).2.2.1

end Xv6.Console
