import Xv6.FileWrite.Code

/-!
# Shared writes do not overwrite each other

The offset is read and advanced under the inode's lock. So every chunk goes right behind the chunk
before it, whoever wrote that one.
-/

open Xv6.Run Function List

namespace Xv6.FileWrite

variable {ι : Type}

/-! ## Interleavings -/

/-- The chunks of the `k`-th call, put together. -/
def pieces (chunks : List (Nat × List UInt8)) (k : Nat) : List UInt8 :=
  (chunks.filter fun c => c.1 = k).flatMap Prod.snd

/-- `chunks` are the strings `bufs` cut into chunks: every chunk names its string, and those of one
string are in order. -/
structure Interleaving (bufs : List (List UInt8)) (chunks : List (Nat × List UInt8)) : Prop where
  sizes : ∀ c ∈ chunks, c.1 < bufs.length ∧ c.2 ≠ [] ∧ c.2.length ≤ MAXCHUNK
  pieces : ∀ k buf, bufs[k]? = some buf → FileWrite.pieces chunks k = buf

@[simp] theorem pieces_nil (k : Nat) : pieces [] k = [] := rfl

theorem pieces_append (chunks : List (Nat × List UInt8)) (c : Nat × List UInt8) (k : Nat) :
    pieces (chunks ++ [c]) k = if c.1 = k then pieces chunks k ++ c.2 else pieces chunks k := by
  unfold pieces
  by_cases h : c.1 = k <;> simp [h]

theorem pieces_of_none {chunks : List (Nat × List UInt8)} {k : Nat} (h : ∀ c ∈ chunks, c.1 ≠ k) :
    pieces chunks k = [] := by
  unfold pieces
  rw [filter_eq_nil_iff.mpr (by simpa using h)]
  rfl

theorem length_flatten {n : Nat} {chunks : List (Nat × List UInt8)} (h : ∀ c ∈ chunks, c.1 < n) :
    (chunks.flatMap Prod.snd).length = ∑ k ∈ Finset.range n, (pieces chunks k).length := by
  induction chunks using List.reverseRecOn with
  | nil => simp
  | append_singleton chunks c ih =>
    have hc : c.1 ∈ Finset.range n := Finset.mem_range.mpr (h c (by simp))
    have hsum : ∀ k, (pieces (chunks ++ [c]) k).length =
        (pieces chunks k).length + if c.1 = k then c.2.length else 0 := by
      intro k
      rw [pieces_append]
      split
      · exact length_append
      · rfl
    simp only [hsum, Finset.sum_add_distrib, Finset.sum_ite_eq, if_pos hc]
    rw [flatMap_append, length_append, ih fun x hx => h x (by simp [hx])]
    simp

theorem Interleaving.length {bufs : List (List UInt8)} {chunks : List (Nat × List UInt8)}
    (h : Interleaving bufs chunks) : (chunks.flatMap Prod.snd).length = (bufs.map List.length).sum := by
  rw [length_flatten fun c hc => (h.sizes c hc).1, ← Fin.sum_univ_fun_getElem, Finset.sum_range]
  refine Finset.sum_congr rfl fun k _ => ?_
  rw [h.pieces k bufs[k] (List.getElem?_eq_getElem k.isLt)]
  rfl

/-! ## What is on the way -/

def State.byte (s : State ι) (x : Nat) : UInt8 := s.bmap (x / BSIZE) (x % BSIZE)

/-- The process has `ip->lock`. -/
def Pc.critical : Pc → Bool
  | .writei _ _ | .copy _ _ _ _ | .grow _ _ _ | .advance _ _ _ | .unlock _ _ _ => true
  | _ => false

/-- The string of the call, and what of it is behind the offset. -/
def Pc.record : Pc → Option (List UInt8 × List UInt8)
  | .loop buf i | .begin buf i | .lock buf i | .writei buf i | .copy buf i _ _ | .grow buf i _
  | .advance buf i _ => some (buf, buf.take i)
  | .unlock buf i r | .endOp buf i r | .test buf i r => some (buf, buf.take (i + r.getD 0))
  | .ret buf (some _) => some (buf, buf)
  | .ret _ none => none
  | .out => none

/-- The first `n` bytes of the chunk are in place. -/
def Copied (s : State ι) (buf : List UInt8) (i n : Nat) : Prop :=
  ∀ j < n, s.byte (s.off.toNat + j) = buf.getD (i + j) 0

def Room (s : State ι) (buf : List UInt8) (i : Nat) : Prop := s.off.toNat + chunk buf i ≤ MAXFILE * BSIZE

def Pc.Good (s : State ι) : Pc → Prop
  | .out | .ret _ _ => True
  | .loop buf i => i ≤ buf.length
  | .begin buf i | .lock buf i | .writei buf i => i < buf.length
  | .copy buf i tot off => i < buf.length ∧ Room s buf i ∧ tot ≤ chunk buf i ∧
      off.toNat = s.off.toNat + tot ∧ Copied s buf i tot
  | .grow buf i _ => i < buf.length ∧ Room s buf i ∧ Copied s buf i (chunk buf i)
  | .advance buf i r => i < buf.length ∧ ∀ k ∈ r, k = chunk buf i ∧ Room s buf i ∧ Copied s buf i k
  | .unlock buf i r | .endOp buf i r | .test buf i r => i < buf.length ∧ ∀ k ∈ r, k = chunk buf i

/-- The offset, the lock and the bytes from the first offset `start` on. -/
structure Placed (start : Nat) (chunks : List (Nat × List UInt8)) (s : State ι) : Prop where
  off : s.off.toNat = start + (chunks.flatMap Prod.snd).length
  bytes : ∀ j c, (chunks.flatMap Prod.snd)[j]? = some c → s.byte (start + j) = c
  lock : ∀ p, (s.pc p).critical = true → s.lock = some p
  good : ∀ p, (s.pc p).Good s

/-- The chunks are those of the calls, where `who p` is the number of the last call of `p`. -/
structure Known (bufs : List (List UInt8)) (chunks : List (Nat × List UInt8)) (who : ι → Nat)
    (s : State ι) : Prop where
  sizes : ∀ c ∈ chunks, c.1 < bufs.length ∧ c.2 ≠ [] ∧ c.2.length ≤ MAXCHUNK
  who_lt : ∀ p, s.pc p ≠ .out → who p < bufs.length
  inj : ∀ p q, s.pc p ≠ .out → s.pc q ≠ .out → who p = who q → p = q
  record : ∀ p buf w, (s.pc p).record = some (buf, w) →
    bufs[who p]? = some buf ∧ pieces chunks (who p) = w
  finished : ∀ k buf, bufs[k]? = some buf → (∀ p, s.pc p ≠ .out → who p ≠ k) → pieces chunks k = buf

theorem chunk_le (buf : List UInt8) (i : Nat) : chunk buf i ≤ buf.length - i ∧ chunk buf i ≤ MAXCHUNK := by
  unfold chunk
  split <;> omega

theorem chunk_pos {buf : List UInt8} {i : Nat} (h : i < buf.length) : 0 < chunk buf i := by
  unfold chunk
  split
  · decide
  · omega

/-! ## The steps -/

variable {s s' : State ι} {p : ι} {start : Nat} {chunks : List (Nat × List UInt8)} {bufs : List (List UInt8)}
  {who : ι → Nat}

theorem Pc.Good.of_not_critical {pc : Pc} (h : pc.Good s) (hc : pc.critical = false) (s' : State ι) :
    pc.Good s' := by
  cases pc <;> first | exact h | cases hc

theorem Known.move {pc : Pc} (h : Known bufs chunks who s) (hpc : ∀ q, q ≠ p → s'.pc q = s.pc q)
    (hp : s'.pc p = pc) (hout : s.pc p ≠ .out) (hout' : pc ≠ .out)
    (hrec : ∀ x, pc.record = some x → (s.pc p).record = some x) : Known bufs chunks who s' := by
  have hactive : ∀ q, s'.pc q ≠ .out ↔ s.pc q ≠ .out := by
    intro q
    by_cases hq : q = p
    · rw [hq, hp]
      exact iff_of_true hout' hout
    · rw [hpc q hq]
  refine ⟨h.sizes, fun q hq => h.who_lt q ((hactive q).mp hq),
    fun q r hq hr => h.inj q r ((hactive q).mp hq) ((hactive r).mp hr), fun q buf w hq => ?_,
    fun k buf hk hnone => h.finished k buf hk fun q hq => hnone q ((hactive q).mpr hq)⟩
  by_cases hqp : q = p
  · subst hqp
    rw [hp] at hq
    exact h.record q buf w (hrec _ hq)
  · rw [hpc q hqp] at hq
    exact h.record q buf w hq

theorem Placed.move {pc : Pc} (h : Placed start chunks s) (hoff : s'.off = s.off)
    (hblocks : s'.blocks = s.blocks) (hlock : s'.lock = s.lock) (hpc : ∀ q, q ≠ p → s'.pc q = s.pc q)
    (hp : s'.pc p = pc) (hcrit : pc.critical = true → (s.pc p).critical = true) (hgood : pc.Good s) :
    Placed start chunks s' := by
  have hbyte : ∀ x, s'.byte x = s.byte x := fun x => by simp only [State.byte, State.bmap, hblocks]
  have hsame : ∀ pc : Pc, pc.Good s' ↔ pc.Good s := by
    intro pc
    cases pc <;> simp only [Pc.Good, Room, Copied, hbyte, hoff]
  refine ⟨by rw [hoff]; exact h.off, fun j c hj => by rw [hbyte]; exact h.bytes j c hj, fun q hq => ?_,
    fun q => ?_⟩
  · rw [hlock]
    by_cases hqp : q = p
    · subst hqp
      rw [hp] at hq
      exact h.lock q (hcrit hq)
    · rw [hpc q hqp] at hq
      exact h.lock q hq
  · rw [hsame]
    by_cases hqp : q = p
    · rw [hqp, hp]
      exact hgood
    · rw [hpc q hqp]
      exact h.good q

theorem Placed.others {q : ι} (h : Placed start chunks s) (hl : s.lock = some p) (hqp : q ≠ p) :
    (s.pc q).critical = false := by
  by_contra hc
  have := h.lock q (by simpa using hc)
  exact hqp (Option.some.inj (this.symm.trans hl))

theorem Placed.write {pc : Pc} {chunks' : List (Nat × List UInt8)} (h : Placed start chunks s)
    (hl : s.lock = some p) (hpc : ∀ q, q ≠ p → s'.pc q = s.pc q) (hp : s'.pc p = pc)
    (hlock : pc.critical = true → s'.lock = some p) (hgood : pc.Good s')
    (hoff : s'.off.toNat = start + (chunks'.flatMap Prod.snd).length)
    (hbytes : ∀ j c, (chunks'.flatMap Prod.snd)[j]? = some c → s'.byte (start + j) = c) :
    Placed start chunks' s' := by
  refine ⟨hoff, hbytes, fun q hq => ?_, fun q => ?_⟩
  · by_cases hqp : q = p
    · subst hqp
      rw [hp] at hq
      exact hlock hq
    · rw [hpc q hqp, h.others hl hqp] at hq
      cases hq
  · by_cases hqp : q = p
    · rw [hqp, hp]
      exact hgood
    · rw [hpc q hqp]
      exact (h.good q).of_not_critical (h.others hl hqp) s'

theorem byte_splice {x : Nat} {off : Nat} {bs : List UInt8} (hbs : bs.length ≤ BSIZE - off % BSIZE)
    (hblocks : s'.blocks = update s.blocks (off / BSIZE)
      (some (splice (s.bmap (off / BSIZE)) (off % BSIZE) bs))) :
    s'.byte x = if off ≤ x ∧ x < off + bs.length then bs.getD (x - off) 0 else s.byte x := by
  have hlt : off % BSIZE < BSIZE := Nat.mod_lt _ (by decide)
  simp only [State.byte, State.bmap, hblocks]
  by_cases hx : x / BSIZE = off / BSIZE
  · rw [hx, update_self, Option.getD_some, splice]
    have hiff : (off % BSIZE ≤ x % BSIZE ∧ x % BSIZE < off % BSIZE + bs.length) ↔
        (off ≤ x ∧ x < off + bs.length) := by
      simp only [BSIZE] at *
      omega
    have hsub : x % BSIZE - off % BSIZE = x - off := by
      simp only [BSIZE] at *
      omega
    rw [hsub]
    exact if_congr hiff rfl rfl
  · rw [update_of_ne hx, if_neg]
    simp only [BSIZE] at *
    omega

variable [DecidableEq ι]

theorem goto_self (s : State ι) (p : ι) (pc : Pc) : (s.goto p pc).pc p = pc := update_self _ _ _

theorem goto_other {q : ι} (s : State ι) (pc : Pc) (h : q ≠ p) : (s.goto p pc).pc q = s.pc q :=
  update_of_ne h _ _

theorem placed_copy {buf : List UInt8} {i tot m : Nat} {off : BitVec 32} (h : Placed start chunks s)
    (hp : s.pc p = .copy buf i tot off) (hm : m = min (chunk buf i - tot) (BSIZE - off.toNat % BSIZE))
    (hs : s' = { s.goto p (.copy buf i (tot + m) (off + BitVec.ofNat 32 m)) with
      blocks := update s.blocks (off.toNat / BSIZE)
        (some (splice (s.bmap (off.toNat / BSIZE)) (off.toNat % BSIZE) ((buf.drop (i + tot)).take m))) }) :
    Placed start chunks s' := by
  have hl := h.lock p (by rw [hp]; rfl)
  have hgood := h.good p
  rw [hp] at hgood
  obtain ⟨hi, hroom, htot, hoff, hcop⟩ := hgood
  have hchunk := chunk_le buf i
  have hmle : m ≤ chunk buf i - tot ∧ m ≤ BSIZE - off.toNat % BSIZE := by omega
  have hlen : ((buf.drop (i + tot)).take m).length = m := by
    rw [length_take, length_drop]
    omega
  have hbyte : ∀ x, s'.byte x = if off.toNat ≤ x ∧ x < off.toNat + m then
      ((buf.drop (i + tot)).take m).getD (x - off.toNat) 0 else s.byte x := by
    intro x
    have hroom : ((buf.drop (i + tot)).take m).length ≤ BSIZE - off.toNat % BSIZE := by
      rw [hlen]
      exact hmle.2
    have hnew : s'.byte x = _ := byte_splice (s := s) hroom (by rw [hs])
    rwa [hlen] at hnew
  have hoff' : s'.off = s.off := by rw [hs]; rfl
  have hself : s'.pc p = .copy buf i (tot + m) (off + BitVec.ofNat 32 m) := by
    rw [hs]
    exact goto_self s p _
  refine h.write hl (fun q hq => by rw [hs]; exact goto_other s _ hq) hself
    (fun _ => by rw [hs]; exact hl) ⟨hi, ?_, by omega, ?_, fun j hj => ?_⟩ (by rw [hoff']; exact h.off)
    fun j c hj => ?_
  · unfold Room
    rw [hoff']
    exact hroom
  · rw [hoff', BitVec.toNat_add, BitVec.toNat_ofNat]
    unfold Room at hroom
    simp only [MAXFILE, BSIZE, NDIRECT, NINDIRECT] at *
    omega
  · rw [hbyte, hoff']
    by_cases hjt : j < tot
    · rw [if_neg (by omega)]
      exact hcop j hjt
    · rw [if_pos (by omega), getD_eq_getElem?_getD, List.getElem?_take_of_lt (by omega),
        List.getElem?_drop, ← getD_eq_getElem?_getD]
      congr 1
      omega
  · have hjlt := (List.getElem?_eq_some_iff.mp hj).1
    have := h.off
    rw [hbyte, if_neg (by omega)]
    exact h.bytes j c hj

theorem placed_advance {buf : List UInt8} {i k : Nat} (h : Placed start chunks s)
    (hp : s.pc p = .advance buf i (some k))
    (hs : s' = { s.goto p (.unlock buf i (some k)) with off := s.off + BitVec.ofNat 32 k }) (w : Nat) :
    Placed start (chunks ++ [(w, (buf.drop i).take k)]) s' := by
  have hl := h.lock p (by rw [hp]; rfl)
  have hgood := h.good p
  rw [hp] at hgood
  obtain ⟨hi, hk⟩ := hgood
  obtain ⟨rfl, hroom, hcop⟩ := hk k rfl
  have hchunk := chunk_le buf i
  have hlen : ((buf.drop i).take (chunk buf i)).length = chunk buf i := by
    rw [length_take, length_drop]
    omega
  have hflat : (chunks ++ [(w, (buf.drop i).take (chunk buf i))]).flatMap Prod.snd =
      chunks.flatMap Prod.snd ++ (buf.drop i).take (chunk buf i) := by
    rw [flatMap_append]
    simp
  have hbyte : ∀ x, s'.byte x = s.byte x := fun x => by rw [hs]; rfl
  have hself : s'.pc p = .unlock buf i (some (chunk buf i)) := by
    rw [hs]
    exact goto_self s p _
  refine h.write hl (fun q hq => by rw [hs]; exact goto_other s _ hq) hself
    (fun _ => by rw [hs]; exact hl) ⟨hi, fun k hk => (Option.some.inj hk).symm⟩ ?_ fun j c hj => ?_
  · have hoff : s'.off = s.off + BitVec.ofNat 32 (chunk buf i) := by rw [hs]
    have := h.off
    rw [hoff, hflat, length_append, hlen, BitVec.toNat_add, BitVec.toNat_ofNat]
    unfold Room at hroom
    simp only [MAXFILE, BSIZE, NDIRECT, NINDIRECT] at *
    omega
  · rw [hbyte]
    rw [hflat] at hj
    by_cases hjl : j < (chunks.flatMap Prod.snd).length
    · rw [List.getElem?_append_left hjl] at hj
      exact h.bytes j c hj
    · rw [List.getElem?_append_right (by omega)] at hj
      have hlt := (List.getElem?_eq_some_iff.mp hj).1
      rw [hlen] at hlt
      have hb := hcop _ hlt
      rw [List.getElem?_take_of_lt hlt, List.getElem?_drop] at hj
      rw [getD_eq_getElem?_getD, hj, h.off] at hb
      rw [show start + j = start + (chunks.flatMap Prod.snd).length + (j - (chunks.flatMap Prod.snd).length)
        by omega]
      exact hb

theorem known_advance {buf : List UInt8} {i k : Nat} (h : Known bufs chunks who s)
    (hplaced : Placed start chunks s) (hp : s.pc p = .advance buf i (some k))
    (hs : s' = { s.goto p (.unlock buf i (some k)) with off := s.off + BitVec.ofNat 32 k }) :
    Known bufs (chunks ++ [(who p, (buf.drop i).take k)]) who s' := by
  have hgood := hplaced.good p
  rw [hp] at hgood
  obtain ⟨hi, hk⟩ := hgood
  obtain ⟨rfl, -, -⟩ := hk k rfl
  have hchunk := chunk_le buf i
  have hpos := chunk_pos hi
  have hlen : ((buf.drop i).take (chunk buf i)).length = chunk buf i := by
    rw [length_take, length_drop]
    omega
  have hself : s'.pc p = .unlock buf i (some (chunk buf i)) := by
    rw [hs]
    exact goto_self s p _
  have hother : ∀ q, q ≠ p → s'.pc q = s.pc q := fun q hq => by
    rw [hs]
    exact goto_other s _ hq
  have hpout : s.pc p ≠ .out := by
    rw [hp]
    nofun
  have hactive : ∀ q, s'.pc q ≠ .out ↔ s.pc q ≠ .out := by
    intro q
    by_cases hq : q = p
    · rw [hq, hself]
      exact iff_of_true (by nofun) hpout
    · rw [hother q hq]
  obtain ⟨hbuf, hw⟩ := h.record p buf (buf.take i) (by rw [hp]; rfl)
  refine ⟨fun c hc => ?_, fun q hq => h.who_lt q ((hactive q).mp hq),
    fun q r hq hr => h.inj q r ((hactive q).mp hq) ((hactive r).mp hr), fun q buf' w hq => ?_,
    fun n buf' hn hnone => ?_⟩
  · rcases mem_append.mp hc with hc | hc
    · exact h.sizes c hc
    · obtain rfl := mem_singleton.mp hc
      refine ⟨h.who_lt p hpout, ?_, by rw [hlen]; exact hchunk.2⟩
      rw [Ne, ← length_eq_zero_iff, hlen]
      omega
  · rw [pieces_append]
    by_cases hqp : q = p
    · subst hqp
      rw [hself] at hq
      obtain ⟨rfl, rfl⟩ := Prod.mk.inj (Option.some.inj hq)
      rw [if_pos rfl, hw, Option.getD_some, take_add]
      exact ⟨hbuf, rfl⟩
    · rw [hother q hqp] at hq
      have hqout : s.pc q ≠ .out := by
        intro hc
        rw [hc] at hq
        cases hq
      rw [if_neg fun hc => hqp (h.inj q p hqout hpout hc.symm)]
      exact h.record q buf' w hq
  · rw [pieces_append, if_neg (hnone p ((hactive p).mpr hpout))]
    exact h.finished n buf' hn fun q hq => hnone q ((hactive q).mpr hq)

/-- The chunks of the calls `bufs` are in place. -/
def Sound (start : Nat) (bufs : List (List UInt8)) (who : ι → Nat) (s : State ι) : Prop :=
  ∃ chunks, Known bufs chunks who s ∧ Placed start chunks s

theorem Sound.goto {pc : Pc} (h : Sound start bufs who s) (hout : s.pc p ≠ .out) (hpc : pc ≠ .out)
    (hrec : ∀ x, pc.record = some x → (s.pc p).record = some x)
    (hcrit : pc.critical = true → (s.pc p).critical = true) (hgood : (s.pc p).Good s → pc.Good s) :
    Sound start bufs who (s.goto p pc) := by
  obtain ⟨chunks, hk, hpl⟩ := h
  exact ⟨chunks, hk.move (fun q => goto_other s _) (goto_self s p _) hout hpc hrec,
    hpl.move rfl rfl rfl (fun q => goto_other s _) (goto_self s p _) hcrit (hgood (hpl.good p))⟩

theorem sound_lock {buf : List UInt8} {i : Nat} (h : Sound start bufs who s) (hp : s.pc p = .lock buf i)
    (hnone : s.lock = none) : Sound start bufs who { s.goto p (.writei buf i) with lock := some p } := by
  obtain ⟨chunks, hk, hpl⟩ := h
  refine ⟨chunks, hk.move (fun q => goto_other s _) (goto_self s p _) (by rw [hp]; nofun) (by nofun)
    fun x hx => by rw [hp]; exact hx, hpl.off, hpl.bytes, fun q hq => ?_, fun q => ?_⟩
  · by_cases hqp : q = p
    · rw [hqp]
    · have hc : (s.pc q).critical = true := by rwa [← goto_other s (.writei buf i) hqp]
      have := hpl.lock q hc
      rw [hnone] at this
      cases this
  · by_cases hqp : q = p
    · subst hqp
      change ((s.goto q (.writei buf i)).pc q).Good _
      rw [goto_self]
      have := hpl.good q
      rwa [hp] at this
    · change ((s.goto p (.writei buf i)).pc q).Good _
      rw [goto_other s _ hqp]
      refine (hpl.good q).of_not_critical ?_ _
      by_contra hc
      have := hpl.lock q (by simpa using hc)
      rw [hnone] at this
      cases this

theorem sound_unlock {buf : List UInt8} {i : Nat} {r : Option Nat} (h : Sound start bufs who s)
    (hp : s.pc p = .unlock buf i r) : Sound start bufs who { s.goto p (.endOp buf i r) with lock := none } := by
  obtain ⟨chunks, hk, hpl⟩ := h
  have hgood := hpl.good p
  rw [hp] at hgood
  exact ⟨chunks, hk.move (fun q => goto_other s _) (goto_self s p _) (by rw [hp]; nofun) (by nofun)
    fun x hx => by rw [hp]; exact hx, hpl.write (hpl.lock p (by rw [hp]; rfl)) (fun q => goto_other s _)
      (goto_self s p _) (by nofun) hgood hpl.off hpl.bytes⟩

theorem writei_room {n : Nat} {off size : BitVec 32} (hn : n ≤ MAXCHUNK)
    (h1 : ¬ (size < off ∨ off + BitVec.ofNat 32 n < off))
    (h2 : ¬ BitVec.ofNat 32 (MAXFILE * BSIZE) < off + BitVec.ofNat 32 n) :
    off.toNat + n ≤ MAXFILE * BSIZE := by
  have hmax : MAXFILE * BSIZE = 71680 := rfl
  have hchunk : MAXCHUNK = 1536 := rfl
  have hlt := off.isLt
  rw [hmax] at h2 ⊢
  simp only [not_or, BitVec.not_lt, BitVec.le_def, BitVec.toNat_add, BitVec.toNat_ofNat] at h1 h2
  omega

theorem sound_grow {buf : List UInt8} {i : Nat} {off : BitVec 32} (size : BitVec 32)
    (h : Sound start bufs who s) (hp : s.pc p = .grow buf i off) :
    Sound start bufs who { s.goto p (.advance buf i (some (chunk buf i))) with size := size } := by
  obtain ⟨chunks, hk, hpl⟩ := h
  have hgood := hpl.good p
  rw [hp] at hgood
  obtain ⟨hi, hroom, hcop⟩ := hgood
  refine ⟨chunks, hk.move (fun q => goto_other s _) (goto_self s p _) (by rw [hp]; nofun) (by nofun)
    fun x hx => by rw [hp]; exact hx, hpl.move rfl rfl rfl (fun q => goto_other s _) (goto_self s p _)
      (fun _ => by rw [hp]; rfl) ⟨hi, ?_⟩⟩
  rintro k hk
  obtain rfl := Option.some.inj hk
  exact ⟨rfl, hroom, hcop⟩

theorem sound_copy {buf : List UInt8} {i tot m : Nat} {off : BitVec 32} (h : Sound start bufs who s)
    (hp : s.pc p = .copy buf i tot off) (hm : m = min (chunk buf i - tot) (BSIZE - off.toNat % BSIZE)) :
    Sound start bufs who { s.goto p (.copy buf i (tot + m) (off + BitVec.ofNat 32 m)) with
      blocks := update s.blocks (off.toNat / BSIZE)
        (some (splice (s.bmap (off.toNat / BSIZE)) (off.toNat % BSIZE) ((buf.drop (i + tot)).take m))) } := by
  obtain ⟨chunks, hk, hpl⟩ := h
  exact ⟨chunks, hk.move (fun q => goto_other s _) (goto_self s p _) (by rw [hp]; nofun) (by nofun)
    fun x hx => by rw [hp]; exact hx, placed_copy hpl hp hm rfl⟩

theorem sound_advance {buf : List UInt8} {i k : Nat} (h : Sound start bufs who s)
    (hp : s.pc p = .advance buf i (some k)) :
    Sound start bufs who { s.goto p (.unlock buf i (some k)) with off := s.off + BitVec.ofNat 32 k } := by
  obtain ⟨chunks, hk, hpl⟩ := h
  exact ⟨_, known_advance hk hpl hp rfl, placed_advance hpl hp rfl (who p)⟩

theorem sound_step (h : Sound start bufs who s) (hs : step s p = some s') : Sound start bufs who s' := by
  have hgood : (s.pc p).Good s := h.choose_spec.2.good p
  unfold step at hs
  cases hp : s.pc p with
  | out => rw [hp] at hs; cases hs
  | ret buf r => rw [hp] at hs; cases hs
  | loop buf i =>
    rw [hp] at hs hgood
    dsimp only at hs
    split at hs
    · next hlt =>
      obtain rfl := Option.some.inj hs
      exact h.goto (by rw [hp]; nofun) (by nofun) (fun x hx => by rw [hp]; exact hx) (by nofun) fun _ => hlt
    · next hlt =>
      obtain rfl := Option.some.inj hs
      have heq : i = buf.length := Nat.le_antisymm hgood (by omega)
      refine h.goto (by rw [hp]; nofun) (by nofun) (fun x hx => ?_) (by nofun) fun _ => trivial
      rw [if_pos heq] at hx
      rw [hp, ← hx, Pc.record, Pc.record, heq, take_length]
  | begin buf i =>
    rw [hp] at hs
    obtain rfl := Option.some.inj hs
    exact h.goto (by rw [hp]; nofun) (by nofun) (fun x hx => by rw [hp]; exact hx) (by nofun)
      fun hg => by rwa [hp] at hg
  | lock buf i =>
    rw [hp] at hs
    dsimp only at hs
    split at hs
    · next hnone =>
      obtain rfl := Option.some.inj hs
      exact sound_lock h hp (Option.isNone_iff_eq_none.mp hnone)
    · cases hs
  | writei buf i =>
    rw [hp] at hs hgood
    dsimp only at hs
    have hfail : Sound start bufs who (s.goto p (.advance buf i none)) :=
      h.goto (by rw [hp]; nofun) (by nofun) (fun x hx => by rw [hp]; exact hx) (fun _ => by rw [hp]; rfl)
        fun _ => ⟨hgood, by nofun⟩
    split at hs
    · obtain rfl := Option.some.inj hs
      exact hfail
    · next h1 =>
      split at hs
      · obtain rfl := Option.some.inj hs
        exact hfail
      · next h2 =>
        obtain rfl := Option.some.inj hs
        exact h.goto (by rw [hp]; nofun) (by nofun) (fun x hx => by rw [hp]; exact hx)
          (fun _ => by rw [hp]; rfl) fun _ => ⟨hgood, writei_room (chunk_le buf i).2 h1 h2, Nat.zero_le _, rfl,
            by nofun⟩
  | copy buf i tot off =>
    rw [hp] at hs hgood
    dsimp only at hs
    split at hs
    · obtain rfl := Option.some.inj hs
      exact sound_copy h hp rfl
    · next hlt =>
      obtain rfl := Option.some.inj hs
      obtain ⟨hi, hroom, htot, -, hcop⟩ := hgood
      obtain rfl : tot = chunk buf i := by omega
      exact h.goto (by rw [hp]; nofun) (by nofun) (fun x hx => by rw [hp]; exact hx) (fun _ => by rw [hp]; rfl)
        fun _ => ⟨hi, hroom, hcop⟩
  | grow buf i off =>
    rw [hp] at hs
    dsimp only at hs
    split at hs
    · obtain rfl := Option.some.inj hs
      exact sound_grow off h hp
    · obtain rfl := Option.some.inj hs
      exact sound_grow s.size h hp
  | advance buf i r =>
    rw [hp] at hs hgood
    cases r with
    | none =>
      obtain rfl := Option.some.inj hs
      exact h.goto (by rw [hp]; nofun) (by nofun) (fun x hx => by rw [hp]; exact hx) (fun _ => by rw [hp]; rfl)
        fun _ => ⟨hgood.1, by nofun⟩
    | some k =>
      dsimp only at hs
      split at hs
      · obtain rfl := Option.some.inj hs
        exact sound_advance h hp
      · next hk =>
        have := chunk_pos hgood.1
        have := (hgood.2 k rfl).1
        omega
  | unlock buf i r =>
    rw [hp] at hs
    obtain rfl := Option.some.inj hs
    exact sound_unlock h hp
  | endOp buf i r =>
    rw [hp] at hs
    obtain rfl := Option.some.inj hs
    exact h.goto (by rw [hp]; nofun) (by nofun) (fun x hx => by rw [hp]; exact hx) (by nofun)
      fun hg => by rwa [hp] at hg
  | test buf i r =>
    rw [hp] at hs hgood
    cases r with
    | none =>
      obtain rfl := Option.some.inj hs
      have hne : i ≠ buf.length := Nat.ne_of_lt hgood.1
      refine h.goto (by rw [hp]; nofun) (by nofun) (fun x hx => ?_) (by nofun) fun _ => trivial
      rw [if_neg hne] at hx
      cases hx
    | some k =>
      dsimp only at hs
      split at hs
      · next hk =>
        obtain rfl := Option.some.inj hs
        have hle := chunk_le buf i
        exact h.goto (by rw [hp]; nofun) (by nofun) (fun x hx => by rw [hp]; exact hx) (by nofun)
          fun _ => show i + k ≤ buf.length by
            have := hgood.1
            omega
      · cases hs

/-! ## Runs -/

/-- The strings of the calls of a run, in the order of the calls. -/
def callsOf (tr : List (State ι × Act ι)) : List (List UInt8) :=
  (tr.map Prod.snd).filterMap fun
    | .call _ buf => some buf
    | _ => none

/-- A call that returns has returned its `n`. -/
def ReturnsAll (s : State ι) : Act ι → Prop
  | .ret p => match s.pc p with
    | .ret buf r => r = some buf.length
    | _ => False
  | _ => True

instance (s : State ι) (a : Act ι) : Decidable (ReturnsAll s a) := by
  unfold ReturnsAll
  split
  · split <;> infer_instance
  · infer_instance

theorem sound_call {buf : List UInt8} (h : Sound start bufs who s) (hp : s.pc p = .out) :
    Sound start (bufs ++ [buf]) (update who p bufs.length) (s.goto p (.loop buf 0)) := by
  obtain ⟨chunks, hk, hpl⟩ := h
  have hlt : ∀ q, q ≠ p → (s.goto p (.loop buf 0)).pc q ≠ .out → who q < bufs.length := by
    intro q hq hout
    rw [goto_other s _ hq] at hout
    exact hk.who_lt q hout
  have hwho : ∀ q, q ≠ p → update who p bufs.length q = who q :=
    fun q hq => update_of_ne hq _ _
  have hlast : (bufs ++ [buf])[bufs.length]? = some buf := by simp
  have hnew : pieces chunks bufs.length = [] :=
    pieces_of_none fun c hc => Nat.ne_of_lt (hk.sizes c hc).1
  refine ⟨chunks, ⟨fun c hc => ?_, fun q hq => ?_, fun q r hq hr heq => ?_, fun q buf' w hq => ?_,
    fun k buf' hkb hnone => ?_⟩, hpl.move rfl rfl rfl (fun q => goto_other s _) (goto_self s p _) (by nofun)
      (Nat.zero_le _)⟩
  · obtain ⟨h1, h2⟩ := hk.sizes c hc
    exact ⟨by rw [length_append]; omega, h2⟩
  · rw [length_append, length_singleton]
    by_cases hqp : q = p
    · rw [hqp, update_self]
      omega
    · rw [hwho q hqp]
      have := hlt q hqp hq
      omega
  · by_cases hqp : q = p <;> by_cases hrp : r = p
    · rw [hqp, hrp]
    · rw [hqp, update_self, hwho r hrp] at heq
      have := hlt r hrp hr
      omega
    · rw [hrp, update_self, hwho q hqp] at heq
      have := hlt q hqp hq
      omega
    · rw [hwho q hqp, hwho r hrp] at heq
      rw [goto_other s _ hqp] at hq
      rw [goto_other s _ hrp] at hr
      exact hk.inj q r hq hr heq
  · by_cases hqp : q = p
    · subst hqp
      rw [goto_self] at hq
      obtain ⟨rfl, rfl⟩ := Prod.mk.inj (Option.some.inj hq)
      rw [update_self]
      exact ⟨hlast, by simpa using hnew⟩
    · rw [hwho q hqp]
      have hout : (s.goto p (.loop buf 0)).pc q ≠ .out := by
        intro hc
        rw [hc] at hq
        cases hq
      rw [List.getElem?_append_left (hlt q hqp hout)]
      rw [goto_other s _ hqp] at hq
      exact hk.record q buf' w hq
  · have hne : k ≠ bufs.length := by
      rintro rfl
      have := hnone p (by rw [goto_self]; nofun)
      rw [update_self] at this
      exact this rfl
    have hklt := (List.getElem?_eq_some_iff.mp hkb).1
    rw [length_append, length_singleton] at hklt
    rw [List.getElem?_append_left (by omega)] at hkb
    refine hk.finished k buf' hkb fun q hq => ?_
    have hqp : q ≠ p := by
      rintro rfl
      exact hq hp
    have := hnone q (by rw [goto_other s _ hqp]; exact hq)
    rwa [hwho q hqp] at this

theorem sound_ret {buf : List UInt8} (h : Sound start bufs who s)
    (hp : s.pc p = .ret buf (some buf.length)) : Sound start bufs who (s.goto p .out) := by
  obtain ⟨chunks, hk, hpl⟩ := h
  have hback : ∀ q, (s.goto p .out).pc q ≠ .out → q ≠ p ∧ s.pc q ≠ .out := by
    intro q hq
    have hqp : q ≠ p := by
      rintro rfl
      exact hq (goto_self s q _)
    rw [goto_other s _ hqp] at hq
    exact ⟨hqp, hq⟩
  refine ⟨chunks, ⟨hk.sizes, fun q hq => hk.who_lt q (hback q hq).2,
    fun q r hq hr => hk.inj q r (hback q hq).2 (hback r hr).2, fun q buf' w hq => ?_,
    fun k buf' hkb hnone => ?_⟩, hpl.move rfl rfl rfl (fun q => goto_other s _) (goto_self s p _) (by nofun)
      trivial⟩
  · by_cases hqp : q = p
    · rw [hqp, goto_self] at hq
      cases hq
    · rw [goto_other s _ hqp] at hq
      exact hk.record q buf' w hq
  · by_cases hkp : who p = k
    · obtain ⟨h1, h2⟩ := hk.record p buf buf (by rw [hp]; rfl)
      rw [hkp] at h1 h2
      rw [h2]
      exact Option.some.inj (h1.symm.trans hkb)
    · refine hk.finished k buf' hkb fun q hq => ?_
      by_cases hqp : q = p
      · rw [hqp]
        exact hkp
      · exact hnone q (by rw [goto_other s _ hqp]; exact hq)

theorem sound_run {off size : BitVec 32} {blocks : Nat → Option Block} {tr : List (State ι × Act ι)}
    (hrun : Path (Next next) (init off size blocks) tr s) (hret : Meets ReturnsAll tr) :
    ∃ who, Sound off.toNat (callsOf tr) who s := by
  induction hrun with
  | nil =>
    refine ⟨fun _ => 0, [], ⟨by simp, fun p hp => absurd rfl hp, fun p q hp => absurd rfl hp, by nofun, ?_⟩,
      by simp [init], by simp, by nofun, fun _ => trivial⟩
    simp [callsOf]
  | @snoc s s' tr a _ hstep ih =>
    rw [meets_snoc] at hret
    obtain ⟨who, h⟩ := ih hret.1
    cases a with
    | call p buf =>
      have hp : s.pc p = .out := by
        cases hpc : s.pc p <;> simp only [Next, next, hpc] at hstep <;> first | rfl | cases hstep
      simp only [Next, next, hp] at hstep
      obtain rfl := Option.some.inj hstep
      refine ⟨update who p (callsOf tr).length, ?_⟩
      rw [callsOf, map_append, filterMap_append]
      exact sound_call h hp
    | step p =>
      refine ⟨who, ?_⟩
      rw [callsOf, map_append, filterMap_append, map_singleton, filterMap_cons_none rfl,
        filterMap_nil, append_nil]
      exact sound_step h hstep
    | ret p =>
      obtain ⟨buf, hp⟩ : ∃ buf, s.pc p = .ret buf (some buf.length) := by
        have hr := hret.2
        cases hp : s.pc p <;> simp only [ReturnsAll, hp] at hr
        exact ⟨_, by rw [hr]⟩
      simp only [Next, next, hp] at hstep
      obtain rfl := Option.some.inj hstep
      refine ⟨who, ?_⟩
      rw [callsOf, map_append, filterMap_append, map_singleton, filterMap_cons_none rfl,
        filterMap_nil, append_nil]
      exact sound_ret h hp

/-- The region from the first offset on is an interleaving of the strings in chunks of at most 1536
bytes, and the offset is behind it. -/
theorem shared_writes_interleave {off size : BitVec 32} {blocks : Nat → Option Block}
    {tr : List (State ι × Act ι)} (hrun : Path (Next next) (init off size blocks) tr s)
    (hret : Meets ReturnsAll tr) (hout : ∀ p, s.pc p = .out) :
    MAXCHUNK = 1536 ∧ ∃ chunks, Interleaving (callsOf tr) chunks ∧
      s.off.toNat = off.toNat + ((callsOf tr).map List.length).sum ∧
      ∀ j c, (chunks.flatMap Prod.snd)[j]? = some c → s.byte (off.toNat + j) = c := by
  obtain ⟨who, chunks, hk, hpl⟩ := sound_run hrun hret
  have hint : Interleaving (callsOf tr) chunks :=
    ⟨hk.sizes, fun k buf hkb => hk.finished k buf hkb fun p hp => absurd (hout p) hp⟩
  exact ⟨rfl, chunks, hint, by rw [← hint.length]; exact hpl.off, hpl.bytes⟩

/-- Two processes write at the same time. -/
def twoWrites : List (Act Bool) :=
  [.call true [1, 2], .call false [3], .step true, .step false] ++ List.replicate 11 (.step false) ++
    [.ret false] ++ List.replicate 11 (.step true) ++ [.ret true]

theorem shared_writes_of_two : ∃ (tr : List (State Bool × Act Bool)) (s : State Bool) (chunks : _),
    Path (Next next) (init 0 0 fun _ => none) tr s ∧ Interleaving [[1, 2], [3]] chunks ∧ s.off.toNat = 3 ∧
      ∀ j c, (chunks.flatMap Prod.snd)[j]? = some c → s.byte j = c := by
  have hrun : (follow next (init 0 0 fun _ => none) twoWrites).map (fun s => (s.pc true, s.pc false)) =
      some (.out, .out) := by decide +kernel
  have hret : ∀ x ∈ visited next (init 0 0 fun _ => none) twoWrites, ReturnsAll x.1 x.2 := by decide +kernel
  obtain ⟨s, hs, hpc⟩ := Option.map_eq_some_iff.mp hrun
  obtain ⟨hpath, htr⟩ := path_visited hs
  obtain ⟨-, chunks, hint, hoff, hbytes⟩ := shared_writes_interleave hpath hret fun
    | true => (Prod.mk.inj hpc).1
    | false => (Prod.mk.inj hpc).2
  have hcalls : callsOf (visited next (init 0 0 fun _ => none) twoWrites) = [[1, 2], [3]] := by
    rw [callsOf, htr]
    rfl
  rw [hcalls] at hint hoff
  exact ⟨_, s, chunks, hpath, hint, hoff, fun j c hj => by simpa using hbytes j c hj⟩

end Xv6.FileWrite
