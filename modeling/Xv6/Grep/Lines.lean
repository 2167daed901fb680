import Xv6.Grep.Match

/-!
# The lines that `grep` prints

`grep` keeps the part of a line that a read ended in at the beginning of its buffer. A read that brings no
newline at all makes it forget what it has.
-/

open List

namespace Xv6.Grep

/-! ## The code -/

def nl : UInt8 := '\n'.toUInt8

/-- `strchr` of `ulib.c`, as an index. -/
def strchr : List UInt8 → UInt8 → Option Nat
  | [], _ => none
  | x :: s, c => if x = 0 then none else if x = c then some 0 else (strchr s c).map (· + 1)

theorem strchr_lt {s : List UInt8} {c : UInt8} {q : Nat} (h : strchr s c = some q) : q < s.length := by
  induction s generalizing q with
  | nil => cases h
  | cons x s ih =>
    rw [strchr] at h
    split at h
    · cases h
    · split at h
      · cases h
        exact Nat.succ_pos _
      · obtain ⟨q', hq, rfl⟩ := Option.map_eq_some_iff.mp h
        exact Nat.succ_lt_succ (ih hq)

/-- The loop over the newlines in the buffer from `p` on: what it writes, and where it leaves `p`. -/
def lines (pattern p : List UInt8) : List UInt8 × List UInt8 :=
  match h : strchr p nl with
  | none => ([], p)
  | some q =>
    have : (p.drop (q + 1)).length < p.length := by
      have := strchr_lt h
      rw [List.length_drop]
      omega
    let r := lines pattern (p.drop (q + 1))
    ((if reMatch pattern (p.take q) then p.take (q + 1) else []) ++ r.1, r.2)
termination_by p.length

/-- The bytes that stay in the buffer when the loop has left `p`. -/
def kept (buf p : List UInt8) : List UInt8 :=
  -- `if(p == buf) m = 0;`
  if p.length = buf.length then [] else p

/-- `grep`: what it writes when the buffer holds `held` and the reads return the pieces, then 0. -/
def grep (pattern held : List UInt8) : List (List UInt8) → List UInt8
  | [] => []
  | piece :: pieces =>
    if piece = [] then []
    else
      let r := lines pattern (held ++ piece)
      r.1 ++ grep pattern (kept (held ++ piece) r.2) pieces

def sizeofBuf : Nat := 1024

/-- Every read returns something, and no more than the `sizeof(buf)-m-1` bytes asked for. -/
def Served (pattern held : List UInt8) : List (List UInt8) → Prop
  | [] => True
  | piece :: pieces =>
    piece ≠ [] ∧ piece.length ≤ sizeofBuf - held.length - 1 ∧
    Served pattern (kept (held ++ piece) (lines pattern (held ++ piece)).2) pieces

/-- The lines of a stream that the pattern matches, each with its newline. What is behind the last newline
is no line. -/
def wanted (pattern stream : List UInt8) : List UInt8 :=
  ((stream.splitOn nl).dropLast.filter (reMatch pattern)).flatMap (· ++ [nl])

/-! ## One buffer -/

variable {pattern s p : List UInt8} {c : UInt8} {q : Nat}

theorem strchr_eq_none (hs : 0 ∉ s) (h : strchr s c = none) : c ∉ s := by
  induction s with
  | nil => exact not_mem_nil
  | cons x s ih =>
    rw [mem_cons, not_or] at hs
    rw [strchr, if_neg (Ne.symm hs.1)] at h
    split at h
    · cases h
    · next hx =>
      rw [mem_cons, not_or]
      exact ⟨Ne.symm hx, ih hs.2 (Option.map_eq_none_iff.mp h)⟩

theorem strchr_eq_some (h : strchr s c = some q) : s.take (q + 1) = s.take q ++ [c] ∧ c ∉ s.take q := by
  induction s generalizing q with
  | nil => cases h
  | cons x s ih =>
    rw [strchr] at h
    split at h
    · cases h
    · split at h
      · next hx =>
        cases h
        rw [hx]
        exact ⟨rfl, not_mem_nil⟩
      · next hx =>
        obtain ⟨q', hq, rfl⟩ := Option.map_eq_some_iff.mp h
        obtain ⟨hs, hc⟩ := ih hq
        rw [take_succ_cons, take_succ_cons, hs, mem_cons, not_or]
        exact ⟨rfl, Ne.symm hx, hc⟩

theorem lines_of_no_newline (h : nl ∉ p) : lines pattern p = ([], p) := by
  rw [lines]
  split
  · rfl
  · next q hq =>
    refine absurd (mem_of_mem_take (i := q + 1) ?_) h
    rw [(strchr_eq_some hq).1]
    exact mem_append_right _ mem_cons_self

theorem wanted_of_no_newline (h : nl ∉ s) : wanted pattern s = [] := by
  rw [wanted, splitOn_eq_singleton h]
  rfl

theorem wanted_line (hs : nl ∉ s) : wanted pattern (s ++ nl :: p) =
    (if reMatch pattern s then s ++ [nl] else []) ++ wanted pattern p := by
  rw [wanted, wanted, splitOn_append_cons_self, splitOn_eq_singleton hs,
    dropLast_append_of_ne_nil (splitOn_ne_nil _ _), singleton_append, filter_cons]
  split <;> rfl

theorem lines_spec (pattern : List UInt8) (hp : 0 ∉ p) (rest : List UInt8) :
    wanted pattern (p ++ rest) = (lines pattern p).1 ++ wanted pattern ((lines pattern p).2 ++ rest) ∧
    nl ∉ (lines pattern p).2 ∧ (lines pattern p).2 <:+ p := by
  fun_induction lines pattern p with
  | case1 p h => exact ⟨rfl, strchr_eq_none hp h, suffix_refl p⟩
  | case2 p q h hlt r ih =>
    obtain ⟨hline, hfree⟩ := strchr_eq_some h
    obtain ⟨hw, hn, hsuf⟩ := ih fun h0 => hp (mem_of_mem_drop h0)
    have heq : p ++ rest = p.take q ++ nl :: (p.drop (q + 1) ++ rest) := by
      conv_lhs => rw [← take_append_drop (q + 1) p, hline]
      simp
    refine ⟨?_, hn, hsuf.trans (drop_suffix _ _)⟩
    rw [heq, wanted_line hfree, hw, ← hline, ← append_assoc]

/-! ## The reads -/

variable {held : List UInt8} {front back : List (List UInt8)}

theorem grep_cons (piece : List UInt8) : grep pattern held (piece :: back) = if piece = [] then []
    else (lines pattern (held ++ piece)).1 ++
      grep pattern (kept (held ++ piece) (lines pattern (held ++ piece)).2) back := rfl

theorem grep_of_no_newline (hheld : nl ∉ held) (hback : ∀ piece ∈ back, nl ∉ piece) : grep pattern held back = [] := by
  induction back generalizing held with
  | nil => rfl
  | cons piece back ih =>
    have hbuf : nl ∉ held ++ piece := by
      simpa [hheld] using hback piece mem_cons_self
    rw [grep_cons, lines_of_no_newline hbuf, kept, if_pos rfl]
    split
    · rfl
    · exact ih not_mem_nil fun p hp => hback p (mem_cons_of_mem _ hp)

/-- With a newline in each of the first reads and in no later one, the lines are written. What the buffer
holds is the beginning of the next line. -/
theorem grep_spec (hheld : nl ∉ held) (hheld0 : 0 ∉ held) (hnul : ∀ piece ∈ front ++ back, 0 ∉ piece)
    (hfront : ∀ piece ∈ front, nl ∈ piece) (hback : ∀ piece ∈ back, nl ∉ piece) :
    grep pattern held (front ++ back) = wanted pattern (held ++ (front ++ back).flatten) := by
  induction front generalizing held with
  | nil =>
    rw [nil_append, grep_of_no_newline hheld hback, wanted_of_no_newline]
    simpa [hheld] using hback
  | cons piece front ih =>
    have hnl := hfront piece mem_cons_self
    have hbuf : 0 ∉ held ++ piece := by
      simpa [hheld0] using hnul piece (by simp)
    obtain ⟨hw, hn, hsuf⟩ := lines_spec pattern hbuf (front ++ back).flatten
    -- The newline is behind `p`, so `p` is not at the beginning of the buffer.
    have hmoved : (lines pattern (held ++ piece)).2.length ≠ (held ++ piece).length := fun hc => by
      rw [hsuf.eq_of_length hc] at hn
      exact hn (by simp [hnl])
    rw [cons_append, grep_cons, if_neg (ne_nil_of_mem hnl), kept, if_neg hmoved,
      ih hn (fun h => hbuf (hsuf.mem h)) (fun p hp => hnul p (mem_cons_of_mem _ hp))
        fun p hp => hfront p (mem_cons_of_mem _ hp),
      flatten_cons, ← append_assoc, hw]

theorem reMatch_nil : reMatch [] s = true := by
  rw [reMatch, if_neg (by decide), matchLoop, if_pos matchhere_nil]

end Xv6.Grep
