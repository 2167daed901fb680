import Xv6.Lib.Chain
import Xv6.Lib.Run
import Xv6.Param

/-!
# The disk driver

`iderw` and `ideintr` of `ide.c`. Processes put their buffers at the end of `idequeue`; the disk works on
the first one. What a process does with `idelock` held is one step, and so is the interrupt handler. The
contents of a block are of any type.
-/

open Xv6.Link Xv6.Run Function List

namespace Xv6.Ide

variable {β : Type}

/-! ## The code -/

structure Buf (β : Type) where
  valid : Bool
  dirty : Bool
  dev : Nat
  blockno : Nat
  data : β

/-- What the disk is told: a drive, a block, and what to write. -/
structure Cmd (β : Type) where
  drive : Nat
  blockno : Nat
  write : Option β

/-- The kernel and the disk. The last three fields only record what happened: the buffers that came to
`iderw`, those that were started and those that `ideintr` took from the queue. -/
structure State (β : Type) where
  buf : Fin NBUF → Buf β
  qnext : Fin NBUF → Option (Fin NBUF)
  idequeue : Option (Fin NBUF)
  havedisk1 : Bool
  /-- The buffer of a process that is in `iderw`. -/
  proc : Fin NPROC → Option (Fin NBUF)
  disk : Nat → Nat → β
  /-- The commands that the disk has got and not carried out. -/
  running : List (Cmd β)
  /-- The interrupts to come, each with the block that the disk has ready. -/
  pending : List β
  arrived : List (Fin NBUF)
  started : List (Fin NBUF)
  served : List (Fin NBUF)

/-- The loop of `iderw` ends when `B_VALID` is set and `B_DIRTY` is not. -/
def Buf.Done (b : Buf β) : Prop := b.valid = true ∧ b.dirty = false

instance (b : Buf β) : Decidable b.Done := inferInstanceAs (Decidable (_ ∧ _))

/-- The drive is `b->dev&1`. -/
def Buf.cmd (b : Buf β) : Cmd β := ⟨b.dev % 2, b.blockno, if b.dirty then some b.data else none⟩

/-- `idestart`. It panics for a block that the disk does not have. -/
def idestart (s : State β) (b : Fin NBUF) : Option (State β) :=
  if FSSIZE ≤ (s.buf b).blockno then none
  else some { s with running := s.running ++ [(s.buf b).cmd], started := s.started ++ [b] }

def State.enter (s : State β) (p : Fin NPROC) (b : Fin NBUF)
    (q : (Fin NBUF → Option (Fin NBUF)) × Option (Fin NBUF)) : State β :=
  { s with qnext := q.1, idequeue := q.2, proc := Function.update s.proc p (some b), arrived := s.arrived ++ [b] }

/-- `iderw` up to its loop. It is called with a buffer that no other process has locked, and panics when there
is nothing to do or no such disk. -/
def iderw (s : State β) (p : Fin NPROC) (b : Fin NBUF) : Option (State β) :=
  if s.proc p ≠ none ∨ ∃ q, s.proc q = some b then none
  else if (s.buf b).Done then none
  else if (s.buf b).dev ≠ 0 ∧ s.havedisk1 = false then none
  else (enqueue s.qnext NBUF s.idequeue b).bind fun q =>
    if q.2 = some b then idestart (s.enter p b q) b else some (s.enter p b q)

/-- The buffer after its transfer. What the disk has ready is read unless the buffer was written. -/
def Buf.finish (b : Buf β) (x : β) : Buf β :=
  { b with valid := true, dirty := false, data := if b.dirty then b.data else x }

def State.leave (s : State β) (b : Fin NBUF) (x : β) (rest : List β) : State β :=
  { s with idequeue := s.qnext b, buf := Function.update s.buf b ((s.buf b).finish x), pending := rest,
           served := s.served ++ [b] }

/-- `ideintr`, for the first interrupt to come. -/
def ideintr (s : State β) : Option (State β) :=
  match s.pending with
  | [] => none
  | x :: rest =>
    match s.idequeue with
    | none => some { s with pending := rest }
    | some b =>
      match s.qnext b with
      | none => some (s.leave b x rest)
      | some c => idestart (s.leave b x rest) c

/-- The block that a command leaves on the disk. -/
def State.result (s : State β) (c : Cmd β) : β := c.write.getD (s.disk c.drive c.blockno)

/-- The disk carries out its first command. -/
def complete (s : State β) : Option (State β) :=
  match s.running with
  | [] => none
  | c :: rest =>
    some { s with
      running := rest
      disk := Function.update s.disk c.drive (Function.update (s.disk c.drive) c.blockno (s.result c))
      pending := s.pending ++ [s.result c] }

inductive Label (β : Type)
  | iderw (p : Fin NPROC) (b : Fin NBUF)
  /-- A process in `iderw` wakes up, and returns if its buffer is done. -/
  | wake (p : Fin NPROC)
  | complete
  | ideintr
  /-- A buffer that is in no `iderw` is used. -/
  | use (b : Fin NBUF) (x : Buf β)

def next (s : State β) : Label β → Option (State β)
  | .iderw p b => iderw s p b
  | .wake p =>
    match s.proc p with
    | none => none
    | some b => if (s.buf b).Done then some { s with proc := Function.update s.proc p none } else none
  | .complete => complete s
  | .ideintr => ideintr s
  | .use b x => if ∃ q, s.proc q = some b then none else some { s with buf := Function.update s.buf b x }

/-- Nobody is in `iderw` and the disk has nothing to do. -/
structure Fresh (s : State β) : Prop where
  idequeue : s.idequeue = none
  proc : ∀ p, s.proc p = none
  running : s.running = []
  pending : s.pending = []
  arrived : s.arrived = []
  started : s.started = []
  served : s.served = []

/-! ## The queue -/

variable {s s' : State β} {Q : List (Fin NBUF)} {b : Fin NBUF} {p : Fin NPROC} {x : β} {l : Label β}

/-- Where a buffer's block is. -/
def Buf.place (b : Buf β) : Nat × Nat := (b.dev % 2, b.blockno)

/-- The block of a buffer on the disk. -/
def State.block (s : State β) (b : Fin NBUF) : β := s.disk (s.buf b).place.1 (s.buf b).place.2

/-- The disk works on the first buffer: it has its command, or has carried it out. -/
def Working (s : State β) : List (Fin NBUF) → Prop
  | [] => s.running = [] ∧ s.pending = []
  | b :: _ => s.running = [(s.buf b).cmd] ∧ s.pending = [] ∨
      s.running = [] ∧ s.pending = [s.block b] ∧ ((s.buf b).dirty = true → (s.buf b).data = s.block b)

/-- The buffers in the queue are `Q`. -/
structure Inv (s : State β) (Q : List (Fin NBUF)) : Prop where
  chain : Chain s.qnext s.idequeue Q
  arrived : s.arrived = s.served ++ Q
  started : s.started = s.served ++ Q.take 1
  working : Working s Q
  queued : ∀ b ∈ Q, (∃ p, s.proc p = some b) ∧ ¬ (s.buf b).Done
  waiting : ∀ p b, s.proc p = some b → b ∈ Q ∨ (s.buf b).Done

theorem inv_fresh (h : Fresh s) : Inv s [] where
  chain := h.idequeue
  arrived := by rw [h.arrived, h.served]; rfl
  started := by rw [h.started, h.served]; rfl
  working := ⟨h.running, h.pending⟩
  queued b hb := by cases hb
  waiting p b hp := by rw [h.proc] at hp; cases hp

theorem idestart_some (h : idestart s b = some s') :
    s' = { s with running := s.running ++ [(s.buf b).cmd], started := s.started ++ [b] } := by
  unfold idestart at h
  split at h
  · cases h
  · exact (Option.some.inj h).symm

theorem inv_iderw (h : Inv s Q) (hs : iderw s p b = some s') : Inv s' (Q ++ [b]) ∧ ¬ (s.buf b).Done ∧
    s'.buf = s.buf ∧ s'.disk = s.disk ∧ s'.proc = update s.proc p (some b) := by
  unfold iderw at hs
  split at hs
  · cases hs
  next huse =>
  split at hs
  · cases hs
  next hdone =>
  split at hs
  · cases hs
  rw [not_or, not_exists, not_not] at huse
  have hb : b ∉ Q := fun hc => (h.queued b hc).1.elim fun q hq => huse.2 q hq
  have hlen : Q.length ≤ NBUF := by simpa using h.chain.nodup.length_le_card
  obtain ⟨links, head, henq, hchain, hhead⟩ := enqueue_chain h.chain hb hlen
  rw [henq, Option.bind_some] at hs
  -- The queue of the new state, and who waits there.
  have hqueued : ∀ c ∈ Q ++ [b], (∃ q, update s.proc p (some b) q = some c) ∧ ¬ (s.buf c).Done := by
    intro c hc
    rcases mem_append.mp hc with hc | hc
    · obtain ⟨⟨q, hq⟩, hnd⟩ := h.queued c hc
      have hne : q ≠ p := fun e => by rw [e, huse.1] at hq; cases hq
      exact ⟨⟨q, by rw [update_of_ne hne]; exact hq⟩, hnd⟩
    · rw [mem_singleton.mp hc]
      exact ⟨⟨p, update_self ..⟩, hdone⟩
  have hwaiting : ∀ q c, update s.proc p (some b) q = some c → c ∈ Q ++ [b] ∨ (s.buf c).Done := by
    intro q c hq
    by_cases hqp : q = p
    · rw [hqp, update_self] at hq
      exact .inl (by simp [Option.some.inj hq])
    · rw [update_of_ne hqp] at hq
      exact (h.waiting q c hq).imp_left (mem_append_left _)
  have harrived : s.arrived ++ [b] = s.served ++ (Q ++ [b]) := by rw [h.arrived, append_assoc]
  cases Q with
  | nil =>
    rw [if_pos (hhead.mpr rfl)] at hs
    rw [idestart_some hs]
    obtain ⟨hrun, hpend⟩ := h.working
    refine ⟨⟨hchain, harrived, ?_, .inl ⟨?_, hpend⟩, hqueued, hwaiting⟩, hdone, rfl, rfl, rfl⟩
    · exact congrArg (· ++ [b]) (h.started.trans (append_nil _))
    · exact congrArg (· ++ [(s.buf b).cmd]) hrun
  | cons c Q =>
    rw [if_neg (fun hc => by cases hhead.mp hc)] at hs
    cases hs
    exact ⟨⟨hchain, harrived, h.started, h.working, hqueued, hwaiting⟩, hdone, rfl, rfl, rfl⟩

theorem inv_complete (h : Inv s Q) (hs : complete s = some s') : Inv s' Q ∧
    ∃ b Q', Q = b :: Q' ∧ s'.buf = s.buf ∧ s'.proc = s.proc ∧
      ∀ drive blockno, s'.disk drive blockno ≠ s.disk drive blockno →
        drive = (s.buf b).dev % 2 ∧ blockno = (s.buf b).blockno := by
  unfold complete at hs
  cases hrun : s.running with
  | nil => rw [hrun] at hs; cases hs
  | cons c rest =>
    rw [hrun] at hs
    cases hs
    cases Q with
    | nil => rw [h.working.1] at hrun; cases hrun
    | cons b Q =>
      obtain ⟨hr, hp⟩ | ⟨hr, -⟩ := h.working
      · rw [hr] at hrun
        obtain ⟨rfl, rfl⟩ := List.cons.inj hrun
        refine ⟨⟨h.chain, h.arrived, h.started, .inr ⟨rfl, ?_, ?_⟩, h.queued, h.waiting⟩, b, Q, rfl, rfl, rfl, ?_⟩
        · simp [hp, State.block, Buf.place, Buf.cmd]
        · intro hd
          have hd' : (s.buf b).dirty = true := hd
          simp [State.block, State.result, Buf.place, Buf.cmd, hd']
        · intro drive blockno hne
          by_contra hno
          refine hne ?_
          by_cases hd : drive = (s.buf b).dev % 2
          · rw [hd]
            exact (congrFun (update_self ..) blockno).trans
              (update_of_ne (fun hc => hno ⟨hd, hc⟩) ..)
          · exact congrFun (update_of_ne hd ..) blockno
      · rw [hr] at hrun
        cases hrun

theorem inv_ideintr (h : Inv s Q) (hs : ideintr s = some s') :
    ∃ b Q', Q = b :: Q' ∧ Inv s' Q' ∧ s'.served = s.served ++ [b] ∧ s'.buf = update s.buf b ((s.buf b).finish (s.block b)) ∧
      ((s.buf b).finish (s.block b)).data = s.block b ∧ s'.proc = s.proc ∧ s'.disk = s.disk := by
  unfold ideintr at hs
  cases hpend : s.pending with
  | nil => rw [hpend] at hs; cases hs
  | cons x rest =>
    rw [hpend] at hs
    cases Q with
    | nil => rw [h.working.2] at hpend; cases hpend
    | cons b Q =>
      obtain ⟨-, hp⟩ | ⟨hr, hp, hdata⟩ := h.working
      · rw [hp] at hpend
        cases hpend
      rw [hp] at hpend
      obtain ⟨rfl, rfl⟩ := List.cons.inj hpend
      obtain ⟨hhead, hchain⟩ := h.chain
      have hb : b ∉ Q := (nodup_cons.mp h.chain.nodup).1
      have hdata' : ((s.buf b).finish (s.block b)).data = s.block b := by
        rw [Buf.finish]
        split
        · next hd => exact hdata hd
        · rfl
      have hother : ∀ c, c ≠ b → (s.leave b (s.block b) []).buf c = s.buf c := fun c hc => update_of_ne hc ..
      have hqueued : ∀ c ∈ Q, (∃ p, s.proc p = some c) ∧ ¬ ((s.leave b (s.block b) []).buf c).Done := by
        intro c hc
        rw [hother c fun e => hb (e ▸ hc)]
        exact h.queued c (mem_cons_of_mem b hc)
      have hwaiting : ∀ p c, s.proc p = some c → c ∈ Q ∨ ((s.leave b (s.block b) []).buf c).Done := by
        intro p c hc
        by_cases hcb : c = b
        · have hself : (s.leave b (s.block b) []).buf b = (s.buf b).finish (s.block b) := update_self ..
          rw [hcb, hself]
          exact .inr ⟨rfl, rfl⟩
        · rw [hother c hcb]
          exact (h.waiting p c hc).imp_left fun hm => (mem_cons.mp hm).resolve_left hcb
      have harrived : s.arrived = (s.served ++ [b]) ++ Q := by rw [h.arrived, append_assoc]; rfl
      rw [hhead] at hs
      cases Q with
      | nil =>
        dsimp only at hs
        rw [show s.qnext b = none from hchain] at hs
        cases hs
        exact ⟨b, [], rfl, ⟨hchain, harrived, h.started.trans (append_nil _).symm, ⟨hr, rfl⟩, hqueued, hwaiting⟩,
          rfl, rfl, hdata', rfl, rfl⟩
      | cons c Q =>
        dsimp only at hs
        rw [hchain.1] at hs
        rw [idestart_some hs]
        exact ⟨b, c :: Q, rfl, ⟨hchain, harrived, congrArg (· ++ [c]) h.started, .inl ⟨congrArg (· ++ [_]) hr, rfl⟩, hqueued, hwaiting⟩,
          rfl, rfl, hdata', rfl, rfl⟩

theorem inv_next (h : Inv s Q) (hs : next s l = some s') : ∃ Q', Inv s' Q' := by
  cases l with
  | iderw p b => exact ⟨_, (inv_iderw h hs).1⟩
  | wake p =>
    simp only [next] at hs
    split at hs
    · cases hs
    next b hb =>
    split at hs
    · next hdone =>
      cases hs
      refine ⟨Q, h.chain, h.arrived, h.started, h.working, fun c hc => ?_, fun q c hq => ?_⟩
      · obtain ⟨⟨q, hq⟩, hnd⟩ := h.queued c hc
        have hne : q ≠ p := fun e => by
          rw [e, hb] at hq
          exact hnd (Option.some.inj hq ▸ hdone)
        exact ⟨⟨q, (update_of_ne hne ..).trans hq⟩, hnd⟩
      · have hne : q ≠ p := fun e => by
          rw [e] at hq
          cases (update_self ..).symm.trans hq
        exact h.waiting q c ((update_of_ne hne ..).symm.trans hq)
    · cases hs
  | complete => exact ⟨Q, (inv_complete h hs).1⟩
  | ideintr =>
    obtain ⟨b, Q', -, h', -⟩ := inv_ideintr h hs
    exact ⟨Q', h'⟩
  | use b x =>
    simp only [next] at hs
    split at hs
    · cases hs
    next huse =>
    cases hs
    rw [not_exists] at huse
    have hsame : ∀ c, (∃ q, s.proc q = some c) → update s.buf b x c = s.buf c := by
      rintro c ⟨q, hq⟩
      exact update_of_ne (fun e : c = b => huse q (e ▸ hq)) ..
    refine ⟨Q, h.chain, h.arrived, h.started, ?_, fun c hc => ?_, fun q c hq => ?_⟩
    · cases Q with
      | nil => exact h.working
      | cons c Q =>
        have hw := h.working
        simp only [Working, State.block] at hw ⊢
        rwa [hsame c (h.queued c mem_cons_self).1]
    · dsimp only
      rw [hsame c (h.queued c hc).1]
      exact h.queued c hc
    · dsimp only
      rw [hsame c ⟨q, hq⟩]
      exact h.waiting q c hq

/-! ## The data -/

/-- A buffer comes to `iderw` for a block that no other buffer there is for. -/
def Apart (s : State β) : Label β → Prop
  | .iderw _ b => ∀ q c, s.proc q = some c → (s.buf c).place ≠ (s.buf b).place
  | _ => True

/-- The buffers in `iderw` are for different blocks, and those that are done hold their block. -/
structure Synced (s : State β) : Prop where
  apart : ∀ p q b c, s.proc p = some b → s.proc q = some c → b ≠ c → (s.buf b).place ≠ (s.buf c).place
  same : ∀ p b, s.proc p = some b → (s.buf b).Done → (s.buf b).data = s.block b

theorem synced_next (h : Inv s Q) (hy : Synced s) (hok : Apart s l) (hs : next s l = some s') : Synced s' := by
  cases l with
  | iderw p b =>
    obtain ⟨-, hdone, hbuf, hdisk, hproc⟩ := inv_iderw h hs
    -- Who is in `iderw` now: `p` with `b`, or someone who was there before.
    have hold : ∀ q c, s'.proc q = some c → c = b ∨ s.proc q = some c := by
      intro q c hq
      by_cases hqp : q = p
      · rw [hqp, hproc, update_self] at hq
        exact .inl (Option.some.inj hq).symm
      · rw [hproc, update_of_ne hqp] at hq
        exact .inr hq
    refine ⟨fun q r c d hc hd hne => ?_, fun q c hc hdc => ?_⟩
    · rw [hbuf]
      rcases hold q c hc with rfl | hc <;> rcases hold r d hd with rfl | hd
      · exact absurd rfl hne
      · exact (hok r d hd).symm
      · exact hok q c hc
      · exact hy.apart q r c d hc hd hne
    · rw [hbuf] at hdc ⊢
      rw [State.block, hbuf, hdisk]
      rcases hold q c hc with rfl | hc
      · exact absurd hdc hdone
      · exact hy.same q c hc hdc
  | wake p =>
    simp only [next] at hs
    split at hs
    · cases hs
    split at hs
    · cases hs
      have hold : ∀ q c, update s.proc p none q = some c → s.proc q = some c := by
        intro q c hq
        by_cases hqp : q = p
        · rw [hqp, update_self] at hq
          cases hq
        · rwa [update_of_ne hqp] at hq
      exact ⟨fun q r c d hc hd => hy.apart q r c d (hold q c hc) (hold r d hd), fun q c hc => hy.same q c (hold q c hc)⟩
    · cases hs
  | complete =>
    obtain ⟨-, b, Q', hQ, hbuf, hproc, hdisk⟩ := inv_complete h hs
    obtain ⟨⟨p, hp⟩, hdone⟩ := h.queued b (hQ ▸ mem_cons_self)
    refine ⟨by rw [hproc, hbuf]; exact hy.apart, fun q c hc hdc => ?_⟩
    rw [hproc] at hc
    rw [hbuf] at hdc
    by_contra hne
    rw [State.block, hbuf, hy.same q c hc hdc] at hne
    obtain ⟨h1, h2⟩ := hdisk _ _ (Ne.symm hne)
    have hcb : c ≠ b := fun e => hdone (e ▸ hdc)
    exact hy.apart q p c b hc hp hcb (Prod.ext h1 h2)
  | ideintr =>
    obtain ⟨b, Q', -, -, -, hbuf, hdata, hproc, hdisk⟩ := inv_ideintr h hs
    have hplace : ∀ c, (s'.buf c).place = (s.buf c).place := by
      intro c
      by_cases hcb : c = b
      · rw [hbuf, hcb, update_self]
        rfl
      · rw [hbuf, update_of_ne hcb]
    refine ⟨fun q r c d hc hd => ?_, fun q c hc hdc => ?_⟩
    · rw [hplace, hplace]
      rw [hproc] at hc hd
      exact hy.apart q r c d hc hd
    · rw [hproc] at hc
      rw [State.block, hplace, hdisk]
      by_cases hcb : c = b
      · rw [hbuf, hcb, update_self]
        exact hdata
      · rw [hbuf, update_of_ne hcb] at hdc ⊢
        exact hy.same q c hc hdc
  | use b x =>
    simp only [next] at hs
    split at hs
    · cases hs
    next huse =>
    cases hs
    rw [not_exists] at huse
    have hsame : ∀ q c, s.proc q = some c → update s.buf b x c = s.buf c := fun q c hq =>
      update_of_ne (fun e : c = b => huse q (e ▸ hq)) ..
    refine ⟨fun q r c d hc hd => ?_, fun q c hc hdc => ?_⟩
    · dsimp only
      rw [hsame q c hc, hsame r d hd]
      exact hy.apart q r c d hc hd
    · dsimp only [State.block] at hdc ⊢
      rw [hsame q c hc] at hdc ⊢
      exact hy.same q c hc hdc

theorem synced_along {s0 : State β} {tr : List (State β × Label β)} (h0 : Fresh s0)
    (hrun : Path (Next next) s0 tr s) (hok : Meets Apart tr) : Synced s := by
  have hstep : ∀ (s : State β) l s', ((∃ Q, Inv s Q) ∧ Synced s) → Apart s l → Next next s l s' →
      (∃ Q, Inv s' Q) ∧ Synced s' := by
    rintro s l s' ⟨⟨Q, h⟩, hy⟩ hok hs
    exact ⟨inv_next h hs, synced_next h hy hok hs⟩
  refine (along_of_step hstep hrun ⟨⟨[], inv_fresh h0⟩, ⟨?_, ?_⟩⟩ hok).2.2
  · intro p q b c hp
    rw [h0.proc] at hp
    cases hp
  · intro p b hp
    rw [h0.proc] at hp
    cases hp

/-- Requests are served once and in the order in which they came. The queue is a list without repetition, its
first buffer is the one that the disk works on, and every buffer before it was started and taken from the
queue once. `ideintr` leaves a buffer that is done with its block in it, and `iderw` returns only with such
a buffer; the block on the disk is still the same, if no other buffer in `iderw` was for it. -/
theorem ide_serves_in_order (s0 s : State β) (tr : List (State β × Label β)) (h0 : Fresh s0)
    (hrun : Path (Next next) s0 tr s) :
    ∃ Q, Chain s.qnext s.idequeue Q ∧ Q.Nodup ∧ s.arrived = s.served ++ Q ∧ s.started = s.served ++ Q.take 1 ∧
      Working s Q ∧
      (∀ s', next s .ideintr = some s' → ∃ b, s.idequeue = some b ∧ s'.served = s.served ++ [b] ∧
        (s'.buf b).Done ∧ (s'.buf b).data = s'.block b) ∧
      ∀ p b s', s.proc p = some b → next s (.wake p) = some s' →
        (s.buf b).Done ∧ b ∉ Q ∧ s.served.count b = s.arrived.count b ∧
        (Meets Apart tr → (s.buf b).data = s.block b) := by
  have hstep : ∀ (s : State β) l s', (∃ Q, Inv s Q) → Next next s l s' → ∃ Q, Inv s' Q := by
    rintro s l s' ⟨Q, h⟩ hs
    exact inv_next h hs
  obtain ⟨Q, h⟩ := (along_of_all_steps hstep hrun ⟨[], inv_fresh h0⟩).2
  refine ⟨Q, h.chain, h.chain.nodup, h.arrived, h.started, h.working, fun s' hs => ?_, fun p b s' hp hs => ?_⟩
  · obtain ⟨b, Q', rfl, -, hserved, hbuf, hdata, -, hdisk⟩ := inv_ideintr h hs
    refine ⟨b, h.chain.1, hserved, ?_⟩
    rw [State.block, hdisk, hbuf, Function.update_self]
    exact ⟨⟨rfl, rfl⟩, hdata⟩
  · have hdone : (s.buf b).Done := by
      by_contra hno
      simp [next, hp, hno] at hs
    have hb : b ∉ Q := fun hc => (h.queued b hc).2 hdone
    refine ⟨hdone, hb, ?_, fun hok => (synced_along h0 hrun hok).same p b hp hdone⟩
    rw [h.arrived, List.count_append, List.count_eq_zero.mpr hb, Nat.add_zero]

/-- A disk with the block number at every block, and buffers that hold nothing. -/
def idle : State Nat :=
  { buf := fun b => ⟨false, false, 0, b.val, 0⟩, qnext := fun _ => none, idequeue := none, havedisk1 := false,
    proc := fun _ => none, disk := fun _ n => n, running := [], pending := [], arrived := [], started := [],
    served := [] }

/-- Two processes read two blocks. The first interrupt starts the second read. -/
theorem ide_serves_two : ∃ b c s tr, Path (Next next) idle tr s ∧ s.arrived = [b, c] ∧ s.served = [b] ∧
    ∃ Q, s.arrived = s.served ++ Q ∧ s.started = s.served ++ Q.take 1 := by
  obtain ⟨s, hf, hb, hc⟩ : ∃ s, follow next idle [.iderw ⟨0, by decide⟩ ⟨5, by decide⟩,
      .iderw ⟨1, by decide⟩ ⟨7, by decide⟩, .complete, .ideintr] = some s ∧
      s.arrived = [⟨5, by decide⟩, ⟨7, by decide⟩] ∧ s.served = [⟨5, by decide⟩] := ⟨_, rfl, rfl, rfl⟩
  obtain ⟨tr, hrun, -⟩ := path_of_follow hf
  obtain ⟨Q, -, -, ha, hs, -⟩ := ide_serves_in_order _ _ _ ⟨rfl, fun _ => rfl, rfl, rfl, rfl, rfl, rfl⟩ hrun
  exact ⟨_, _, s, tr, hrun, hb, hc, Q, ha, hs⟩

end Xv6.Ide
