import Xv6.Sys.Exec

/-!
# Runs

Every step keeps the invariant, except an `exec` with an argument string of 32 megabytes or more: its
copy can start below device memory, where the new image has no page table.
-/

open Xv6.Cmd Xv6.Pool Xv6.Run Xv6.Vm

namespace Xv6.Sys

variable {ld : Linker} {m m' : Machine} {i : Fin NPROC}

/-- The argument strings of an `exec` are shorter than 32 megabytes. -/
def ShortArgs (m : Machine) : Act → Prop
  | .exec i _ uargv => ∀ p ∈ m.proc i, ∀ addr ∈ uargv, ∀ arg,
      fetchstr m.phys p addr = some (some arg) → arg.length + 4 ≤ 0x2000000
  | _ => True

theorem by_some {f : Proc → M Unit} (h : m.by i f = some m') :
    ∃ p, m.proc i = some p ∧ p.zombie = false ∧ f p m = .ok ((), m') := by
  unfold Machine.by at h
  split at h
  · next p hp =>
    split at h
    · cases h
    · next hz =>
      obtain ⟨u, hf⟩ := snd_some h
      exact ⟨p, hp, by simpa using hz, hf⟩
  · cases h

theorem by_of_ok {f : Proc → M Unit} {p : Proc} (hp : m.proc i = some p) (hz : p.zombie = false)
    (hf : f p m = .ok ((), m')) : m.by i f = some m' := by
  simp only [Machine.by, hp, hz, hf, Bool.false_eq_true, if_false]
  rfl

theorem discard_ok {α : Type} {x : M α} {u : Unit}
    (h : (do let _ ← x : M Unit) m = .ok (u, m')) : ∃ a, x m = .ok (a, m') := by
  obtain ⟨a, m1, hx, h⟩ := bind_ok h
  obtain ⟨-, rfl⟩ := Prod.mk.inj (pure_ok h)
  exact ⟨a, hx⟩

theorem discard_of_ok {α : Type} {x : M α} {a : α} (h : x m = .ok (a, m')) :
    (do let _ ← x : M Unit) m = .ok ((), m') := by
  rw [bind_of_ok h]
  rfl

theorem if_throw_ok {c : Prop} [Decidable c] {x : M Unit} {e : Stop} {r : Unit × Machine}
    (h : (if c then x else throw e) m = .ok r) : c ∧ x m = .ok r := by
  split at h
  · next hc => exact ⟨hc, h⟩
  · exact (throw_ok h).elim

theorem inv_next {a : Act} (h : Inv ld m) (hs : ShortArgs m a) (hn : next ld m a = some m') :
    Inv ld m' := by
  cases a with
  | userinit init =>
    rw [next] at hn
    split at hn
    · next hnone =>
      obtain ⟨u, hu⟩ := snd_some hn
      exact inv_userinit h (fun i => by simpa using hnone i) hu
    · cases hn
  | fork i =>
    obtain ⟨p, hp, -, hf⟩ := by_some hn
    obtain ⟨r, hf⟩ := discard_ok hf
    exact inv_fork h hp hf
  | exec i ip uargv =>
    obtain ⟨p, hp, -, hf⟩ := by_some hn
    obtain ⟨r, hf⟩ := discard_ok hf
    exact inv_sys_exec h hp (hs p hp) hf
  | growproc i n =>
    obtain ⟨p, hp, -, hf⟩ := by_some hn
    obtain ⟨r, hf⟩ := discard_ok hf
    exact inv_growproc h hp hf
  | exit i =>
    obtain ⟨p, hp, -, hf⟩ := by_some hn
    exact inv_exit h hp hf
  | wait i j =>
    obtain ⟨p, hp, hz, hf⟩ := by_some hn
    cases hj : m.proc j with
    | none => rw [hj] at hf; exact (throw_ok hf).elim
    | some pj =>
      rw [hj] at hf
      obtain ⟨hzj, hf⟩ := if_throw_ok hf
      have hij : i ≠ j := by
        rintro rfl
        obtain rfl := Option.some.inj (hp.symm.trans hj)
        rw [hz] at hzj
        cases hzj
      exact inv_wait h hj ⟨i, p, by simpa [Machine.setProc, Function.update_of_ne hij] using hp⟩ hf
  | pipealloc i files =>
    obtain ⟨p, hp, -, hf⟩ := by_some hn
    obtain ⟨r, hf⟩ := discard_ok hf
    exact inv_pipealloc h ⟨i, p, hp⟩ hf
  | pipeclose i k w =>
    obtain ⟨p, hp, -, hf⟩ := by_some hn
    cases hk : m.pipes[k]? with
    | none => rw [hk] at hf; exact (throw_ok hf).elim
    | some pp =>
      rw [hk] at hf
      exact inv_pipeclose h ⟨i, p, hp⟩ hk (if_throw_ok hf).2
  | fault i va =>
    obtain ⟨p, hp, -, hf⟩ := by_some hn
    obtain ⟨hmap, hf⟩ := if_throw_ok hf
    exact inv_fault h hp (Nat.lt_trans hmap.1 (h.wf i p hp).sz_lt) hf
  | load i va =>
    obtain ⟨p, hp, -, hf⟩ := by_some hn
    obtain ⟨-, hf⟩ := if_throw_ok hf
    obtain ⟨-, rfl⟩ := Prod.mk.inj (pure_ok hf)
    exact h
  | store i va b =>
    obtain ⟨p, hp, -, hf⟩ := by_some hn
    obtain ⟨hmap, hf⟩ := if_throw_ok hf
    exact inv_store h hp (Nat.lt_trans hmap.1 (h.wf i p hp).sz_lt) hf

theorem inv_along {ncpu : Nat} {mem : Nat → Page} {m0 : Machine} {tr : List (Machine × Act)}
    (hboot : boot ld ncpu mem = .ok m0) (hrun : Path (Next (next ld)) m0 tr m)
    (hshort : Meets ShortArgs tr) : Along (Inv ld) tr m :=
  along_of_step (fun _ _ _ h hs hn => inv_next h hs hn) hrun (inv_boot hboot) hshort

end Xv6.Sys
