import Xv6.Vm.Code

/-!
# Allocation does not look at memory

Which pages `setupkvm` and `allocuvm` take depends on the free list and the counts, not on what the
pages hold.
-/

open Xv6.Cmd

namespace Xv6.Vm

variable {ld : Linker} {α β : Type}

/-- With other contents of the pages, `x` has the same result and the same lists. -/
def Blind (x : K α) : Prop :=
  ∀ s mem a s', x s = .ok (a, s') → ∃ mem', x { s with mem := mem } = .ok (a, { s' with mem := mem' })

theorem blind_pure (a : α) : Blind (pure a : K α) := by
  intro s mem a' s' h
  obtain ⟨rfl, rfl⟩ := Prod.mk.inj (pure_ok h)
  exact ⟨mem, rfl⟩

theorem blind_throw (e : Stop) : Blind (throw e : K α) := fun _ _ _ _ h => (throw_ok h).elim

theorem blind_bind {x : K α} {f : α → K β} (hx : Blind x) (hf : ∀ a, Blind (f a)) : Blind (x >>= f) := by
  intro s mem b s' h
  obtain ⟨a, s1, h1, h2⟩ := bind_ok h
  obtain ⟨mem1, h1'⟩ := hx s mem a s1 h1
  obtain ⟨mem2, h2'⟩ := hf a s1 mem1 b s' h2
  exact ⟨mem2, (bind_of_ok h1').trans h2'⟩

theorem blind_ite {c : Prop} [Decidable c] {x y : K α} (hx : Blind x) (hy : Blind y) :
    Blind (if c then x else y) := by
  split
  · exact hx
  · exact hy

theorem blind_kalloc : Blind kalloc := by
  intro s mem a s' h
  unfold kalloc at h ⊢
  cases hf : s.freelist with
  | nil =>
    rw [hf] at h
    obtain ⟨rfl, rfl⟩ := Prod.mk.inj (Except.ok.inj h)
    exact ⟨mem, by simp [hf]⟩
  | cons p rest =>
    rw [hf] at h
    obtain ⟨rfl, rfl⟩ := Prod.mk.inj (Except.ok.inj h)
    exact ⟨mem, by simp [hf, Phys.setRefc]⟩

theorem blind_memset (p : Nat) (c : UInt8) : Blind (memset p c) := by
  intro s mem a s' h
  obtain ⟨rfl, rfl⟩ := Prod.mk.inj (Except.ok.inj h)
  exact ⟨_, rfl⟩

theorem blind_kfree (p : Nat) : Blind (kfree ld p) := by
  intro s mem a s' h
  unfold kfree at h ⊢
  split at h
  · cases h
  · next hp =>
    rw [if_neg hp]
    obtain ⟨rfl, rfl⟩ := Prod.mk.inj (Except.ok.inj h)
    by_cases hc : 0 < s.refc_cnt p
    · by_cases h1 : s.refc_cnt p = 1
      · exact ⟨Function.update mem p fun _ => 1, by simp [h1, Phys.setRefc, Phys.push, Phys.setMem]⟩
      · have h2 : ¬ s.refc_cnt p - 1 = 0 := by omega
        exact ⟨mem, by simp [hc, h2, Phys.setRefc]⟩
    · by_cases h0 : s.refc_cnt p = 0
      · exact ⟨Function.update mem p fun _ => 1, by simp [h0, Phys.push, Phys.setMem]⟩
      · exact ⟨mem, by simp [hc, h0]⟩

theorem blind_walkpgdir (d : PgDir) (va : Nat) : Blind (walkpgdir d va) := by
  unfold walkpgdir
  cases d.tab (pdx va) with
  | some t => exact blind_pure _
  | none =>
    refine blind_bind blind_kalloc fun r => ?_
    cases r with
    | none => exact blind_pure _
    | some p => exact blind_bind (blind_memset p 0) fun _ => blind_pure _

theorem blind_mapUntil (perm : Perm) (last n : Nat) (d : PgDir) (a pa : Nat) :
    Blind (mapUntil perm last n d a pa) := by
  induction n generalizing d a pa with
  | zero => exact blind_throw _
  | succ n ih =>
    refine blind_bind (blind_walkpgdir d a) fun r => ?_
    exact blind_ite (blind_pure _) (blind_ite (blind_throw _) (blind_ite (blind_pure _) (ih _ _ _)))

theorem blind_deallocLoop (oldsz n : Nat) (d : PgDir) (a : Nat) : Blind (deallocLoop ld oldsz n d a) := by
  induction n generalizing d a with
  | zero => exact blind_ite (blind_throw _) (blind_pure _)
  | succ n ih =>
    exact blind_ite (blind_ite (ih _ _) (blind_ite (blind_ite (blind_throw _)
      (blind_bind (blind_kfree _) fun _ => ih _ _)) (ih _ _))) (blind_pure _)

theorem blind_deallocuvm (d : PgDir) (oldsz newsz : Nat) : Blind (deallocuvm ld d oldsz newsz) :=
  blind_ite (blind_pure _) (blind_bind (blind_deallocLoop _ _ _ _) fun _ => blind_pure _)

theorem blind_freeTabs (d : PgDir) (is : List Nat) : Blind (freeTabs ld d is) := by
  induction is with
  | nil => exact blind_pure _
  | cons i is ih =>
    unfold freeTabs
    cases d.tab i with
    | none => exact ih
    | some t => exact blind_bind (blind_kfree _) fun _ => ih

theorem blind_freevm (d : PgDir) : Blind (freevm ld d) :=
  blind_bind (blind_deallocuvm _ _ _) fun _ => blind_bind (blind_freeTabs _ _) fun _ => blind_kfree _

theorem blind_kmapLoop (ks : List Kmap) (d : PgDir) : Blind (kmapLoop ks d) := by
  induction ks generalizing d with
  | nil => exact blind_pure _
  | cons k ks ih =>
    exact blind_bind (blind_mapUntil _ _ _ _ _ _) fun _ => blind_ite (ih _) (blind_pure _)

theorem blind_setupkvm : Blind (setupkvm ld) := by
  refine blind_bind blind_kalloc fun r => ?_
  cases r with
  | none => exact blind_pure _
  | some p =>
    refine blind_bind (blind_memset _ _) fun _ => blind_ite (blind_throw _) ?_
    exact blind_bind (blind_kmapLoop _ _) fun _ => blind_ite (blind_pure _)
      (blind_bind (blind_freevm _) fun _ => blind_pure _)

theorem blind_allocLoop (oldsz newsz n : Nat) (d : PgDir) (a : Nat) : Blind (allocLoop ld oldsz newsz n d a) := by
  induction n generalizing d a with
  | zero => exact blind_ite (blind_throw _) (blind_pure _)
  | succ n ih =>
    refine blind_ite (blind_bind blind_kalloc fun r => ?_) (blind_pure _)
    cases r with
    | none => exact blind_bind (blind_deallocuvm _ _ _) fun _ => blind_pure _
    | some p =>
      refine blind_bind (blind_memset _ _) fun _ => blind_bind (blind_mapUntil _ _ _ _ _ _) fun _ => ?_
      exact blind_ite (ih _ _) (blind_bind (blind_deallocuvm _ _ _) fun _ =>
        blind_bind (blind_kfree _) fun _ => blind_pure _)

theorem blind_allocuvm (d : PgDir) (oldsz newsz : Nat) : Blind (allocuvm ld d oldsz newsz) :=
  blind_ite (blind_pure _) (blind_ite (blind_pure _) (blind_allocLoop _ _ _ _ _))

theorem blind_clearpteu (d : PgDir) (uva : Nat) : Blind (clearpteu d uva) :=
  blind_ite (blind_throw _) (blind_pure _)

end Xv6.Vm
