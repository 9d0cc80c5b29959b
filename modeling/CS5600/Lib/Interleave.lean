/-
  CS5600.Lib.Interleave — any number of threads that step one at a time on shared memory.

  A system is a shared part and each thread's own state. `Modular G A D` is an invariant stated
  thread by thread: `G` of the shared part, `A` of the shared part with each thread, `D` between
  every two threads. `Modular.put` is the rule of the one who steps: establish `G` and its own
  `A`, and for every other thread show that its `A`, and `D` with it, survive. `G` and `A` may
  change with the step, so that a ghost value they mention can.

  `Path exec h p ps h' p'`: a thread that runs alone from `p` executes the statements `ps` and is
  then at `p'`. Where it gets stuck is determined (`Path.stuck_unique`), and so is the way there
  (`Path.passes`).
-/

import Mathlib

namespace CS5600.Lib.Interleave

structure Sys (H P : Type) where
  sh : H
  pc : Nat → P

variable {H P : Type}

def Sys.put (σ : Sys H P) (i : Nat) (h : H) (p : P) : Sys H P := ⟨h, Function.update σ.pc i p⟩

@[simp] theorem Sys.put_sh (σ : Sys H P) (i : Nat) (h : H) (p : P) : (σ.put i h p).sh = h := rfl

@[simp] theorem Sys.put_pc_same (σ : Sys H P) (i : Nat) (h : H) (p : P) : (σ.put i h p).pc i = p := by
  simp [Sys.put]

theorem Sys.put_pc_ne (σ : Sys H P) {i j : Nat} (h : H) (p : P) (hne : j ≠ i) : (σ.put i h p).pc j = σ.pc j := by
  simp [Sys.put, hne]

@[simp] theorem Sys.put_put (σ : Sys H P) (i : Nat) (h h' : H) (p p' : P) :
    (σ.put i h p).put i h' p' = σ.put i h' p' := by
  simp [Sys.put]

structure Modular (G : H → Prop) (A : H → P → Prop) (D : H → P → P → Prop) (σ : Sys H P) : Prop where
  shared : G σ.sh
  each : ∀ i, A σ.sh (σ.pc i)
  pair : ∀ i j, i ≠ j → D σ.sh (σ.pc i) (σ.pc j)

theorem Modular.put {G G' : H → Prop} {A A' : H → P → Prop} {D : H → P → P → Prop} {σ : Sys H P}
    (hσ : Modular G A D σ) (i : Nat) {h : H} {p : P} (hG : G' h) (hA : A' h p)
    (hother : ∀ q, A σ.sh q → D σ.sh (σ.pc i) q → D σ.sh q (σ.pc i) → A' h q ∧ D h p q ∧ D h q p)
    (hpair : ∀ q r, D σ.sh q r → D h q r) : Modular G' A' D (σ.put i h p) := by
  have others : ∀ j, j ≠ i → A' h (σ.pc j) ∧ D h p (σ.pc j) ∧ D h (σ.pc j) p := fun j hj =>
    hother _ (hσ.each j) (hσ.pair i j (Ne.symm hj)) (hσ.pair j i hj)
  refine ⟨hG, fun j => ?_, fun j k hjk => ?_⟩
  · rw [σ.put_sh]
    by_cases e : j = i
    · subst e; rw [σ.put_pc_same]; exact hA
    · rw [σ.put_pc_ne h p e]; exact (others j e).1
  · rw [σ.put_sh]
    by_cases e : j = i
    · subst e
      rw [σ.put_pc_same, σ.put_pc_ne h p (Ne.symm hjk)]
      exact (others k (Ne.symm hjk)).2.1
    · rw [σ.put_pc_ne h p e]
      by_cases e' : k = i
      · subst e'; rw [σ.put_pc_same]; exact (others j e).2.2
      · rw [σ.put_pc_ne h p e']; exact hpair _ _ (hσ.pair j k hjk)

/-! ## One thread alone -/

inductive Path (exec : H → P → Option (H × P)) : H → P → List P → H → P → Prop
  | nil (h : H) (p : P) : Path exec h p [] h p
  | cons {h h₁ h' : H} {p p₁ p' : P} {ps : List P} :
      exec h p = some (h₁, p₁) → Path exec h₁ p₁ ps h' p' → Path exec h p (p :: ps) h' p'

variable {exec : H → P → Option (H × P)}

theorem Path.append {h h₁ h' : H} {p p₁ p' : P} {ps qs : List P} (a : Path exec h p ps h₁ p₁)
    (b : Path exec h₁ p₁ qs h' p') : Path exec h p (ps ++ qs) h' p' := by
  induction a with
  | nil => exact b
  | cons hs _ ih => exact .cons hs (ih b)

/-- The path to where the thread is stuck passes through every place it comes to. -/
theorem Path.passes {h h₁ h₂ : H} {p p₁ p₂ : P} {ps qs : List P} (a : Path exec h p ps h₁ p₁)
    (ha : exec h₁ p₁ = none) (b : Path exec h p qs h₂ p₂) : ∃ rs, ps = qs ++ rs ∧ Path exec h₂ p₂ rs h₁ p₁ := by
  induction b generalizing ps with
  | nil => exact ⟨ps, rfl, a⟩
  | cons hs _ ih =>
    cases a with
    | nil => cases ha.symm.trans hs
    | cons hs' a =>
      cases hs.symm.trans hs'
      obtain ⟨rs, rfl, hr⟩ := ih a
      exact ⟨rs, rfl, hr⟩

theorem Path.stuck_unique {h h₁ h₂ : H} {p p₁ p₂ : P} {ps qs : List P} (a : Path exec h p ps h₁ p₁)
    (ha : exec h₁ p₁ = none) (b : Path exec h p qs h₂ p₂) (hb : exec h₂ p₂ = none) :
    ps = qs ∧ h₁ = h₂ ∧ p₁ = p₂ := by
  obtain ⟨rs, rfl, hr⟩ := a.passes ha b
  cases hr with
  | nil => exact ⟨by simp, rfl, rfl⟩
  | cons hs _ => cases hb.symm.trans hs

end CS5600.Lib.Interleave
