/-
  CS5600.Lib.Ownership — cells that have one owner each.

  Some cells are set aside (`fixed`), and the others are given out: `own p` is the cell at the place `p`, if there
  is one. `Exact fixed own used` says that no cell is at two places, none that is set aside is at any, and that
  the cells in use are those set aside and those that are at some place: nothing is lost. It is kept when a
  cell that is not in use is put at an empty place (`Exact.give`), and when places are emptied and their cells
  are no longer in use (`Exact.vacate`). The cells in use can be counted by the places (`Exact.card`).
-/

import Mathlib

namespace CS5600.Lib.Ownership

variable {P β : Type}

structure Exact (fixed : β → Prop) (own : P → Option β) (used : β → Prop) : Prop where
  distinct : ∀ p q b, own p = some b → own q = some b → p = q
  apart : ∀ p b, own p = some b → ¬ fixed b
  exact : ∀ b, used b ↔ fixed b ∨ ∃ p, own p = some b

variable {fixed used used' : β → Prop} {own : P → Option β} {p : P} {b : β}

theorem Exact.in_use (h : Exact fixed own used) (hp : own p = some b) : used b := (h.exact b).mpr (.inr ⟨p, hp⟩)

theorem Exact.congr (h : Exact fixed own used) (hu : ∀ b, used' b ↔ used b) : Exact fixed own used' :=
  ⟨h.distinct, h.apart, fun b => (hu b).trans (h.exact b)⟩

theorem Exact.give [DecidableEq P] (h : Exact fixed own used) (hp : own p = none) (hb : ¬ used b)
    (hu : ∀ c, used' c ↔ used c ∨ c = b) : Exact fixed (Function.update own p (some b)) used' := by
  have hnew : ∀ q, own q ≠ some b := fun q hq => hb (h.in_use hq)
  refine ⟨fun q r c hq hr => ?_, fun q c hq => ?_, fun c => ?_⟩
  · rw [Function.update_apply] at hq hr
    split at hq
    · rename_i eq
      split at hr
      · rename_i er
        rw [eq, er]
      · cases hq
        exact absurd hr (hnew r)
    · split at hr
      · cases hr
        exact absurd hq (hnew q)
      · exact h.distinct q r c hq hr
  · rw [Function.update_apply] at hq
    split at hq
    · cases hq
      exact fun hf => hb ((h.exact b).mpr (.inl hf))
    · exact h.apart q c hq
  · rw [hu, h.exact, or_assoc]
    refine or_congr_right ⟨?_, ?_⟩
    · intro hc
      rcases hc with ⟨q, hq⟩ | e
      · have hne : q ≠ p := by
          intro e
          rw [e, hp] at hq
          cases hq
        exact ⟨q, by rw [Function.update_of_ne hne]; exact hq⟩
      · exact ⟨p, by rw [e, Function.update_self]⟩
    · intro hc
      obtain ⟨q, hq⟩ := hc
      rw [Function.update_apply] at hq
      split at hq
      · cases hq
        exact .inr rfl
      · exact .inl ⟨q, hq⟩

/-- The places with `Q` are emptied. -/
theorem Exact.vacate (h : Exact fixed own used) (Q : P → Prop) [DecidablePred Q]
    (hu : ∀ c, used' c ↔ used c ∧ ∀ p, Q p → own p ≠ some c) :
    Exact fixed (fun p => if Q p then none else own p) used' := by
  have hkeep : ∀ {p c}, (if Q p then none else own p) = some c → own p = some c ∧ ¬ Q p := by
    intro p c hp
    split at hp
    · cases hp
    · rename_i hQ
      exact ⟨hp, hQ⟩
  refine ⟨fun p q c hp hq => h.distinct p q c (hkeep hp).1 (hkeep hq).1, fun p c hp => h.apart p c (hkeep hp).1,
    fun c => ?_⟩
  rw [hu, h.exact]
  constructor
  · intro hc
    obtain ⟨hc, hnone⟩ := hc
    rcases hc with hf | ⟨p, hp⟩
    · exact .inl hf
    · have hQ : ¬ Q p := fun hQ => hnone p hQ hp
      exact .inr ⟨p, by rw [if_neg hQ]; exact hp⟩
  · intro hc
    rcases hc with hf | ⟨p, hp⟩
    · exact ⟨.inl hf, fun q _ hq => h.apart q c hq hf⟩
    · obtain ⟨hp, hQ⟩ := hkeep hp
      refine ⟨.inr ⟨p, hp⟩, fun q hq hqc => ?_⟩
      rw [h.distinct q p c hqc hp] at hq
      exact hQ hq

/-- As many cells are in use as are set aside and places are taken. -/
theorem Exact.card [DecidableEq β] (h : Exact fixed own used) {U F : Finset β} {T : Finset P} (hU : ∀ b, b ∈ U ↔ used b)
    (hF : ∀ b, b ∈ F ↔ fixed b) (hT : ∀ p, p ∈ T ↔ own p ≠ none) : U.card = F.card + T.card := by
  have hsub : F ⊆ U := fun b hb => (hU b).mpr ((h.exact b).mpr (.inl ((hF b).mp hb)))
  have hrest : T.card = (U \ F).card := by
    refine Finset.card_bij (fun p hp => (own p).get (Option.ne_none_iff_isSome.mp ((hT p).mp hp))) ?_ ?_ ?_
    · intro p hp
      have hown := Option.some_get (Option.ne_none_iff_isSome.mp ((hT p).mp hp))
      rw [Finset.mem_sdiff, hU, hF]
      exact ⟨h.in_use hown.symm, h.apart p _ hown.symm⟩
    · intro p hp q hq e
      have hp' := Option.some_get (Option.ne_none_iff_isSome.mp ((hT p).mp hp))
      have hq' := Option.some_get (Option.ne_none_iff_isSome.mp ((hT q).mp hq))
      exact h.distinct p q _ hp'.symm (by rw [← hq', e])
    · intro b hb
      rw [Finset.mem_sdiff, hU, hF, h.exact] at hb
      obtain ⟨p, hp⟩ := hb.1.resolve_left hb.2
      exact ⟨p, (hT p).mpr (by rw [hp]; exact Option.some_ne_none b), by simp [hp]⟩
  rw [hrest, Nat.add_comm, Finset.card_sdiff_add_card_eq_card hsub]

end CS5600.Lib.Ownership
