/-
  CS5600.Lib.Latest — the last element of a class in a list.

  `latest cls i l` is what remains in cell `i` when the elements of `l` are stored one after the
  other, each in the cell of its class. `latest_eq_iff` says when that is a given element, by
  positions in the list: it occurs, and nothing else of its class comes later.
-/

import Mathlib

namespace CS5600.Lib.Latest

section Positions

variable {α ι : Type} (cls : α → ι)

/-- Position `j` of `l` holds `a`, and no other element of its class comes after it. -/
def Stays (l : List α) (a : α) (j : Nat) : Prop :=
  l[j]? = some a ∧ ∀ i b, j < i → l[i]? = some b → cls b = cls a → b = a

variable {cls}

theorem stays_snoc_of_stays {l : List α} {a b : α} {j : Nat} (h : Stays cls l a j) (hb : cls b = cls a → b = a) :
    Stays cls (l ++ [b]) a j := by
  have hj : j < l.length := (List.getElem?_eq_some_iff.mp h.1).1
  refine ⟨by rw [List.getElem?_append_left hj]; exact h.1, fun i c hi hc hcls => ?_⟩
  by_cases e : i < l.length
  · rw [List.getElem?_append_left e] at hc
    exact h.2 i c hi hc hcls
  · obtain ⟨hlt, hget⟩ := List.getElem?_eq_some_iff.mp hc
    simp only [List.length_append, List.length_singleton] at hlt
    obtain rfl : i = l.length := by omega
    simp only [List.getElem_concat_length] at hget
    subst hget
    exact hb hcls

theorem stays_of_stays_snoc {l : List α} {a b : α} {j : Nat} (h : Stays cls (l ++ [b]) a j) (hj : j < l.length) :
    Stays cls l a j := by
  refine ⟨by rw [← List.getElem?_append_left hj]; exact h.1, fun i c hi hc hcls => ?_⟩
  have hlt : i < l.length := (List.getElem?_eq_some_iff.mp hc).1
  exact h.2 i c hi (by rw [List.getElem?_append_left hlt]; exact hc) hcls

end Positions

section Cells

variable {α ι : Type} [DecidableEq ι] (cls : α → ι)

def latest (i : ι) (l : List α) : Option α := l.foldl (fun r a => if cls a = i then some a else r) none

@[simp] theorem latest_nil (i : ι) : latest cls i [] = none := rfl

theorem latest_snoc (i : ι) (l : List α) (a : α) :
    latest cls i (l ++ [a]) = if cls a = i then some a else latest cls i l := by
  simp [latest]

variable {cls}

/-- The induction takes the last element off. -/
theorem latest_eq_iff {l : List α} {a : α} : latest cls (cls a) l = some a ↔ ∃ j, Stays cls l a j := by
  induction l using List.reverseRecOn with
  | nil => simp [Stays]
  | append_singleton l b ih =>
    rw [latest_snoc]
    constructor
    · intro h
      by_cases e : cls b = cls a
      · rw [if_pos e, Option.some.injEq] at h
        subst h
        refine ⟨l.length, by simp, fun i c hi hc => ?_⟩
        have := (List.getElem?_eq_some_iff.mp hc).1
        simp only [List.length_append, List.length_singleton] at this
        omega
      · rw [if_neg e] at h
        obtain ⟨j, hj⟩ := ih.mp h
        exact ⟨j, stays_snoc_of_stays hj (fun h => absurd h e)⟩
    · intro h
      obtain ⟨j, hj⟩ := h
      have hlt : j < l.length + 1 := by simpa using (List.getElem?_eq_some_iff.mp hj.1).1
      by_cases ej : j = l.length
      · subst ej
        have e : b = a := by simpa using hj.1
        rw [if_pos (by rw [e]), e]
      · by_cases e : cls b = cls a
        · rw [if_pos e, hj.2 l.length b (by omega) (by simp) e]
        · rw [if_neg e]
          exact ih.mpr ⟨j, stays_of_stays_snoc hj (by omega)⟩

end Cells

end CS5600.Lib.Latest
