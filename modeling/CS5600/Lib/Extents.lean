/-
  CS5600.Lib.Extents — stretches of an indexed store `Nat → β`, and stores kept in blocks.

  `slice f off n` are the `n` entries from `off` on, `patch f off xs` has `xs` there instead. A stretch
  can be read or written in pieces (`slice_add`, `patch_append`). `flat B blocks` is the store whose
  blocks of `B` entries are `blocks`; within one block a stretch of it is a stretch of the block
  (`slice_flat`, `patch_flat`).
-/

import Mathlib

namespace CS5600.Lib.Extents

variable {β : Type} (f : Nat → β)

def slice (off n : Nat) : List β := (List.range n).map fun j => f (off + j)

def patch (off : Nat) (xs : List β) : Nat → β := fun i => if off ≤ i then xs.getD (i - off) (f i) else f i

@[simp] theorem length_slice (off n : Nat) : (slice f off n).length = n := by simp [slice]

@[simp] theorem slice_zero (off : Nat) : slice f off 0 = [] := rfl

@[simp] theorem patch_nil (off : Nat) : patch f off [] = f := by
  funext i
  simp [patch]

theorem slice_add (off m n : Nat) : slice f off (m + n) = slice f off m ++ slice f (off + m) n := by
  simp only [slice, List.range_add, List.map_append, List.map_map]
  congr 1
  refine List.map_congr_left fun j _ => ?_
  simp [Nat.add_assoc]

theorem patch_append (off : Nat) (xs ys : List β) :
    patch f off (xs ++ ys) = patch (patch f off xs) (off + xs.length) ys := by
  funext i
  by_cases h : off + xs.length ≤ i
  · have hx : xs.length ≤ i - off := by omega
    have hsub : i - (off + xs.length) = i - off - xs.length := by omega
    simp [patch, show off ≤ i by omega, h, List.getElem?_append_right hx, List.getElem?_eq_none hx, hsub]
  · by_cases ho : off ≤ i
    · simp [patch, ho, h, List.getElem?_append_left (show i - off < xs.length by omega)]
    · simp [patch, ho, h]

/-- A stretch copied to the same place. -/
theorem patch_slice (g : Nat → β) (off n i : Nat) :
    patch g off (slice f off n) i = if off ≤ i ∧ i < off + n then f i else g i := by
  unfold patch slice
  by_cases h : off ≤ i
  · by_cases hn : i < off + n
    · have : off + (i - off) = i := by omega
      simp [h, hn, List.getElem?_range (show i - off < n by omega), this]
    · simp [h, hn, List.getElem?_eq_none (show (List.range n).length ≤ i - off by simp; omega)]
  · simp [h]

theorem slice_congr {f g : Nat → β} {off n : Nat} (h : ∀ i, off ≤ i → i < off + n → f i = g i) :
    slice f off n = slice g off n := by
  refine List.map_congr_left fun j hj => ?_
  have := List.mem_range.mp hj
  exact h _ (by omega) (by omega)

theorem slice_succ (off n : Nat) : slice f off (n + 1) = slice f off n ++ [f (off + n)] := slice_add f off n 1

theorem slice_update (i : Nat) (a : β) : slice (Function.update f i a) 0 (i + 1) = slice f 0 i ++ [a] := by
  have hbelow : slice (Function.update f i a) 0 i = slice f 0 i := by
    apply slice_congr
    intro j _ hj
    rw [Function.update_of_ne (by omega)]
  rw [slice_succ, hbelow, Nat.zero_add, Function.update_self]

/-! ## Blocks -/

variable (B : Nat) (blocks : Nat → Nat → β)

def flat : Nat → β := fun i => blocks (i / B) (i % B)

variable {B} {off m : Nat}

theorem slice_flat (hB : 0 < B) (h : off % B + m ≤ B) :
    slice (blocks (off / B)) (off % B) m = slice (flat B blocks) off m := by
  refine List.map_congr_left fun j hj => ?_
  have hj := List.mem_range.mp hj
  have hlt : off % B + j < B := by omega
  have hsplit : off + j = B * (off / B) + (off % B + j) := by
    have := Nat.div_add_mod off B
    omega
  have hdiv : (off + j) / B = off / B := by
    rw [hsplit, Nat.mul_add_div hB, Nat.div_eq_of_lt hlt, Nat.add_zero]
  have hmod : (off + j) % B = off % B + j := by
    rw [hsplit, Nat.mul_add_mod, Nat.mod_eq_of_lt hlt]
  rw [flat, hdiv, hmod]

theorem patch_flat (hB : 0 < B) {xs : List β} (h : off % B + xs.length ≤ B) :
    flat B (Function.update blocks (off / B) (patch (blocks (off / B)) (off % B) xs)) = patch (flat B blocks) off xs := by
  funext i
  have hoff := Nat.div_add_mod off B
  have hi := Nat.div_add_mod i B
  have hlt := Nat.mod_lt i hB
  by_cases e : i / B = off / B
  · rw [e] at hi
    have hle : off % B ≤ i % B ↔ off ≤ i := by omega
    have hsub : i % B - off % B = i - off := by omega
    simp only [flat, e, Function.update_self, patch, hle, hsub]
  · simp only [flat, Function.update_of_ne e, patch]
    split
    · have hlen : xs.length ≤ i - off := by
        have hdiv : off / B + 1 ≤ i / B := by
          have := Nat.div_le_div_right (c := B) ‹off ≤ i›
          omega
        have := Nat.mul_le_mul_left B hdiv
        rw [Nat.mul_add] at this
        omega
      rw [List.getD_eq_default _ _ hlen]
    · rfl

end CS5600.Lib.Extents
