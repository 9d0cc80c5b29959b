/-
  CS5600.Lib.Ring — a window of an array whose indices are taken modulo its size.

  `window data N r n` are the `n` entries from index `r` on. A ring buffer adds an entry behind the window
  (`window_put`) and takes one from its front (`window_cons`); a counter that wraps around at a multiple of the
  size selects the same window (`window_mod`).
-/

import Mathlib

namespace CS5600.Lib.Ring

variable {α : Type} {data : Nat → α} {N r n : Nat}

def window (data : Nat → α) (N r n : Nat) : List α := (List.range n).map fun k => data ((r + k) % N)

@[simp] theorem length_window : (window data N r n).length = n := by simp [window]

@[simp] theorem window_zero : window data N r 0 = [] := rfl

theorem window_mod {M : Nat} (h : N ∣ M) : window data N (r % M) n = window data N r n := by
  unfold window
  apply List.map_congr_left
  intro k _
  rw [Nat.add_mod (r % M), Nat.mod_mod_of_dvd r h, ← Nat.add_mod]

theorem window_cons : window data N r (n + 1) = data (r % N) :: window data N (r + 1) n := by
  unfold window
  rw [List.range_succ_eq_map, List.map_cons, List.map_map, Nat.add_zero]
  congr 1
  apply List.map_congr_left
  intro k _
  show data ((r + (k + 1)) % N) = data ((r + 1 + k) % N)
  rw [show r + (k + 1) = r + 1 + k by omega]

/-- The entry behind a window that is not the whole ring is written. -/
theorem window_put (hn : n < N) (x : α) :
    window (Function.update data ((r + n) % N) x) N r (n + 1) = window data N r n ++ [x] := by
  unfold window
  rw [List.range_succ, List.map_append, List.map_singleton, Function.update_self]
  congr 1
  apply List.map_congr_left
  intro k hk
  have hk := List.mem_range.mp hk
  apply Function.update_of_ne
  intro e
  have hmod : k ≡ n [MOD N] := Nat.ModEq.add_left_cancel' r e
  rw [Nat.ModEq, Nat.mod_eq_of_lt (by omega), Nat.mod_eq_of_lt hn] at hmod
  omega

end CS5600.Lib.Ring
