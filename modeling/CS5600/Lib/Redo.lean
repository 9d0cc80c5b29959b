/-
  CS5600.Lib.Redo — lists of writes to a store `K → V`, as a redo log keeps them.

  `writeAll d ws` is the store `d` after the writes `ws`, in their order. A key that is written holds its
  last value, whatever the store was before (`writeAll_congr`); so writes that were made before,
  in part or in another order, are made up for by making all of them again.
-/

import Mathlib

namespace CS5600.Lib.Redo

variable {K V : Type} [DecidableEq K]

def writeAll (d : K → V) (ws : List (K × V)) : K → V := ws.foldl (fun d w => Function.update d w.1 w.2) d

variable {d d' : K → V} {ws us : List (K × V)} {k : K}

@[simp] theorem writeAll_nil (d : K → V) : writeAll d [] = d := rfl

theorem writeAll_cons (d : K → V) (w : K × V) (ws : List (K × V)) :
    writeAll d (w :: ws) = writeAll (Function.update d w.1 w.2) ws := rfl

theorem writeAll_of_notMem (h : k ∉ ws.map Prod.fst) : writeAll d ws k = d k := by
  induction ws generalizing d with
  | nil => rfl
  | cons w ws ih =>
    rw [List.map_cons, List.mem_cons, not_or] at h
    rw [writeAll_cons, ih h.2, Function.update_of_ne h.1]

/-- Only what is not written over matters. -/
theorem writeAll_congr (h : k ∉ ws.map Prod.fst → d k = d' k) : writeAll d ws k = writeAll d' ws k := by
  induction ws generalizing d d' with
  | nil => exact h List.not_mem_nil
  | cons w ws ih =>
    rw [writeAll_cons, writeAll_cons]
    apply ih
    intro hk
    by_cases e : k = w.1
    · rw [e, Function.update_self, Function.update_self]
    · rw [Function.update_of_ne e, Function.update_of_ne e]
      apply h
      rw [List.map_cons, List.mem_cons, not_or]
      exact ⟨e, hk⟩

theorem writeAll_eq (hnd : (ws.map Prod.fst).Nodup) {v : V} (h : (k, v) ∈ ws) : writeAll d ws k = v := by
  induction ws generalizing d with
  | nil => cases h
  | cons w ws ih =>
    rw [List.map_cons, List.nodup_cons] at hnd
    rcases List.mem_cons.mp h with rfl | h
    · rw [writeAll_cons, writeAll_of_notMem hnd.1, Function.update_self]
    · rw [writeAll_cons, ih hnd.2 h]

end CS5600.Lib.Redo
