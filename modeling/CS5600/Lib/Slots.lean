/-
  CS5600.Lib.Slots — tables of numbered slots, each empty or with one entry.

  `occupants keys f` are the entries of the slots `keys`. Putting an entry into an empty slot adds it
  to them, clearing a slot takes it away, up to the order (`occupants_put`, `occupants_clear`); a
  search for the first empty slot fails exactly when there are as many entries as slots
  (`free_none_iff`). `sum_update` is what one slot's new entry does to a sum over all of them.
-/

import Mathlib

namespace CS5600.Lib.Slots

variable {ι α : Type} {keys : List ι} {f : ι → Option α} {k : ι} {a : α}

def occupants (keys : List ι) (f : ι → Option α) : List α := keys.filterMap f

theorem mem_occupants : a ∈ occupants keys f ↔ ∃ k ∈ keys, f k = some a := List.mem_filterMap

theorem free_none_iff : keys.find? (fun i => (f i).isNone) = none ↔ (occupants keys f).length = keys.length := by
  unfold occupants
  rw [List.length_filterMap_eq_countP, List.countP_eq_length, List.find?_eq_none]
  simp [Option.isSome_iff_ne_none]

variable [DecidableEq ι]

theorem occupants_update_of_notMem (h : k ∉ keys) (x : Option α) :
    occupants keys (Function.update f k x) = occupants keys f := by
  apply List.filterMap_congr
  intro i hi
  have hne : i ≠ k := fun e => h (e ▸ hi)
  rw [Function.update_of_ne hne]

theorem occupants_put (hnd : keys.Nodup) (hk : k ∈ keys) (hf : f k = none) (a : α) :
    (occupants keys (Function.update f k (some a))).Perm (a :: occupants keys f) := by
  induction keys with
  | nil => cases hk
  | cons i keys ih =>
    obtain ⟨hi, hnd⟩ := List.nodup_cons.mp hnd
    by_cases e : i = k
    · subst e
      have hrest := occupants_update_of_notMem (f := f) hi (some a)
      unfold occupants at hrest ⊢
      rw [List.filterMap_cons_some (Function.update_self ..), List.filterMap_cons_none hf, hrest]
    · have hrec := ih hnd ((List.mem_cons.mp hk).resolve_left (Ne.symm e))
      unfold occupants at hrec ⊢
      cases hfi : f i with
      | none =>
        rwa [List.filterMap_cons_none (by rw [Function.update_of_ne e, hfi]), List.filterMap_cons_none hfi]
      | some b =>
        rw [List.filterMap_cons_some (by rw [Function.update_of_ne e, hfi]), List.filterMap_cons_some hfi]
        exact (hrec.cons b).trans (.swap a b _)

theorem occupants_clear (hnd : keys.Nodup) (hk : k ∈ keys) (hf : f k = some a) :
    (occupants keys f).Perm (a :: occupants keys (Function.update f k none)) := by
  have h := occupants_put hnd hk (Function.update_self k none f) a
  rwa [Function.update_idem, ← hf, Function.update_eq_self] at h

theorem sum_update [Fintype ι] (w : α → Nat) (g : ι → α) (k : ι) (a : α) :
    (∑ j, w (Function.update g k a j)) + w (g k) = (∑ j, w (g j)) + w a := by
  have hold := Finset.add_sum_erase Finset.univ (fun j => w (g j)) (Finset.mem_univ k)
  have hnew := Finset.add_sum_erase Finset.univ (fun j => w (Function.update g k a j)) (Finset.mem_univ k)
  have hrest : ∑ j ∈ Finset.univ.erase k, w (Function.update g k a j) = ∑ j ∈ Finset.univ.erase k, w (g j) := by
    apply Finset.sum_congr rfl
    intro j hj
    rw [Function.update_of_ne (Finset.ne_of_mem_erase hj)]
  rw [hrest, Function.update_self] at hnew
  omega

end CS5600.Lib.Slots
