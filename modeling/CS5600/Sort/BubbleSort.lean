/-
  CS5600.Sort.BubbleSort — `sort` and `swap` of Assignment3/bubblesort.c.

  The array is a list of integers and an access outside it has no result. The counters only go
  up from zero, so they are natural numbers; `size` is an integer, compared as one.

  A pass moves the largest element of the part it runs over to the end of that part
  (`sortInner_pass`); the passes keep a sorted suffix of elements not below the rest, so the array
  ends sorted (`sort_sorts`).
-/

import Mathlib

namespace CS5600.Sort.BubbleSort

def swap (array : List Int) (a b : Nat) : Option (List Int) := do
  let t ← array[a]?
  let y ← array[b]?
  some ((array.set a y).set b t)

/-- The loop over `j`. -/
def sortInner (array : List Int) (size : Int) (i j : Nat) : Option (List Int) :=
  if _ : (j : Int) < size - i - 1 then do
    let x ← array[j]?
    let y ← array[j + 1]?
    let array ← if x > y then swap array j (j + 1) else some array
    sortInner array size i (j + 1)
  else some array
termination_by (size - i - 1 - j).toNat

/-- The loop over `i`. -/
def sortOuter (array : List Int) (size : Int) (i : Nat) : Option (List Int) :=
  if _ : (i : Int) < size - 1 then do
    let array ← sortInner array size i 0
    sortOuter array size (i + 1)
  else some array
termination_by (size - 1 - i).toNat

theorem sortInner_step {l : List Int} {size : Int} {i j : Nat} (h : (j : Int) < size - i - 1) (hl : j + 1 < l.length) :
    sortInner l size i j =
      sortInner (if l[j] > l[j + 1] then (l.set j l[j + 1]).set (j + 1) l[j] else l) size i (j + 1) := by
  rw [sortInner, dif_pos h, List.getElem?_eq_getElem (by omega), List.getElem?_eq_getElem hl]
  simp only [Option.bind_eq_bind, Option.bind_some]
  split
  · simp [swap, hl, Nat.lt_of_succ_lt hl]
  · rfl

theorem sortInner_stop {l : List Int} {size : Int} {i j : Nat} (h : ¬ (j : Int) < size - i - 1) :
    sortInner l size i j = some l := by
  rw [sortInner, dif_neg h]

theorem sortOuter_step {l l' : List Int} {size : Int} {i : Nat} (h : (i : Int) < size - 1)
    (hl : sortInner l size i 0 = some l') : sortOuter l size i = sortOuter l' size (i + 1) := by
  rw [sortOuter, dif_pos h, hl]
  rfl

theorem sortOuter_stop {l : List Int} {size : Int} {i : Nat} (h : ¬ (i : Int) < size - 1) :
    sortOuter l size i = some l := by
  rw [sortOuter, dif_neg h]

def sort (array : List Int) (size : Int) : Option (List Int) := sortOuter array size 0

/-! ## The array is sorted -/

/-- One comparison of neighbours. -/
theorem sortInner_compare {pre post : List Int} {x y size : Int} {i : Nat} (h : (pre.length : Int) < size - i - 1) :
    sortInner (pre ++ x :: y :: post) size i pre.length =
      sortInner (pre ++ [min x y] ++ max x y :: post) size i (pre ++ [min x y]).length := by
  rw [sortInner_step h (by simp)]
  have hx : (pre ++ x :: y :: post)[pre.length]? = some x := by simp
  have hy : (pre ++ x :: y :: post)[pre.length + 1]? = some y := by simp
  rw [(List.getElem?_eq_some_iff.mp hx).2, (List.getElem?_eq_some_iff.mp hy).2]
  split
  · rename_i hgt
    rw [min_eq_right hgt.le, max_eq_left hgt.le]
    simp
  · rename_i hle
    rw [min_eq_left (not_lt.mp hle), max_eq_right (not_lt.mp hle)]
    simp

theorem min_max_perm (x y : Int) (l : List Int) : (min x y :: max x y :: l).Perm (x :: y :: l) := by
  rcases le_total x y with h | h
  · rw [min_eq_left h, max_eq_right h]
  · rw [min_eq_right h, max_eq_left h]
    exact List.Perm.swap x y l

/-- A pass leaves the largest element of its part at the end of the part. -/
theorem sortInner_pass (xs : List Int) : ∀ (pre : List Int) (x : Int) (post : List Int) (i : Nat),
    post.length = i → ∃ zs m, (zs ++ [m]).Perm (x :: xs) ∧ (∀ z ∈ zs, z ≤ m) ∧
      sortInner (pre ++ x :: (xs ++ post)) (pre ++ x :: (xs ++ post)).length i pre.length =
        some (pre ++ zs ++ m :: post) := by
  induction xs with
  | nil =>
    intro pre x post i hi
    refine ⟨[], x, List.Perm.refl _, by simp, ?_⟩
    rw [sortInner_stop (by simp; omega)]
    simp
  | cons y ys ih =>
    intro pre x post i hi
    obtain ⟨zs, m, hperm, hle, hrun⟩ := ih (pre ++ [min x y]) (max x y) post i hi
    have hlen : (pre ++ x :: (y :: ys ++ post)).length = (pre ++ [min x y] ++ max x y :: (ys ++ post)).length := by
      simp
    refine ⟨min x y :: zs, m, (hperm.cons _).trans (min_max_perm x y ys), ?_, ?_⟩
    · intro z hz
      rcases List.mem_cons.mp hz with rfl | hz
      · have hm : max x y ∈ zs ++ [m] := hperm.symm.subset (by simp)
        have hmax : max x y ≤ m := by
          rcases List.mem_append.mp hm with hm | hm
          · exact hle _ hm
          · exact (List.mem_singleton.mp hm).le
        exact le_trans min_le_max hmax
      · exact hle z hz
    · rw [hlen, List.cons_append, sortInner_compare (by simp; omega), hrun]
      simp

/-- The passes from the `i`-th on, over an array whose last `i` elements are in place. -/
theorem sortOuter_sorts (n : Nat) : ∀ (l post : List Int), l.length = n → post.Pairwise (· ≤ ·) →
    (∀ x ∈ l, ∀ y ∈ post, x ≤ y) →
    ∃ r, sortOuter (l ++ post) (l ++ post).length post.length = some r ∧ r.Pairwise (· ≤ ·) ∧ r.Perm (l ++ post) := by
  induction n with
  | zero =>
    intro l post hl hs _
    obtain rfl := List.length_eq_zero_iff.mp hl
    exact ⟨post, sortOuter_stop (by simp), hs, List.Perm.refl _⟩
  | succ n ih =>
    intro l post hl hs hle
    obtain ⟨x, xs, rfl⟩ := List.exists_cons_of_length_eq_add_one hl
    by_cases hx : xs = []
    · subst hx
      refine ⟨x :: post, sortOuter_stop (by simp), List.pairwise_cons.mpr ⟨hle x (by simp), hs⟩, List.Perm.refl _⟩
    · obtain ⟨zs, m, hperm, hm, hrun⟩ := sortInner_pass xs [] x post post.length rfl
      have hpos : 0 < xs.length := List.length_pos_iff.mpr hx
      have hlen := hperm.length_eq
      have hall : (zs ++ m :: post).Perm (x :: xs ++ post) := by
        have := hperm.append_right post
        simpa using this
      obtain ⟨r, hr, hrs, hrp⟩ := ih zs (m :: post) (by simp at hl hlen; omega)
        (List.pairwise_cons.mpr ⟨fun y hy => hle m (hperm.subset (by simp)) y hy, hs⟩) (by
          intro z hz y hy
          rcases List.mem_cons.mp hy with rfl | hy
          · exact hm z hz
          · exact hle z (hperm.subset (by simp [hz])) y hy)
      refine ⟨r, ?_, hrs, hrp.trans hall⟩
      rw [← hr, hall.length_eq]
      exact sortOuter_step (by simp; omega) hrun

theorem sort_sorts (array : List Int) :
    ∃ r, sort array array.length = some r ∧ r.Pairwise (· ≤ ·) ∧ r.Perm array := by
  obtain ⟨r, hr⟩ := sortOuter_sorts array.length array [] rfl List.Pairwise.nil (by simp)
  rw [List.append_nil] at hr
  exact ⟨r, hr⟩

end CS5600.Sort.BubbleSort
