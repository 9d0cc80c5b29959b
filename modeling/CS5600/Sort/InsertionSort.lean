/-
  CS5600.Sort.InsertionSort — `sort` of Assignment3/insertionsort.c, and its agreement with the
  `sort` of bubblesort.c.

  The array is a list of integers and an access outside it has no result. The counter `i` of the
  inner loop runs down to -1, so it is an integer and is checked at every access.

  While the key is out of the array the loop moves a hole towards the front: one element stands
  twice, and the key goes over one of the two copies (`shift_hole`). The elements before the
  hole are not above the key and those it moved are, so the part up to `j` is sorted again
  (`sortFrom_insert`). Both sorts leave the one sorted permutation of the array (`both_sort`).
-/

import CS5600.Sort.BubbleSort

namespace CS5600.Sort.InsertionSort

/-- `*(array + i)`. -/
def load (array : List Int) (i : Int) : Option Int :=
  if 0 ≤ i then array[i.toNat]? else none

/-- `*(array + i) = x`. -/
def store (array : List Int) (i x : Int) : Option (List Int) :=
  if 0 ≤ i ∧ i < array.length then some (array.set i.toNat x) else none

/-- The loop over `i`: the array and `i` when it ends. -/
def shift (array : List Int) (key i : Int) : Option (List Int × Int) :=
  if _ : i > -1 then do
    let x ← load array i
    if x > key then
      let array ← store array (i + 1) x
      shift array key (i - 1)
    else some (array, i)
  else some (array, i)
termination_by (i + 1).toNat

/-- The loop over `j`. -/
def sortFrom (array : List Int) (size : Int) (j : Nat) : Option (List Int) :=
  if _ : (j : Int) < size then do
    let key ← load array j
    let (array, i) ← shift array key (j - 1)
    let array ← store array (i + 1) key
    sortFrom array size (j + 1)
  else some array
termination_by (size - j).toNat

def sort (array : List Int) (size : Int) : Option (List Int) := sortFrom array size 1

theorem load_at (pre post : List Int) (x : Int) : load (pre ++ x :: post) pre.length = some x := by
  simp [load]

theorem store_at (pre post : List Int) (x y : Int) :
    store (pre ++ x :: post) pre.length y = some (pre ++ y :: post) := by
  simp [store]

/-! ## The inner loop -/

theorem shift_front (post : List Int) (key x : Int) : shift (x :: post) key (-1) = some (x :: post, -1) := by
  rw [shift, dif_neg (by omega)]

/-- The element in front of the hole is above the key: it moves into the hole. -/
theorem shift_move {pre post : List Int} {key x y : Int} (h : key < y) :
    shift (pre ++ y :: x :: post) key pre.length = shift (pre ++ y :: y :: post) key (pre.length - 1) := by
  have hstore : store (pre ++ y :: x :: post) (pre.length + 1) y = some (pre ++ y :: y :: post) := by
    have := store_at (pre ++ [y]) post x y
    simpa using this
  rw [shift, dif_pos (by omega), load_at, Option.bind_eq_bind, Option.bind_some, if_pos h, hstore]
  rfl

/-- The element in front of the hole is not above the key: the loop ends. -/
theorem shift_stay {pre post : List Int} {key x y : Int} (h : ¬ key < y) :
    shift (pre ++ y :: x :: post) key pre.length = some (pre ++ y :: x :: post, (pre.length : Int)) := by
  rw [shift, dif_pos (by omega), load_at, Option.bind_eq_bind, Option.bind_some, if_neg h]

/-- What the loop does to a hole `x` behind the sorted list `l`: it splits `l` at the key and
    leaves the hole between the parts. -/
theorem shift_hole (l : List Int) (key : Int) : ∀ (x : Int) (post : List Int), l.Pairwise (· ≤ ·) →
    ∃ lo hi h, l = lo ++ hi ∧ (∀ y ∈ lo, y ≤ key) ∧ (∀ y ∈ hi, key ≤ y) ∧
      shift (l ++ x :: post) key (l.length - 1) = some (lo ++ h :: (hi ++ post), (lo.length : Int) - 1) := by
  induction l using List.reverseRecOn with
  | nil =>
    intro x post _
    exact ⟨[], [], x, rfl, by simp, by simp, shift_front post key x⟩
  | append_singleton l y ih =>
    intro x post hs
    obtain ⟨hsl, -, hly⟩ := List.pairwise_append.mp hs
    have hshape : l ++ [y] ++ x :: post = l ++ y :: x :: post := by simp
    have hlen : ((l ++ [y]).length : Int) - 1 = l.length := by simp
    rw [hshape, hlen]
    by_cases h : key < y
    · obtain ⟨lo, hi, z, hl, hlo, hhi, hrun⟩ := ih y (y :: post) hsl
      refine ⟨lo, hi ++ [y], z, by simp [hl], hlo, ?_, ?_⟩
      · intro w hw
        rcases List.mem_append.mp hw with hw | hw
        · exact hhi w hw
        · rw [List.mem_singleton.mp hw]
          exact h.le
      · rw [shift_move h, hrun]
        simp
    · refine ⟨l ++ [y], [], x, by simp, ?_, by simp, ?_⟩
      · intro w hw
        rcases List.mem_append.mp hw with hw | hw
        · exact le_trans (hly w hw y (by simp)) (not_lt.mp h)
        · rw [List.mem_singleton.mp hw]
          exact not_lt.mp h
      · rw [shift_stay h, hlen]
        simp

/-! ## The array is sorted -/

/-- One round of the loop over `j` inserts the key into the sorted part. -/
theorem sortFrom_insert {l : List Int} (key : Int) (post : List Int) (hs : l.Pairwise (· ≤ ·)) :
    ∃ l', l'.Pairwise (· ≤ ·) ∧ l'.Perm (l ++ [key]) ∧
      sortFrom (l ++ key :: post) (l ++ key :: post).length l.length =
        sortFrom (l' ++ post) (l' ++ post).length l'.length := by
  obtain ⟨lo, hi, h, rfl, hlo, hhi, hrun⟩ := shift_hole l key key post hs
  have hperm : (lo ++ key :: hi).Perm (lo ++ hi ++ [key]) := by
    rw [List.append_assoc]
    exact (List.perm_append_singleton key hi).symm.append_left lo
  have hlen := hperm.length_eq
  refine ⟨lo ++ key :: hi, ?_, hperm, ?_⟩
  · obtain ⟨h1, h2, h3⟩ := List.pairwise_append.mp hs
    refine List.pairwise_append.mpr ⟨h1, List.pairwise_cons.mpr ⟨hhi, h2⟩, ?_⟩
    intro a ha b hb
    rcases List.mem_cons.mp hb with rfl | hb
    · exact hlo a ha
    · exact h3 a ha b hb
  · have hstore : store (lo ++ h :: (hi ++ post)) (lo.length : Int) key = some (lo ++ key :: (hi ++ post)) :=
      store_at lo (hi ++ post) h key
    rw [sortFrom, dif_pos (by simp), load_at, Option.bind_eq_bind, Option.bind_some, hrun]
    simp only [Option.bind_eq_bind, Option.bind_some, sub_add_cancel, hstore]
    simp [Nat.add_assoc]

theorem sortFrom_sorts (post : List Int) : ∀ l : List Int, l.Pairwise (· ≤ ·) →
    ∃ r, sortFrom (l ++ post) (l ++ post).length l.length = some r ∧ r.Pairwise (· ≤ ·) ∧ r.Perm (l ++ post) := by
  induction post with
  | nil =>
    intro l hs
    refine ⟨l, ?_, hs, by simp⟩
    rw [sortFrom, dif_neg (by simp), List.append_nil]
  | cons key post ih =>
    intro l hs
    obtain ⟨l', hs', hperm, hstep⟩ := sortFrom_insert key post hs
    obtain ⟨r, hr, hrs, hrp⟩ := ih l' hs'
    refine ⟨r, hstep.trans hr, hrs, hrp.trans ?_⟩
    have := hperm.append_right post
    simpa using this

theorem sort_sorts (array : List Int) :
    ∃ r, sort array array.length = some r ∧ r.Pairwise (· ≤ ·) ∧ r.Perm array := by
  cases array with
  | nil => exact ⟨[], by simp [sort, sortFrom], List.Pairwise.nil, List.Perm.refl _⟩
  | cons x xs =>
    -- The loop starts at 1: one element is sorted.
    exact sortFrom_sorts xs [x] (List.pairwise_singleton _ x)

/-- Both sorts end without an access outside the array and leave its one sorted permutation. -/
theorem both_sort (array : List Int) :
    ∃ r, BubbleSort.sort array array.length = some r ∧ sort array array.length = some r ∧
      r.Pairwise (· ≤ ·) ∧ r.Perm array := by
  obtain ⟨r, hr, hrs, hrp⟩ := BubbleSort.sort_sorts array
  obtain ⟨r', hr', hrs', hrp'⟩ := sort_sorts array
  obtain rfl : r' = r := (hrp'.trans hrp.symm).eq_of_pairwise (fun a b _ _ => le_antisymm) hrs' hrs
  exact ⟨r', hr, hr', hrs, hrp⟩

end CS5600.Sort.InsertionSort
