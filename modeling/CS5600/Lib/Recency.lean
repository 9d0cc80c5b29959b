/-
  CS5600.Lib.Recency — least recently used.

  `lru cap` is a cache of at most `cap` elements kept from least to most recently used. `Before l
  x y` says that `y` was used after the last use of `x` in the uses `l`; the cache is always
  sorted by it (`Recent`, kept by `Recent.lru`), so the element in front is the one after whose
  last use all the others were used (`Recent.front_iff`). `newcomers` lists the elements in the
  order of their first use.
-/

import Mathlib

namespace CS5600.Lib.Recency

variable {α : Type}

/-! ## Who was used later -/

def Before (l : List α) (x y : α) : Prop := ∃ m, m <:+ l ∧ x ∉ m ∧ y ∈ m

theorem before_last (l : List α) {a x : α} (h : x ≠ a) : Before (l ++ [a]) x a :=
  ⟨[a], List.suffix_append l [a], by simpa using h, List.mem_singleton_self a⟩

theorem Before.snoc {l : List α} {a x y : α} (h : Before l x y) (hx : x ≠ a) : Before (l ++ [a]) x y := by
  obtain ⟨m, ⟨k, rfl⟩, hxm, hy⟩ := h
  exact ⟨m ++ [a], ⟨k, by simp⟩, by simp [hxm, hx], by simp [hy]⟩

theorem Before.asymm {l : List α} {x y : α} (h : Before l x y) : ¬ Before l y x := by
  intro g
  obtain ⟨m, hm, hx, hy⟩ := h
  obtain ⟨n, hn, hy', hx'⟩ := g
  rcases List.suffix_or_suffix_of_suffix hm hn with h | h
  · exact hy' (h.subset hy)
  · exact hx (h.subset hx')

/-- Nothing was used after the last use of the last element. -/
theorem not_before_last (l : List α) (a y : α) : ¬ Before (l ++ [a]) a y := by
  intro h
  obtain ⟨m, hm, ha, hy⟩ := h
  rcases List.suffix_concat_iff.mp hm with rfl | ⟨t, rfl, -⟩
  · cases hy
  · simp at ha

structure Recent (l q : List α) : Prop where
  nodup : q.Nodup
  sorted : q.Pairwise (Before l)

/-- What is kept of a cache, in order, with the element used now behind it. -/
theorem Recent.snoc {l q p : List α} {a : α} (h : Recent l q) (hs : p.Sublist q) (ha : a ∉ p) :
    Recent (l ++ [a]) (p ++ [a]) := by
  have hne : ∀ x ∈ p, x ≠ a := fun x hx e => ha (e ▸ hx)
  refine ⟨?_, ?_⟩
  · rw [List.nodup_append]
    refine ⟨h.nodup.sublist hs, List.nodup_singleton a, fun x hx b hb => ?_⟩
    rw [List.mem_singleton.mp hb]
    exact hne x hx
  · rw [List.pairwise_append]
    refine ⟨?_, List.pairwise_singleton _ _, fun x hx b hb => ?_⟩
    · exact (h.sorted.sublist hs).imp_of_mem fun hx _ hxy => hxy.snoc (hne _ hx)
    · rw [List.mem_singleton.mp hb]
      exact before_last l (hne x hx)

theorem Recent.front_iff {l q : List α} {x g : α} (h : Recent l (x :: q)) (hg : g ∈ x :: q) :
    x = g ↔ ∀ b ∈ x :: q, b ≠ g → Before l g b := by
  have hx := (List.pairwise_cons.mp h.sorted).1
  constructor
  · intro e b hb hne
    subst e
    exact hx b ((List.mem_cons.mp hb).resolve_left hne)
  · intro hall
    by_contra hne
    have hgq : g ∈ q := (List.mem_cons.mp hg).resolve_left (Ne.symm hne)
    exact (hx g hgq).asymm (hall x (List.mem_cons_self ..) hne)

/-! ## The cache -/

section Cache

variable [DecidableEq α] (cap : Nat)

def lru (q : List α) (a : α) : List α :=
  if a ∈ q then q.erase a ++ [a] else (if q.length = cap then q.tail else q) ++ [a]

variable {cap}

theorem Recent.lru {l q : List α} (h : Recent l q) (a : α) : Recent (l ++ [a]) (lru cap q a) := by
  unfold Recency.lru
  split
  · exact h.snoc List.erase_sublist (fun ha => (h.nodup.mem_erase_iff.mp ha).1 rfl)
  · rename_i ha
    split
    · exact h.snoc (List.tail_sublist q) (fun h => ha (List.mem_of_mem_tail h))
    · exact h.snoc (List.Sublist.refl q) ha

theorem mem_lru_hit {q : List α} {a : α} (ha : a ∈ q) (b : α) : b ∈ lru cap q a ↔ b ∈ q := by
  unfold lru
  rw [if_pos ha, List.mem_append, List.mem_singleton]
  by_cases e : b = a
  · subst e; simp [ha]
  · rw [List.mem_erase_of_ne e]; simp [e]

theorem length_lru_hit {q : List α} {a : α} (ha : a ∈ q) : (lru cap q a).length = q.length := by
  unfold lru
  rw [if_pos ha, List.length_append, List.length_singleton, List.length_erase_of_mem ha]
  have := List.length_pos_of_mem ha
  omega

end Cache

/-! ## Elements by their first use -/

section Newcomers

variable [DecidableEq α]

def newcomers (l : List α) : List α := l.foldl (fun n a => if a ∈ n then n else n ++ [a]) []

theorem newcomers_snoc (l : List α) (a : α) :
    newcomers (l ++ [a]) = if a ∈ newcomers l then newcomers l else newcomers l ++ [a] := by
  unfold newcomers
  rw [List.foldl_append]
  rfl

theorem mem_newcomers {l : List α} {b : α} : b ∈ newcomers l ↔ b ∈ l := by
  induction l using List.reverseRecOn with
  | nil => simp [newcomers]
  | append_singleton l a ih =>
    rw [newcomers_snoc]
    split
    · rename_i h
      rw [List.mem_append, List.mem_singleton, ih]
      constructor
      · exact Or.inl
      · intro hb
        rcases hb with hb | rfl
        · exact hb
        · exact ih.mp h
    · simp [ih]

theorem newcomers_nodup (l : List α) : (newcomers l).Nodup := by
  induction l using List.reverseRecOn with
  | nil => simp [newcomers]
  | append_singleton l a ih =>
    rw [newcomers_snoc]
    split
    · exact ih
    · rename_i h
      exact List.Nodup.append ih (List.nodup_singleton a) (by simpa using h)

theorem newcomers_length_le {l D : List α} (h : l ⊆ D) : (newcomers l).length ≤ D.length :=
  (List.subperm_of_subset (newcomers_nodup l) fun _ ha => h (mem_newcomers.mp ha)).length_le

end Newcomers

end CS5600.Lib.Recency
