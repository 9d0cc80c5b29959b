/-
  CS5600.Xv6.FsIcache — who has an inode in memory (`icache` of `fs.c`).

  To its users `icache` is a number of references for each inode, and whether the inode has been read since the first of
  them was given out: `Table`. One lemma (`Table.set`) covers what `iget`, `idup`, `ilock` and `iput` do to an
  entry. There is an empty one exactly while fewer than NINODE inodes are referred to (`Table.empty`).
-/

import CS5600.Xv6.Fs

namespace CS5600.Xv6.Fs

/-- Each of the `n` inodes that is referred to has one entry. -/
structure Table (n : Nat) (icache : Fin ninode → Entry) (refs : Nat → Nat) (valid : Nat → Bool) : Prop where
  inum : ∀ p, 0 < (icache p).ref → (icache p).inum < n
  count : ∀ p, 0 < (icache p).ref → refs (icache p).inum = (icache p).ref
  read : ∀ p, 0 < (icache p).ref → valid (icache p).inum = (icache p).valid
  distinct : ∀ p q, 0 < (icache p).ref → 0 < (icache q).ref → (icache p).inum = (icache q).inum → p = q
  found : ∀ i, 0 < refs i → ∃ p, 0 < (icache p).ref ∧ (icache p).inum = i

/-- The entry of an inode that is referred to. -/
structure Entry.For (e : Entry) (i n refs : Nat) (valid : Bool) : Prop where
  inum : e.inum = i
  lt : i < n
  ref : e.ref = refs
  pos : 0 < refs
  read : e.valid = valid

/-- The inodes that are referred to. -/
def referred (n : Nat) (refs : Nat → Nat) : Finset Nat := (Finset.range n).filter fun j => 0 < refs j

variable {n i : Nat} {y : Sys} {icache : Fin ninode → Entry} {refs : Nat → Nat} {valid : Nat → Bool} {p : Fin ninode} {e : Entry}

/-- An entry changes; if it was in use, it is still that of the same inode, and if not, no other is. -/
theorem Table.set (h : Table n icache refs valid) (hi : e.inum < n) (hp : 0 < (icache p).ref → (icache p).inum = e.inum)
    (hfresh : ∀ q, q ≠ p → 0 < (icache q).ref → (icache q).inum ≠ e.inum) :
    Table n (Function.update icache p e) (Function.update refs e.inum e.ref) (Function.update valid e.inum e.valid) := by
  refine ⟨fun q hq => ?_, fun q hq => ?_, fun q hq => ?_, fun q r hq hr hqr => ?_, fun j hj => ?_⟩
  · by_cases eq : q = p
    · rw [eq, Function.update_self]
      exact hi
    · rw [Function.update_of_ne eq] at hq ⊢
      exact h.inum q hq
  · by_cases eq : q = p
    · rw [eq, Function.update_self, Function.update_self]
    · rw [Function.update_of_ne eq] at hq ⊢
      rw [Function.update_of_ne (hfresh q eq hq), h.count q hq]
  · by_cases eq : q = p
    · rw [eq, Function.update_self, Function.update_self]
    · rw [Function.update_of_ne eq] at hq ⊢
      rw [Function.update_of_ne (hfresh q eq hq), h.read q hq]
  · by_cases eq : q = p <;> by_cases er : r = p
    · rw [eq, er]
    · rw [eq, Function.update_self, Function.update_of_ne er] at hqr
      rw [Function.update_of_ne er] at hr
      exact absurd hqr.symm (hfresh r er hr)
    · rw [er, Function.update_self, Function.update_of_ne eq] at hqr
      rw [Function.update_of_ne eq] at hq
      exact absurd hqr (hfresh q eq hq)
    · rw [Function.update_of_ne eq] at hq hqr
      rw [Function.update_of_ne er] at hr hqr
      exact h.distinct q r hq hr hqr
  · by_cases ej : j = e.inum
    · rw [ej, Function.update_self] at hj
      refine ⟨p, ?_⟩
      rw [Function.update_self]
      exact ⟨hj, ej.symm⟩
    · rw [Function.update_of_ne ej] at hj
      obtain ⟨q, hq, hqj⟩ := h.found j hj
      have eq : q ≠ p := by
        intro eq
        rw [eq] at hq hqj
        exact ej (hqj.symm.trans (hp hq))
      refine ⟨q, ?_⟩
      rw [Function.update_of_ne eq]
      exact ⟨hq, hqj⟩

/-- The entry of an inode is no other's. -/
theorem Table.only (h : Table n icache refs valid) (hp : (icache p).For i n (refs i) (valid i)) (q : Fin ninode) (hq : q ≠ p)
    (hr : 0 < (icache q).ref) : (icache q).inum ≠ i := by
  intro e
  exact hq (h.distinct q p hr (by rw [hp.ref]; exact hp.pos) (e.trans hp.inum.symm))

/-- `iget` and the callers find the entry of an inode if there are references to it. -/
theorem Table.cached (h : Table n y.icache refs valid) (i : Nat) :
    (refs i = 0 ∧ y.cached i = none) ∨ ∃ p, y.cached i = some p ∧ (y.icache p).For i n (refs i) (valid i) := by
  unfold Sys.cached
  cases hfind : (List.finRange ninode).find? fun p => decide (0 < (y.icache p).ref ∧ (y.icache p).inum = i) with
  | none =>
    refine .inl ⟨?_, rfl⟩
    by_contra hne
    obtain ⟨p, hp, hi⟩ := h.found i (Nat.pos_of_ne_zero hne)
    have := List.find?_eq_none.mp hfind p (List.mem_finRange p)
    simp [hp, hi] at this
  | some p =>
    obtain ⟨hp, hi⟩ : 0 < (y.icache p).ref ∧ (y.icache p).inum = i := by simpa using List.find?_some hfind
    refine .inr ⟨p, rfl, hi, hi ▸ h.inum p hp, ?_, ?_, ?_⟩
    · rw [← h.count p hp, hi]
    · rw [← hi, h.count p hp]
      exact hp
    · rw [← h.read p hp, hi]

/-- As many entries are in use as inodes are referred to. -/
theorem Table.card (h : Table n icache refs valid) :
    (Finset.univ.filter fun p => 0 < (icache p).ref).card = (referred n refs).card := by
  refine Finset.card_bij (fun p _ => (icache p).inum) ?_ ?_ ?_
  · intro p hp
    have hp := (Finset.mem_filter.mp hp).2
    rw [referred, Finset.mem_filter, Finset.mem_range, h.count p hp]
    exact ⟨h.inum p hp, hp⟩
  · intro p hp q hq
    exact h.distinct p q (Finset.mem_filter.mp hp).2 (Finset.mem_filter.mp hq).2
  · intro i hi
    obtain ⟨p, hp, hpi⟩ := h.found i (Finset.mem_filter.mp hi).2
    exact ⟨p, Finset.mem_filter.mpr ⟨Finset.mem_univ p, hp⟩, hpi⟩

theorem Table.empty (h : Table n y.icache refs valid) :
    ((referred n refs).card < ninode ∧ ∃ p, y.empty = some p ∧ (y.icache p).ref = 0) ∨
      (¬ (referred n refs).card < ninode ∧ y.empty = none) := by
  rw [← h.card]
  unfold Sys.empty
  cases hfind : (List.finRange ninode).find? fun p => decide ((y.icache p).ref = 0) with
  | some p =>
    have hp : (y.icache p).ref = 0 := by simpa using List.find?_some hfind
    refine .inl ⟨?_, p, rfl, hp⟩
    calc (Finset.univ.filter fun p => 0 < (y.icache p).ref).card
        < (Finset.univ : Finset (Fin ninode)).card := by
          refine Finset.card_lt_card (Finset.filter_ssubset.mpr ⟨p, Finset.mem_univ p, ?_⟩)
          omega
      _ = ninode := Finset.card_fin ninode
  | none =>
    refine .inr ⟨?_, rfl⟩
    have hall : (Finset.univ.filter fun p => 0 < (y.icache p).ref) = Finset.univ := by
      refine Finset.filter_true_of_mem fun p _ => ?_
      have := List.find?_eq_none.mp hfind p (List.mem_finRange p)
      simp only [decide_eq_true_eq] at this
      omega
    rw [hall, Finset.card_fin]
    exact lt_irrefl _

end CS5600.Xv6.Fs
