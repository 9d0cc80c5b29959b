/-
  CS5600.Alloc.FreeList — a list record and the blocks linked from it
  (`Assignment6_AdvancedMemory/starter/mymalloc.c`).

  `struct list { size_t size; block* head; block* tail; }` is 24 bytes with its fields at 0, 8
  and 16. `link` is the three statements that append a header to a list, as they stand after
  each new block in `initialize_arena` and in `mymalloc`. `IsList m r l`: the record at `r` has
  exactly the blocks `l`, from its head to its tail. `link_spec` is all that is used of `link`.
-/

import CS5600.Alloc.Block

namespace CS5600.Alloc.FreeList

open CS5600.Lib.Bytes CS5600.Lib.Chains CS5600.Alloc.Block

/-- `sizeof(list)` -/
def listSize : Nat := 24

def recSize (m : Mem) (r : Nat) : Nat := load m 8 r

def recHead (m : Mem) (r : Nat) : Nat := load m 8 (r + 8)

def recTail (m : Mem) (r : Nat) : Nat := load m 8 (r + 16)

def setRecSize (m : Mem) (r v : Nat) : Mem := store m 8 r v

def setRecHead (m : Mem) (r v : Nat) : Mem := store m 8 (r + 8) v

def setRecTail (m : Mem) (r v : Nat) : Mem := store m 8 (r + 16) v

/-- Append `header` to the list of the record `r`. -/
def link (m : Mem) (r header : Nat) : Mem :=
  let m := if recHead m r = 0 then setRecHead m r header else m
  let m := if recTail m r ≠ 0 then setNext m (recTail m r) header else m
  setRecTail m r header

structure IsList (m : Mem) (r : Nat) (l : List Nat) : Prop where
  linked : Linked (next m) (recHead m r) l
  tail : recTail m r = l.getLast?.getD 0

/-! ## Records -/

section Fields

variable {m m' : Mem} {r : Nat}

theorem recSize_agree (e : Agree m m' r 24) : recSize m r = recSize m' r := load_agree (e.sub (by omega) (by omega))

theorem recHead_agree (e : Agree m m' r 24) : recHead m r = recHead m' r := load_agree (e.sub (by omega) (by omega))

theorem recTail_agree (e : Agree m m' r 24) : recTail m r = recTail m' r := load_agree (e.sub (by omega) (by omega))

variable (m r)

@[simp] theorem recSize_setRecSize (v : Nat) : recSize (setRecSize m r v) r = v % 2 ^ 64 := load_store m 8 r v

@[simp] theorem recHead_setRecHead (v : Nat) : recHead (setRecHead m r v) r = v % 2 ^ 64 := load_store m 8 (r + 8) v

@[simp] theorem recTail_setRecTail (v : Nat) : recTail (setRecTail m r v) r = v % 2 ^ 64 := load_store m 8 (r + 16) v

@[simp] theorem recHead_setRecSize (v : Nat) : recHead (setRecSize m r v) r = recHead m r :=
  load_store_apart m v (Or.inl (by omega))

@[simp] theorem recTail_setRecSize (v : Nat) : recTail (setRecSize m r v) r = recTail m r :=
  load_store_apart m v (Or.inl (by omega))

@[simp] theorem recSize_setRecHead (v : Nat) : recSize (setRecHead m r v) r = recSize m r :=
  load_store_apart m v (Or.inr (by omega))

@[simp] theorem recTail_setRecHead (v : Nat) : recTail (setRecHead m r v) r = recTail m r :=
  load_store_apart m v (Or.inl (by omega))

@[simp] theorem recSize_setRecTail (v : Nat) : recSize (setRecTail m r v) r = recSize m r :=
  load_store_apart m v (Or.inr (by omega))

@[simp] theorem recHead_setRecTail (v : Nat) : recHead (setRecTail m r v) r = recHead m r :=
  load_store_apart m v (Or.inr (by omega))

end Fields

section Frames

variable (m : Mem) {r b k : Nat} (v : Nat)

theorem setRecSize_agree (a : Apart r 24 b k) : Agree (setRecSize m r v) m b k :=
  store_agree m v (by rcases a with a | a; exact Or.inl (by omega); exact Or.inr (by omega))

theorem setRecHead_agree (a : Apart r 24 b k) : Agree (setRecHead m r v) m b k :=
  store_agree m v (by rcases a with a | a; exact Or.inl (by omega); exact Or.inr (by omega))

theorem setRecTail_agree (a : Apart r 24 b k) : Agree (setRecTail m r v) m b k :=
  store_agree m v (by rcases a with a | a; exact Or.inl (by omega); exact Or.inr (by omega))

end Frames

/-- A list is read from its record and from its blocks' headers only. -/
theorem IsList.agree {m m' : Mem} {r : Nat} {l : List Nat} (h : IsList m r l) (hr : Agree m' m r 24)
    (hl : ∀ b ∈ l, Agree m' m b 24) : IsList m' r l := by
  refine ⟨?_, by rw [recTail_agree hr]; exact h.tail⟩
  rw [recHead_agree hr]
  exact h.linked.congr fun b hb => next_agree (hl b hb)

/-! ## Appending -/

/-- `link` writes the record and the header of the list's last block, nothing else. -/
theorem link_agree {m : Mem} {r h o k : Nat} {l : List Nat} (hl : IsList m r l) (hr : Apart r 24 o k)
    (hb : ∀ b ∈ l, Apart b 24 o k) : Agree (link m r h) m o k := by
  have h1 : Agree (if recHead m r = 0 then setRecHead m r h else m) m o k := by
    split
    · exact setRecHead_agree _ _ hr
    · exact Agree.refl _ _ _
  have ht : recTail (if recHead m r = 0 then setRecHead m r h else m) r = recTail m r := by split <;> simp
  simp only [link, ht]
  refine (setRecTail_agree _ _ hr).trans ?_
  split
  · rename_i hne
    have hmem : recTail m r ∈ l := by
      rw [hl.tail] at hne ⊢
      cases hg : l.getLast? with
      | none => simp [hg] at hne
      | some t => exact List.mem_of_getLast? hg
    exact (setNext_agree _ _ (hb _ hmem)).trans h1
  · exact h1

theorem link_spec {m : Mem} {r h : Nat} {l : List Nat} (hl : IsList m r l) (hr : ∀ b ∈ l, Apart r 24 b 24)
    (hrh : Apart r 24 h 24) (hb : ∀ b ∈ l, Apart b 24 h 24) (hpw : l.Pairwise fun b c => Apart b 24 c 24)
    (hn : next m h = 0) (h0 : h ≠ 0) (h64 : h < 2 ^ 64) :
    IsList (link m r h) r (l ++ [h]) ∧ recSize (link m r h) r = recSize m r ∧
      (∀ b ∈ l, size (link m r h) b = size m b ∧ inUse (link m r h) b = inUse m b) := by
  have hmod : h % 2 ^ 64 = h := Nat.mod_eq_of_lt h64
  rcases List.eq_nil_or_concat' l with rfl | ⟨l', t, rfl⟩
  · have hh : recHead m r = 0 := hl.linked
    have ht : recTail m r = 0 := hl.tail
    have hagree : Agree (setRecTail (setRecHead m r h) r h) m h 24 :=
      (setRecTail_agree _ _ hrh).trans (setRecHead_agree _ _ hrh)
    simp only [link, hh, if_true, recTail_setRecHead, ht, ne_eq, not_true_eq_false, if_false]
    refine ⟨⟨?_, ?_⟩, by simp, by simp⟩
    · rw [recHead_setRecTail, recHead_setRecHead, hmod]
      exact ⟨rfl, h0, (next_agree hagree).trans hn⟩
    · rw [recTail_setRecTail, hmod]; simp
  · have htail : recTail m r = t := by simpa using hl.tail
    have hmem : t ∈ l' ++ [t] := by simp
    have ht0 : t ≠ 0 := fun e => hl.linked.ne_zero (e ▸ hmem)
    have hh : recHead m r ≠ 0 := by
      intro e
      have hlk := hl.linked
      rw [e] at hlk
      cases l' with
      | nil => exact ht0 hlk.1.symm
      | cons b l' => exact hlk.2.1 hlk.1.symm
    have hnd := hl.linked.nodup
    have hsym : Std.Symm fun b c => Apart b 24 c 24 := ⟨fun _ _ h => h.symm⟩
    have hrec : Agree (setNext m t h) m r 24 := setNext_agree _ _ (hr t hmem).symm
    have hnew : Agree (setRecTail (setNext m t h) r h) m h 24 :=
      (setRecTail_agree _ _ hrh).trans (setNext_agree _ _ (hb t hmem))
    have hother : ∀ b ∈ l' ++ [t], b ≠ t → Agree (setRecTail (setNext m t h) r h) m b 24 := fun b hbl hne =>
      (setRecTail_agree _ _ (hr b hbl)).trans (setNext_agree _ _ (hpw.forall hmem hbl (Ne.symm hne)))
    have hlast : Agree (setRecTail (setNext m t h) r h) (setNext m t h) t 24 := setRecTail_agree _ _ (hr t hmem)
    simp only [link, hh, if_false, htail, ne_eq, ht0, not_false_eq_true, if_true]
    refine ⟨⟨?_, ?_⟩, ?_, fun b hbl => ?_⟩
    · rw [recHead_setRecTail, recHead_agree hrec, List.append_assoc]
      refine hl.linked.snoc (fun b hbl => next_agree (hother b (List.mem_append_left _ hbl) ?_)) ?_ h0 ?_
      · intro e
        subst e
        exact List.disjoint_of_nodup_append hnd hbl (List.mem_singleton.mpr rfl)
      · rw [next_agree hlast, next_setNext, hmod]
      · exact (next_agree hnew).trans hn
    · rw [recTail_setRecTail, hmod]; simp
    · rw [recSize_setRecTail, recSize_agree hrec]
    · by_cases e : b = t
      · subst e
        exact ⟨(size_agree hlast).trans (size_setNext _ _ _), (inUse_agree hlast).trans (inUse_setNext _ _ _)⟩
      · exact ⟨size_agree (hother b hbl e), inUse_agree (hother b hbl e)⟩

end CS5600.Alloc.FreeList
