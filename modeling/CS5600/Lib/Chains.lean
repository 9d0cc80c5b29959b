/-
  CS5600.Lib.Chains — singly linked lists through a `next` function on addresses, 0 for NULL.

  `Linked next a l`: the chain that starts at `a` runs through exactly the addresses `l` and
  ends in NULL (its addresses are those it `Reaches`). Such a chain repeats no address
  (`Linked.nodup`), is unique (`Linked.unique`), depends on `next` only at its own addresses
  (`Linked.congr`) and grows at its end by one write (`Linked.snoc`). `search` is the loop that follows `next` from `a` to the first address that
  satisfies a test, at most `fuel` of them; on a finite chain it is `List.find?` (`search_linked`).
-/

import Mathlib

namespace CS5600.Lib.Chains

def Linked (next : Nat → Nat) : Nat → List Nat → Prop
  | a, [] => a = 0
  | a, b :: l => a = b ∧ b ≠ 0 ∧ Linked next (next b) l

/-- `none`: the chain did not end within `fuel` addresses. -/
def search (next : Nat → Nat) (test : Nat → Bool) : Nat → Nat → Option Nat
  | 0, _ => none
  | fuel + 1, a =>
    if a = 0 then some 0
    else if test a then some a
    else search next test fuel (next a)

/-- `b` is a node of the chain that starts at `a`; the walk stops at NULL. -/
inductive Reaches (next : Nat → Nat) : Nat → Nat → Prop
  | here {a : Nat} : a ≠ 0 → Reaches next a a
  | next {a b : Nat} : a ≠ 0 → Reaches next (next a) b → Reaches next a b

variable {next : Nat → Nat}

theorem Linked.reaches_iff {a : Nat} {l : List Nat} (h : Linked next a l) (b : Nat) :
    Reaches next a b ↔ b ∈ l := by
  induction l generalizing a with
  | nil =>
    have ha : a = 0 := h
    subst ha
    simp only [List.not_mem_nil, iff_false]
    intro hr
    cases hr with
    | here h0 => exact h0 rfl
    | next h0 _ => exact h0 rfl
  | cons c l ih =>
    obtain ⟨rfl, hc, hl⟩ := h
    rw [List.mem_cons, ← ih hl]
    constructor
    · intro hr
      cases hr with
      | here _ => exact Or.inl rfl
      | next _ hr => exact Or.inr hr
    · intro h
      rcases h with rfl | hr
      · exact .here hc
      · exact .next hc hr

theorem Linked.ne_zero {a : Nat} {l : List Nat} (h : Linked next a l) : 0 ∉ l := by
  induction l generalizing a with
  | nil => simp
  | cons b l ih =>
    obtain ⟨-, hb, hl⟩ := h
    simp only [List.mem_cons, not_or]
    exact ⟨Ne.symm hb, ih hl⟩

theorem Linked.unique {a : Nat} {l l' : List Nat} (h : Linked next a l) (h' : Linked next a l') : l = l' := by
  induction l generalizing a l' with
  | nil =>
    cases l' with
    | nil => rfl
    | cons b l' => obtain ⟨rfl, hb, -⟩ := h'; exact absurd h hb
  | cons b l ih =>
    obtain ⟨rfl, hb, hl⟩ := h
    cases l' with
    | nil => exact absurd h' hb
    | cons c l' => obtain ⟨rfl, -, hl'⟩ := h'; rw [ih hl hl']

/-- The rest of a chain can be exchanged for another from the same address. -/
theorem Linked.splice {a : Nat} {l r : List Nat} (h : Linked next a (l ++ r)) :
    ∃ b, Linked next b r ∧ ∀ (next' : Nat → Nat) (r' : List Nat), (∀ c ∈ l, next' c = next c) →
      Linked next' b r' → Linked next' a (l ++ r') := by
  induction l generalizing a with
  | nil => exact ⟨a, h, fun _ _ _ hr => hr⟩
  | cons b l ih =>
    obtain ⟨rfl, hb, hl⟩ := h
    obtain ⟨c, hc, hsplice⟩ := ih hl
    refine ⟨c, hc, fun next' r' he hr => ⟨rfl, hb, ?_⟩⟩
    rw [he a (List.mem_cons_self ..)]
    exact hsplice next' r' (fun d hd => he d (List.mem_cons_of_mem _ hd)) hr

theorem Linked.of_cons {a : Nat} {l l' : List Nat} (h : Linked next a (l ++ a :: l')) : l = [] := by
  obtain ⟨b, hb, -⟩ := h.splice
  have hba : b = a := hb.1
  subst hba
  have := congrArg List.length (h.unique hb)
  simp only [List.length_append, List.length_cons] at this
  exact List.length_eq_zero_iff.mp (by omega)

/-- A chain that ends repeats no address: the rest of it would start over. -/
theorem Linked.nodup {a : Nat} {l : List Nat} (h : Linked next a l) : l.Nodup := by
  induction l generalizing a with
  | nil => exact List.nodup_nil
  | cons b l ih =>
    refine List.nodup_cons.mpr ⟨fun hm => ?_, ih h.2.2⟩
    obtain ⟨l1, l2, rfl⟩ := List.append_of_mem hm
    obtain ⟨rfl, hb, hl⟩ := h
    have : Linked next a ((a :: l1) ++ a :: l2) := ⟨rfl, hb, hl⟩
    exact absurd this.of_cons (List.cons_ne_nil _ _)

theorem Linked.congr {next' : Nat → Nat} {a : Nat} {l : List Nat} (h : Linked next a l)
    (he : ∀ b ∈ l, next' b = next b) : Linked next' a l := by
  rw [← List.append_nil l] at h ⊢
  obtain ⟨b, hb, hsplice⟩ := h.splice
  exact hsplice next' [] he hb

/-- Writing `n` into the last address appends it. -/
theorem Linked.snoc {next' : Nat → Nat} {a t n : Nat} {l : List Nat} (h : Linked next a (l ++ [t]))
    (he : ∀ b ∈ l, next' b = next b) (ht : next' t = n) (hn : n ≠ 0) (hend : next' n = 0) :
    Linked next' a (l ++ [t, n]) := by
  obtain ⟨b, ⟨rfl, hb, -⟩, hsplice⟩ := h.splice
  exact hsplice next' [b, n] he ⟨rfl, hb, ht, hn, hend⟩

/-- Writing NULL into the last address but one cuts the last off. -/
theorem Linked.cut {next' : Nat → Nat} {a t : Nat} {l l' : List Nat} (h : Linked next a (l ++ t :: l'))
    (he : ∀ b ∈ l, next' b = next b) (ht : next' t = 0) : Linked next' a (l ++ [t]) := by
  obtain ⟨b, ⟨rfl, hb, -⟩, hsplice⟩ := h.splice
  exact hsplice next' [b] he ⟨rfl, hb, ht⟩

theorem Linked.next_last {a t : Nat} {l : List Nat} (h : Linked next a (l ++ [t])) : next t = 0 := by
  induction l generalizing a with
  | nil => exact h.2.2
  | cons b l ih => exact ih h.2.2

/-- Only the last address has no successor. -/
theorem Linked.last_of_next {a b : Nat} {l : List Nat} (h : Linked next a l) (hb : b ∈ l) (hn : next b = 0) :
    ∃ l', l = l' ++ [b] := by
  induction l generalizing a with
  | nil => cases hb
  | cons c l ih =>
    obtain ⟨rfl, -, hl⟩ := h
    rcases List.mem_cons.mp hb with rfl | hb
    · cases l with
      | nil => exact ⟨[], rfl⟩
      | cons d l =>
        obtain ⟨e, hd, -⟩ := hl
        exact absurd (e.symm.trans hn) hd
    · obtain ⟨l', rfl⟩ := ih hl hb
      exact ⟨a :: l', rfl⟩

theorem Linked.head_mem {a : Nat} {l : List Nat} (h : Linked next a l) : a = 0 ∨ a ∈ l := by
  cases l with
  | nil => exact Or.inl h
  | cons b l => exact Or.inr (h.1 ▸ List.mem_cons_self ..)

theorem Linked.next_mem {a b : Nat} {l : List Nat} (h : Linked next a l) (hb : b ∈ l) : next b = 0 ∨ next b ∈ l := by
  induction l generalizing a with
  | nil => cases hb
  | cons c l ih =>
    obtain ⟨rfl, -, hl⟩ := h
    rcases List.mem_cons.mp hb with rfl | hb
    · exact hl.head_mem.imp_right (List.mem_cons_of_mem _)
    · exact (ih hl hb).imp_right (List.mem_cons_of_mem _)

theorem search_linked (test : Nat → Bool) {a : Nat} {l : List Nat} (h : Linked next a l) {fuel : Nat}
    (hf : l.length < fuel) : search next test fuel a = some ((l.find? test).getD 0) := by
  induction l generalizing a fuel with
  | nil =>
    obtain ⟨n, rfl⟩ := Nat.exists_eq_succ_of_ne_zero (by omega : fuel ≠ 0)
    have : a = 0 := h
    simp [search, this]
  | cons b l ih =>
    obtain ⟨n, rfl⟩ := Nat.exists_eq_succ_of_ne_zero (by omega : fuel ≠ 0)
    obtain ⟨rfl, hb, hl⟩ := h
    simp only [search, hb, if_false, List.find?_cons]
    cases ht : test a with
    | true => simp
    | false => simpa using ih hl (by simpa using hf)

theorem search_found {test : Nat → Bool} {a x : Nat} {l : List Nat} (h : Linked next a l) {fuel : Nat}
    (hf : l.length < fuel) (hs : search next test fuel a = some x) (hx : x ≠ 0) : x ∈ l ∧ test x = true := by
  rw [search_linked test h hf] at hs
  cases hfind : l.find? test with
  | none => simp [hfind] at hs; exact absurd hs.symm hx
  | some y =>
    simp only [hfind, Option.getD_some, Option.some.injEq] at hs
    subst hs
    exact ⟨List.mem_of_find?_eq_some hfind, List.find?_some hfind⟩

/-- A chain below `n` is shorter than `n`. -/
theorem Linked.length_lt {a n : Nat} {l : List Nat} (h : Linked next a l) (hn : 0 < n) (hl : ∀ b ∈ l, b < n) :
    l.length < n := by
  have hsub : (0 :: l) ⊆ List.range n := by
    intro b hb
    rw [List.mem_range]
    rcases List.mem_cons.mp hb with rfl | hb
    · exact hn
    · exact hl b hb
  have := (List.nodup_cons.mpr ⟨h.ne_zero, h.nodup⟩).subperm hsub |>.length_le
  simp only [List.length_cons, List.length_range] at this
  omega

end CS5600.Lib.Chains
