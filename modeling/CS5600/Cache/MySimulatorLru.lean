/-
  CS5600.Cache.MySimulatorLru — how far the LRU attempt is LRU.

  The reference keeps each set's addresses from least to most recently used (`lruStep`). The
  simulator evicts the line of the largest age: the last line accessed in sets 1 and 2, the last
  line filled in set 3; set 0 evicts nothing. So once four addresses are in, three of them stay
  for good, and the fourth line has one guest after the other.

  Proved: a set of the simulator is the reference exactly as long as the accesses of the set are
  `Tame` (`set_lru_iff`): two different addresses besides the first three are never used in sets
  0, 1 and 2, and in set 3 only with each of the first three used in between; and so for whole
  traces (`lru_iff`).
-/

import CS5600.Cache.MySimulator
import CS5600.Lib.Recency

namespace CS5600.Cache.MySimulatorLru

open CS5600.Cache.Binary CS5600.Lib.Runs CS5600.Lib.Banks CS5600.Lib.Recency
open CS5600.Cache.MySimulator
open CS5600.Cache.SimulatorFifo (Verdict lowBits)

/-- The reference: four addresses at most, the least recently used one in front. -/
def lruStep (q : List (List Char)) (a : List Char) : List (List Char) × Verdict :=
  (lru 4 q a, if a ∈ q then .hit else .miss)

def lruBanks : (Fin 4 → List (List Char)) → List Char → (Fin 4 → List (List Char)) × Verdict :=
  bankStep lowBits fun _ => lruStep

/-- The first three addresses. -/
def firsts (l : List (List Char)) : List (List Char) := (newcomers l).take 3

/-- Between two accesses to different addresses that are not among the first three, the set is
    of the kind that ignores hits and each of the first three is accessed. -/
def Tame (κ : Kind) (l : List (List Char)) : Prop :=
  ∀ x m y, x :: (m ++ [y]) <:+: l → x ∉ firsts l → y ∉ firsts l → x ≠ y → κ = .deaf ∧ ∀ f ∈ firsts l, f ∈ m

/-! ## The first three and the guest -/

theorem firsts_snoc {l : List (List Char)} (h : 3 ≤ (newcomers l).length) (a : List Char) :
    firsts (l ++ [a]) = firsts l := by
  unfold firsts
  rw [newcomers_snoc]
  split
  · rfl
  · rw [List.take_append_of_le_length h]

theorem newcomers_length_snoc (l : List (List Char)) (a : List Char) :
    (newcomers l).length ≤ (newcomers (l ++ [a])).length := by
  rw [newcomers_snoc]
  split <;> simp

theorem fourth_newcomer {l : List (List Char)} (h : (newcomers l).length ≤ 4) {z : List Char} (hz : z ∈ l)
    (hzf : z ∉ firsts l) : (newcomers l)[3]? = some z := by
  obtain ⟨i, hi, hget⟩ := List.getElem_of_mem (mem_newcomers.mpr hz)
  have h3 : 3 ≤ i := by
    by_contra hlt
    exact hzf (List.mem_take_iff_getElem.mpr ⟨i, by omega, hget⟩)
  obtain rfl : i = 3 := by omega
  rw [List.getElem?_eq_getElem hi, hget]

/-- With four addresses at most only one is not among the first three. -/
theorem tame_few (κ : Kind) {l : List (List Char)} (h : (newcomers l).length ≤ 4) : Tame κ l := by
  intro x m y hin hx hy hne
  have e1 := fourth_newcomer h (hin.subset (List.mem_cons_self ..)) hx
  have e2 := fourth_newcomer h (hin.subset (by simp)) hy
  exact absurd (Option.some.inj (e1.symm.trans e2)) hne

/-- The last address accessed besides the first three. -/
def Guest (l : List (List Char)) (g : List Char) : Prop :=
  ∃ m, g :: m <:+ l ∧ g ∉ firsts l ∧ ∀ b ∈ m, b ∈ firsts l

theorem Guest.stays {l : List (List Char)} {g : List Char} (h : Guest l g) (h3 : 3 ≤ (newcomers l).length)
    {a : List Char} (ha : a ∈ firsts l) : Guest (l ++ [a]) g := by
  obtain ⟨m, ⟨k, hk⟩, hg, hm⟩ := h
  refine ⟨m ++ [a], ⟨k, by rw [← hk]; simp⟩, by rw [firsts_snoc h3]; exact hg, fun b hb => ?_⟩
  rw [firsts_snoc h3]
  rcases List.mem_append.mp hb with hb | hb
  · exact hm b hb
  · rw [List.mem_singleton.mp hb]; exact ha

theorem guest_last {l : List (List Char)} {a : List Char} (h : a ∉ firsts (l ++ [a])) : Guest (l ++ [a]) a :=
  ⟨[], List.suffix_append l [a], h, by simp⟩

/-- Whatever else is not among the first three was accessed before the guest. -/
theorem Guest.behind {l m n : List (List Char)} {g x : List Char} (hm : g :: m <:+ l) (hmf : ∀ b ∈ m, b ∈ firsts l)
    (hn : x :: n <:+ l) (hx : x ∉ firsts l) : g :: m <:+ x :: n := by
  rcases List.suffix_or_suffix_of_suffix hm hn with h | h
  · exact h
  · rcases List.suffix_cons_iff.mp h with h | h
    · rw [h]
    · exact absurd (hmf x (h.subset (List.mem_cons_self ..))) hx

/-- Two accesses of the longer list: the second is the last, or both are of the shorter one. -/
theorem pair_snoc {l m : List (List Char)} {a x y : List Char} (h : x :: (m ++ [y]) <:+: l ++ [a]) :
    (y = a ∧ x :: m <:+ l) ∨ x :: (m ++ [y]) <:+: l := by
  rcases List.infix_concat_iff.mp h with h | h
  · rcases List.suffix_concat_iff.mp h with h | ⟨t, ht, hs⟩
    · cases h
    · rw [← List.cons_append] at ht
      obtain ⟨rfl, e⟩ := List.append_inj' ht rfl
      exact .inl ⟨by simpa using e, hs⟩
  · exact .inr h

theorem Tame.init {κ : Kind} {l : List (List Char)} {a : List Char} (h : Tame κ (l ++ [a])) : Tame κ l := by
  by_cases h3 : 3 ≤ (newcomers l).length
  · intro x m y hin hx hy hne
    have := h x m y (hin.trans (List.prefix_append l [a]).isInfix)
    rw [firsts_snoc h3] at this
    exact this hx hy hne
  · exact tame_few κ (by omega)

/-- An access to the guest or to one of the first three adds no pair that is not tame. -/
theorem Tame.again {κ : Kind} {l : List (List Char)} (h : Tame κ l) (h3 : 3 ≤ (newcomers l).length) {a : List Char}
    (ha : a ∈ firsts l ∨ Guest l a) : Tame κ (l ++ [a]) := by
  intro x m y hin hx hy hne
  rw [firsts_snoc h3] at hx hy ⊢
  rcases pair_snoc hin with ⟨rfl, hs⟩ | hin
  · rcases ha with ha | ⟨n, hn, hg, hnf⟩
    · exact absurd ha hy
    · obtain ⟨k, hk⟩ := Guest.behind hn hnf hs hx
      cases k with
      | nil => rw [List.nil_append, List.cons.injEq] at hk; exact absurd hk.1.symm hne
      | cons z k =>
        rw [List.cons_append, List.cons.injEq] at hk
        obtain ⟨rfl, rfl⟩ := hk
        have hpair : z :: (k ++ [y]) <:+: l := by
          obtain ⟨u, hu⟩ := hs
          exact ⟨u, n, by rw [← hu]; simp⟩
        obtain ⟨hd, hall⟩ := h z k y hpair hx hg hne
        exact ⟨hd, fun f hf => List.mem_append_left _ (hall f hf)⟩
  · exact h x m y hin hx hy hne

/-- An access to a third address besides the first three is tame exactly if the first three were
    all accessed after the guest, in the kind of set that ignores hits. -/
theorem tame_new_iff {κ : Kind} {l : List (List Char)} (h : Tame κ l) (h3 : 3 ≤ (newcomers l).length)
    {g a : List Char} (hg : Guest l g) (ha : a ∉ firsts l) (hne : a ≠ g) :
    Tame κ (l ++ [a]) ↔ κ = .deaf ∧ ∀ f ∈ firsts l, Before l g f := by
  obtain ⟨m, hm, hgf, hmf⟩ := hg
  have hgm : g ∉ m := fun hgm => hgf (hmf g hgm)
  constructor
  · intro ht
    have hpair : g :: (m ++ [a]) <:+: l ++ [a] := by
      obtain ⟨k, hk⟩ := hm
      exact ⟨k, [], by rw [← hk]; simp⟩
    have h1 := ht g m a hpair
    rw [firsts_snoc h3] at h1
    obtain ⟨hd, hall⟩ := h1 hgf ha (Ne.symm hne)
    exact ⟨hd, fun f hf => ⟨m, (List.suffix_cons g m).trans hm, hgm, hall f hf⟩⟩
  · intro hb
    obtain ⟨hd, hall⟩ := hb
    have hin : ∀ f ∈ firsts l, f ∈ m := by
      intro f hf
      obtain ⟨n, hn, hgn, hfn⟩ := hall f hf
      rcases List.suffix_or_suffix_of_suffix hn hm with h' | h'
      · rcases List.suffix_cons_iff.mp h' with e | h'
        · exact absurd (e ▸ List.mem_cons_self ..) hgn
        · exact h'.subset hfn
      · exact absurd (h'.subset (List.mem_cons_self ..)) hgn
    intro x n y hxy hx hy hne'
    rw [firsts_snoc h3] at hx hy ⊢
    rcases pair_snoc hxy with ⟨rfl, hs⟩ | hxy
    · refine ⟨hd, fun f hf => ?_⟩
      have hsub := Guest.behind hm hmf hs hx
      rcases List.suffix_cons_iff.mp hsub with e | hsub
      · rw [List.cons.injEq] at e
        rw [← e.2]; exact hin f hf
      · exact hsub.subset (List.mem_cons_of_mem _ (hin f hf))
    · exact h x n y hxy hx hy hne'

/-! ## One access of one set -/

/-- The simulator's set and the reference's after the same accesses `l`. -/
structure Tracks (κ : Kind) (l : List (List Char)) (c : CacheSet) (q : List (List Char)) : Prop where
  filled : c.filled = min 4 (newcomers l).length
  few : κ ≠ .deaf → (newcomers l).length ≤ 4
  lines : ∀ i : Fin 4, i.val < 3 → i.val < (newcomers l).length → (newcomers l)[i.val]? = some (c.data i)
  guest : 4 ≤ (newcomers l).length → Guest l (c.data 3)
  /-- The largest age: the last line filled if hits renew no age, else the last line accessed. -/
  top_deaf : κ = .deaf → 4 ≤ (newcomers l).length → ∀ i, i ≠ 3 → c.age i < c.age 3
  top : κ ≠ .deaf → ∀ a, l.getLast? = some a → ∃ p, c.data p = a ∧ ∀ i, i ≠ p → c.age i < c.age p
  clock : ∀ i, c.age i < c.counter
  length : q.length = c.filled
  mem : ∀ a, a ∈ q ↔ Stored c a
  recent : Recent l q

theorem Tracks.data_cases {κ : Kind} {l q : List (List Char)} {c : CacheSet} (h : Tracks κ l c q) {i : Fin 4}
    (hi : i.val < c.filled) : c.data i ∈ firsts l ∨ i = 3 ∧ 4 ≤ (newcomers l).length := by
  have hlen := h.filled
  by_cases h3 : i.val < 3
  · left
    obtain ⟨hi', hget⟩ := List.getElem?_eq_some_iff.mp (h.lines i h3 (by omega))
    exact List.mem_take_iff_getElem.mpr ⟨i.val, by omega, hget⟩
  · right
    refine ⟨Fin.ext ?_, by omega⟩
    show i.val = 3
    omega

theorem Tracks.stored_first {κ : Kind} {l q : List (List Char)} {c : CacheSet} (h : Tracks κ l c q) {f : List Char}
    (hf : f ∈ firsts l) : Stored c f := by
  obtain ⟨i, hi, rfl⟩ := List.mem_take_iff_getElem.mp hf
  have hlen := h.filled
  have hget := h.lines ⟨i, by omega⟩ (by show i < 3; omega) (by show i < _; omega)
  obtain ⟨hi', e⟩ := List.getElem?_eq_some_iff.mp hget
  exact ⟨⟨i, by omega⟩, by show i < c.filled; omega, e.symm⟩

/-- A stored address is one of the first three or the guest. -/
theorem Tracks.stored_cases {κ : Kind} {l q : List (List Char)} {c : CacheSet} (h : Tracks κ l c q) {a : List Char}
    (ha : Stored c a) : a ∈ firsts l ∨ a = c.data 3 ∧ 4 ≤ (newcomers l).length := by
  obtain ⟨i, hi, rfl⟩ := ha
  rcases h.data_cases hi with hf | ⟨rfl, h4⟩
  · exact .inl hf
  · exact .inr ⟨rfl, h4⟩

theorem Tracks.stored_newcomer {κ : Kind} {l q : List (List Char)} {c : CacheSet} (h : Tracks κ l c q) {a : List Char}
    (ha : Stored c a) : a ∈ newcomers l := by
  rcases h.stored_cases ha with hf | ⟨rfl, h4⟩
  · exact List.mem_of_mem_take hf
  · obtain ⟨m, hm, -⟩ := h.guest h4
    exact mem_newcomers.mpr (hm.subset (List.mem_cons_self ..))

/-- Four addresses at most are all kept. -/
theorem Tracks.mem_of_few {κ : Kind} {l q : List (List Char)} {c : CacheSet} (h : Tracks κ l c q)
    (h4 : (newcomers l).length ≤ 4) {a : List Char} (ha : a ∈ newcomers l) : Stored c a := by
  by_cases hf : a ∈ firsts l
  · exact h.stored_first hf
  · have hlen := h.filled
    have ea := fourth_newcomer h4 (mem_newcomers.mp ha) hf
    have h3 : 3 < (newcomers l).length := (List.getElem?_eq_some_iff.mp ea).1
    obtain ⟨m, hm, hg, -⟩ := h.guest h3
    have eg := fourth_newcomer h4 (hm.subset (List.mem_cons_self ..)) hg
    exact ⟨3, by show 3 < c.filled; omega, Option.some.inj (eg.symm.trans ea)⟩

theorem Tracks.hit {κ : Kind} {l q : List (List Char)} {c : CacheSet} (h : Tracks κ l c q) {a : List Char} {i : Fin 4}
    (hi : i.val < c.filled) (ha : c.data i = a) :
    Tracks κ (l ++ [a]) (if κ = .deaf then c else c.renew i) (lru 4 q a) := by
  have haq : a ∈ q := (h.mem a).mpr ⟨i, hi, ha⟩
  have hlen := h.filled
  have hal : a ∈ newcomers l := h.stored_newcomer ⟨i, hi, ha⟩
  have hnew : newcomers (l ++ [a]) = newcomers l := by rw [newcomers_snoc, if_pos hal]
  have hguest : 4 ≤ (newcomers l).length → Guest (l ++ [a]) (c.data 3) := by
    intro h4
    rcases h.stored_cases ⟨i, hi, ha⟩ with hf | ⟨rfl, -⟩
    · exact (h.guest h4).stays (by omega) hf
    · obtain ⟨m, -, hg, -⟩ := h.guest h4
      refine guest_last ?_
      rw [firsts_snoc (by omega)]; exact hg
  by_cases hd : κ = .deaf
  · rw [if_pos hd]
    refine ⟨?_, fun hne => absurd hd hne, ?_, ?_, ?_, fun hne => absurd hd hne, h.clock, ?_, ?_, h.recent.lru a⟩
    · rw [hnew]; exact hlen
    · rw [hnew]; exact h.lines
    · rw [hnew]; exact hguest
    · rw [hnew]; exact h.top_deaf
    · rw [length_lru_hit haq]; exact h.length
    · intro b; rw [mem_lru_hit haq]; exact h.mem b
  · rw [if_neg hd]
    obtain ⟨htop, hclock⟩ := update_age_lt h.clock i
    refine ⟨?_, ?_, ?_, ?_, fun hd' => absurd hd' hd, ?_, hclock, ?_, ?_, h.recent.lru a⟩
    · rw [hnew]; exact hlen
    · rw [hnew]; exact h.few
    · rw [hnew]; exact h.lines
    · rw [hnew]; exact hguest
    · intro _ b hb
      rw [List.getLast?_concat, Option.some.injEq] at hb
      exact ⟨i, by rw [← hb]; exact ha, htop⟩
    · rw [length_lru_hit haq]; exact h.length
    · intro b; rw [mem_lru_hit haq]; exact h.mem b

theorem lru_miss_free {q : List (List Char)} {a : List Char} (ha : a ∉ q) (h : q.length ≠ 4) : lru 4 q a = q ++ [a] := by
  unfold lru
  rw [if_neg ha, if_neg h]

theorem lru_miss_full {q : List (List Char)} {x a : List Char} (ha : a ∉ x :: q) (h : (x :: q).length = 4) :
    lru 4 (x :: q) a = q ++ [a] := by
  unfold lru
  rw [if_neg ha, if_pos h]
  rfl

theorem Tracks.free {κ : Kind} {l q : List (List Char)} {c : CacheSet} (h : Tracks κ l c q) {a : List Char}
    (h4 : c.filled ≠ 4) (ha : ¬ Stored c a) :
    Tracks κ (l ++ [a]) { c.put (Fin.ofNat 4 c.filled) a with filled := c.filled + 1 } (lru 4 q a) := by
  have hlen := h.filled
  have hal : a ∉ newcomers l := fun hal => ha (h.mem_of_few (by omega) hal)
  have hnew : newcomers (l ++ [a]) = newcomers l ++ [a] := by rw [newcomers_snoc, if_neg hal]
  have hnl : (newcomers (l ++ [a])).length = (newcomers l).length + 1 := by rw [hnew]; simp
  have haq : a ∉ q := fun haq => ha ((h.mem a).mp haq)
  have hlru : lru 4 q a = q ++ [a] := lru_miss_free haq (by rw [h.length]; exact h4)
  obtain ⟨p, hp⟩ : ∃ p : Fin 4, Fin.ofNat 4 c.filled = p := ⟨_, rfl⟩
  have hpv : p.val = c.filled := by rw [← hp]; exact Nat.mod_eq_of_lt (by omega)
  obtain ⟨htop, hclock⟩ := update_age_lt h.clock p
  rw [hp]
  refine ⟨by rw [hnl]; show c.filled + 1 = _; omega, fun _ => by omega, fun i h3 hi => ?_, fun h4' => ?_,
    fun _ h4' => ?_, fun _ b hb => ?_, hclock, ?_, fun b => ?_, h.recent.lru a⟩
  · by_cases e : i = p
    · subst e
      simp only [put_data, Function.update_self]
      rw [hnew, List.getElem?_append_right (by omega), show i.val - (newcomers l).length = 0 by omega]
      rfl
    · have hne : i.val ≠ p.val := fun e' => e (Fin.ext e')
      simp only [put_data, Function.update_of_ne e]
      rw [hnew, List.getElem?_append_left (by omega)]
      exact h.lines i h3 (by omega)
  · obtain rfl : p = 3 := Fin.ext (by show p.val = 3; omega)
    simp only [put_data, Function.update_self]
    refine guest_last ?_
    unfold MySimulatorLru.firsts
    rw [hnew, List.take_append_of_le_length (by omega)]
    exact fun hf => hal (List.mem_of_mem_take hf)
  · obtain rfl : p = 3 := Fin.ext (by show p.val = 3; omega)
    exact htop
  · rw [List.getLast?_concat, Option.some.injEq] at hb
    subst hb
    exact ⟨p, by simp, htop⟩
  · rw [hlru, List.length_append, h.length]; rfl
  · rw [hlru, List.mem_append, List.mem_singleton, h.mem]
    constructor
    · intro hb
      rcases hb with ⟨i, hi, rfl⟩ | rfl
      · have hne : i ≠ p := by intro e; subst e; omega
        exact ⟨i, by show i.val < c.filled + 1; omega, by simp [hne]⟩
      · exact ⟨p, by show p.val < c.filled + 1; omega, by simp⟩
    · intro hb
      obtain ⟨i, hi, hd⟩ := hb
      have hi' : i.val < c.filled + 1 := hi
      by_cases e : i = p
      · subst e
        simp only [put_data, Function.update_self] at hd
        exact .inr hd.symm
      · have hne : i.val ≠ p.val := fun e' => e (Fin.ext e')
        simp only [put_data, Function.update_of_ne e] at hd
        exact .inl ⟨i, by omega, hd⟩

/-! ## A miss in a full set -/

theorem Tracks.inj {κ : Kind} {l q : List (List Char)} {c : CacheSet} (h : Tracks κ l c q) {i j : Fin 4}
    (hi : i.val < c.filled) (hj : j.val < c.filled) (e : c.data i = c.data j) : i = j := by
  have hlen := h.filled
  have hguest : ∀ i : Fin 4, i.val < 3 → i.val < c.filled → 4 ≤ (newcomers l).length → c.data i ≠ c.data 3 := by
    intro i h3 hi h4 e
    obtain ⟨m, -, hg, -⟩ := h.guest h4
    rcases h.data_cases hi with hf | ⟨rfl, -⟩
    · exact hg (e ▸ hf)
    · exact absurd h3 (by decide)
  by_cases h3i : i.val < 3
  · by_cases h3j : j.val < 3
    · have e1 := h.lines i h3i (by omega)
      have e2 := h.lines j h3j (by omega)
      rw [e, ← e2] at e1
      exact Fin.ext ((List.getElem?_inj (by omega) (newcomers_nodup l)).mp e1)
    · obtain rfl : j = 3 := Fin.ext (by show j.val = 3; omega)
      exact absurd e (hguest i h3i hi (by omega))
  · obtain rfl : i = 3 := Fin.ext (by show i.val = 3; omega)
    by_cases h3j : j.val < 3
    · exact absurd e.symm (hguest j h3j hj (by omega))
    · exact Fin.ext (by show 3 = j.val; omega)

/-- Every line but the one replaced is kept. -/
theorem stored_put {c : CacheSet} (h4 : c.filled = 4) (p : Fin 4) (a b : List Char) :
    Stored (c.put p a) b ↔ b = a ∨ ∃ i, i ≠ p ∧ c.data i = b := by
  constructor
  · intro h
    obtain ⟨i, -, hd⟩ := h
    by_cases e : i = p
    · subst e
      simp only [put_data, Function.update_self] at hd
      exact .inl hd.symm
    · simp only [put_data, Function.update_of_ne e] at hd
      exact .inr ⟨i, e, hd⟩
  · intro h
    rcases h with rfl | ⟨i, e, rfl⟩
    · exact ⟨p, by show p.val < c.filled; omega, by simp⟩
    · exact ⟨i, by show i.val < c.filled; omega, by simp [e]⟩

/-- Both sets hold the same addresses after the access, and agree on what it was. -/
def Agrees (κ : Kind) (c : CacheSet) (q : List (List Char)) (a : List Char) : Prop :=
  (setStep κ c a).2 = (lruStep q a).2 ∧ ∀ b, b ∈ (lruStep q a).1 ↔ Stored (setStep κ c a).1 b

/-- The last address accessed is not the one the reference drops. -/
theorem Tracks.last_kept {κ : Kind} {l q : List (List Char)} {c : CacheSet} {x z : List Char}
    (h : Tracks κ l c (x :: q)) (hq : q ≠ []) (hz : l.getLast? = some z) : x ≠ z := by
  intro e
  subst e
  obtain ⟨u, rfl⟩ := List.getLast?_eq_some_iff.mp hz
  obtain ⟨y, q, rfl⟩ := List.exists_cons_of_ne_nil hq
  exact not_before_last u x y ((List.pairwise_cons.mp h.recent.sorted).1 y (List.mem_cons_self ..))

/-- In a set of the kind that ignores hits the guest goes; the reference lets go of it exactly if
    the first three were all accessed since. -/
theorem Tracks.front_iff {κ : Kind} {l q : List (List Char)} {c : CacheSet} {x : List Char}
    (h : Tracks κ l c (x :: q)) (h4 : c.filled = 4) : x = c.data 3 ↔ ∀ f ∈ firsts l, Before l (c.data 3) f := by
  have hlen := h.filled
  obtain ⟨m, -, hg, -⟩ := h.guest (by omega)
  have hmem : c.data 3 ∈ x :: q := (h.mem _).mpr ⟨3, by rw [h4]; decide, rfl⟩
  rw [h.recent.front_iff hmem]
  constructor
  · intro hall f hf
    exact hall f ((h.mem f).mpr (h.stored_first hf)) (fun e => hg (e ▸ hf))
  · intro hall b hb hne
    rcases h.stored_cases ((h.mem b).mp hb) with hf | ⟨rfl, -⟩
    · exact hall b hf
    · exact absurd rfl hne

theorem Tracks.full_iff {κ : Kind} {l q : List (List Char)} {c : CacheSet} (h : Tracks κ l c q) {a : List Char}
    (h4 : c.filled = 4) (ha : ¬ Stored c a) :
    Agrees κ c q a ↔ κ = .deaf ∧ ∀ f ∈ firsts l, Before l (c.data 3) f := by
  have hlen := h.filled
  have haq : a ∉ q := fun haq => ha ((h.mem a).mp haq)
  obtain ⟨x, q, rfl⟩ := List.exists_cons_of_length_eq_add_one (h.length.trans h4)
  have hq3 : q.length = 3 := by have := h.length; simp at this; omega
  have hlru : lru 4 (x :: q) a = q ++ [a] := lru_miss_full haq (h.length.trans h4)
  have hxq : x ∉ q := (List.nodup_cons.mp h.recent.nodup).1
  have hnone : c.find a = none := find_none_iff.mpr ha
  unfold Agrees lruStep
  rw [setStep_full κ hnone h4, hlru, if_neg haq]
  simp only [true_and]
  cases κ with
  | stuck =>
    rw [if_pos rfl]
    refine iff_of_false (fun hall => ?_) (fun hd => by cases hd.1)
    exact ha ((hall a).mp (by simp))
  | plain =>
    rw [if_neg (by simp)]
    refine iff_of_false (fun hall => ?_) (fun hd => by cases hd.1)
    -- the line evicted is that of the last access, which the reference keeps
    have hl : l ≠ [] := by intro e; subst e; simp [newcomers] at hlen; omega
    obtain ⟨p, hz, htop⟩ := h.top (by simp) _ (List.getLast?_eq_some_getLast hl)
    rw [getMin_top htop] at hall
    have hzq : l.getLast hl ∈ x :: q := (h.mem _).mpr ⟨p, by omega, hz⟩
    have hxz := h.last_kept (by intro e; subst e; simp at hq3) (List.getLast?_eq_some_getLast hl)
    have hkept : l.getLast hl ∈ q := (List.mem_cons.mp hzq).resolve_left (Ne.symm hxz)
    rcases (stored_put h4 p a _).mp ((hall _).mp (List.mem_append_left _ hkept)) with e | ⟨i, hi, e⟩
    · exact ha (e ▸ (h.mem _).mp hzq)
    · exact hi (h.inj (by omega) (by omega) (e.trans hz.symm))
  | deaf =>
    rw [if_neg (by simp), getMin_top (h.top_deaf rfl (by omega)), ← h.front_iff h4]
    simp only [true_and]
    constructor
    · intro hall
      by_contra hne
      obtain ⟨i, hi, e⟩ := (h.mem x).mp (List.mem_cons_self ..)
      have hi3 : i ≠ 3 := by intro e3; subst e3; exact hne e.symm
      rcases List.mem_append.mp ((hall x).mpr ((stored_put h4 3 a x).mpr (.inr ⟨i, hi3, e⟩))) with hx | hx
      · exact hxq hx
      · exact haq (by rw [← List.mem_singleton.mp hx]; exact List.mem_cons_self ..)
    · intro hx b
      rw [stored_put h4, List.mem_append, List.mem_singleton, or_comm]
      refine or_congr_right ⟨fun hb => ?_, fun hb => ?_⟩
      · obtain ⟨i, -, e⟩ := (h.mem b).mp (List.mem_cons_of_mem _ hb)
        refine ⟨i, fun e3 => ?_, e⟩
        subst e3
        exact hxq (by rw [hx, e]; exact hb)
      · obtain ⟨i, hi, e⟩ := hb
        refine (List.mem_cons.mp ((h.mem b).mpr ⟨i, by omega, e⟩)).resolve_left (fun ebx => ?_)
        exact hi (h.inj (by omega) (by omega) (by rw [e, ebx, hx]))

/-- The guest replaced. -/
theorem Tracks.swap {l q : List (List Char)} {c : CacheSet} (h : Tracks .deaf l c q) {a : List Char}
    (h4 : c.filled = 4) (ha : ¬ Stored c a) (hag : Agrees .deaf c q a) : Tracks .deaf (l ++ [a]) (c.put 3 a) (lru 4 q a) := by
  have hlen := h.filled
  have haq : a ∉ q := fun haq => ha ((h.mem a).mp haq)
  have hstep : setStep .deaf c a = (c.put 3 a, .miss) := by
    rw [setStep_full _ (find_none_iff.mpr ha) h4, if_neg (by simp), getMin_top (h.top_deaf rfl (by omega))]
  have hmono := newcomers_length_snoc l a
  obtain ⟨htop, hclock⟩ := update_age_lt h.clock 3
  refine ⟨by rw [put_filled]; omega, fun hne => absurd rfl hne, fun i h3 hi => ?_, fun _ => ?_, fun _ _ => htop,
    fun hne => absurd rfl hne, hclock, ?_, ?_, h.recent.lru a⟩
  · have e : i ≠ 3 := by intro e; subst e; exact absurd h3 (by decide)
    simp only [put_data, Function.update_of_ne e]
    have hl := h.lines i h3 (by omega)
    rw [newcomers_snoc]
    split
    · exact hl
    · rw [List.getElem?_append_left (by omega)]; exact hl
  · simp only [put_data, Function.update_self]
    refine guest_last ?_
    rw [firsts_snoc (by omega)]
    exact fun hf => ha (h.stored_first hf)
  · obtain ⟨x, q, rfl⟩ := List.exists_cons_of_length_eq_add_one (h.length.trans h4)
    rw [lru_miss_full haq (h.length.trans h4), put_filled, ← h.length]
    simp
  · have := hag.2
    rw [hstep] at this
    exact this

/-! ## A whole run of one set -/

theorem newcomers_snoc_le (l : List (List Char)) (a : List Char) :
    (newcomers (l ++ [a])).length ≤ (newcomers l).length + 1 := by
  rw [newcomers_snoc]
  split <;> simp

/-- Under the condition for the accesses so far, the next access keeps to the reference exactly if
    it keeps the condition. -/
theorem Tracks.step {κ : Kind} {l q : List (List Char)} {c : CacheSet} (h : Tracks κ l c q) (ht : Tame κ l)
    (a : List Char) :
    (Agrees κ c q a ↔ Tame κ (l ++ [a])) ∧
      (Tame κ (l ++ [a]) → Tracks κ (l ++ [a]) (setStep κ c a).1 (lruStep q a).1) := by
  have hlen := h.filled
  have hle := newcomers_snoc_le l a
  cases hfind : c.find a with
  | some i =>
    obtain ⟨hi, ha⟩ := find_some hfind
    have htr := h.hit hi ha
    have hstep : setStep κ c a = (if κ = .deaf then c else c.renew i, .hit) := by
      rw [setStep_hit κ hfind, put_same ha]
    have haq : a ∈ q := (h.mem a).mpr ⟨i, hi, ha⟩
    have htame : Tame κ (l ++ [a]) := by
      by_cases h3 : 3 ≤ (newcomers l).length
      · refine ht.again h3 ?_
        rcases h.stored_cases ⟨i, hi, ha⟩ with hf | ⟨rfl, h4⟩
        · exact .inl hf
        · exact .inr (h.guest h4)
      · exact tame_few κ (by omega)
    rw [hstep]
    refine ⟨iff_of_true ⟨?_, ?_⟩ htame, fun _ => htr⟩
    · rw [hstep]; simp [lruStep, haq]
    · rw [hstep]; exact htr.mem
  | none =>
    have ha := find_none_iff.mp hfind
    have haq : a ∉ q := fun haq => ha ((h.mem a).mp haq)
    by_cases h4 : c.filled = 4
    · have hg := h.guest (by omega)
      have haf : a ∉ firsts l := fun hf => ha (h.stored_first hf)
      have hag : a ≠ c.data 3 := fun e => ha ⟨3, by rw [h4]; decide, e.symm⟩
      have hiff : Agrees κ c q a ↔ Tame κ (l ++ [a]) := by
        rw [h.full_iff h4 ha, tame_new_iff ht (by omega) hg haf hag]
      refine ⟨hiff, fun htame => ?_⟩
      obtain ⟨rfl, -⟩ := (tame_new_iff ht (by omega) hg haf hag).mp htame
      rw [setStep_full _ hfind h4, if_neg (by simp), getMin_top (h.top_deaf rfl (by omega))]
      exact h.swap h4 ha (hiff.mpr htame)
    · have htr := h.free h4 ha
      rw [setStep_free κ hfind h4]
      refine ⟨iff_of_true ⟨?_, ?_⟩ (tame_few κ (by omega)), fun _ => htr⟩
      · rw [setStep_free κ hfind h4]; simp [lruStep, haq]
      · rw [setStep_free κ hfind h4]; exact htr.mem

/-- The accesses `l` of one set and of the reference's. -/
def AgreesOn (κ : Kind) (l : List (List Char)) : Prop :=
  (replies (setStep κ) emptySet l).2 = (replies lruStep [] l).2 ∧
    ∀ a, a ∈ (replies lruStep [] l).1 ↔ Stored (replies (setStep κ) emptySet l).1 a

theorem tracks_nil (κ : Kind) : Tracks κ [] emptySet [] where
  filled := rfl
  few := fun _ => Nat.zero_le 4
  lines := fun i _ hi => absurd hi (Nat.not_lt_zero _)
  guest := fun h => absurd h (by decide)
  top_deaf := fun _ h => absurd h (by decide)
  top := fun _ a h => by simp at h
  clock := fun i => by simp [emptySet]
  length := rfl
  mem := fun a => by simp [Stored, emptySet]
  recent := ⟨List.nodup_nil, List.Pairwise.nil⟩

theorem agreesOn_snoc {κ : Kind} {l : List (List Char)} (h : AgreesOn κ l) (a : List Char) :
    AgreesOn κ (l ++ [a]) ↔ Agrees κ (replies (setStep κ) emptySet l).1 (replies lruStep [] l).1 a := by
  unfold AgreesOn Agrees
  rw [replies_snoc, replies_snoc]
  simp only
  rw [h.1, List.append_cancel_left_eq]
  simp

/-- The induction takes the last access off and carries the relation between the two sets. -/
theorem set_lru_iff (κ : Kind) (l : List (List Char)) :
    ((∀ p, p <+: l → AgreesOn κ p) ↔ Tame κ l) ∧
      (Tame κ l → Tracks κ l (replies (setStep κ) emptySet l).1 (replies lruStep [] l).1) := by
  induction l using List.reverseRecOn with
  | nil =>
    refine ⟨iff_of_true (fun p hp => ?_) (tame_few κ (Nat.zero_le 4)), fun _ => tracks_nil κ⟩
    rw [List.prefix_nil.mp hp]
    exact ⟨rfl, (tracks_nil κ).mem⟩
  | append_singleton l a ih =>
    obtain ⟨hiff, htr⟩ := ih
    refine ⟨⟨fun hall => ?_, fun ht p hp => ?_⟩, fun ht => ?_⟩
    · have hl : ∀ p, p <+: l → AgreesOn κ p := fun p hp => hall p (hp.trans (List.prefix_append l [a]))
      have ht := hiff.mp hl
      exact ((htr ht).step ht a).1.mp ((agreesOn_snoc (hl l (List.prefix_refl l)) a).mp (hall _ (List.prefix_refl _)))
    · have hl := hiff.mpr ht.init
      rcases List.prefix_concat_iff.mp hp with rfl | hp
      · exact (agreesOn_snoc (hl l (List.prefix_refl l)) a).mpr (((htr ht.init).step ht.init a).1.mpr ht)
      · exact hl p hp
    · rw [replies_snoc, replies_snoc]
      exact ((htr ht.init).step ht.init a).2 ht

/-! ## Whole traces -/

/-- After every access the hits and misses so far are the reference's, and each set holds the
    reference's addresses. -/
def IsLru (J : Int → Char) (rows : List (List Char)) : Prop :=
  ∀ n ≤ rows.length, ∃ st, simulate J n (start rows) = .ok (st, (replies lruBanks (fun _ => []) (rows.take n)).2) ∧
    ∀ k a, a ∈ (replies lruBanks (fun _ => []) (rows.take n)).1 k ↔ Stored (st.sets k) a

theorem isLru_iff_agreesOn (J : Int → Char) {rows : List (List Char)} (h : ∀ a ∈ rows, IsAddress a) :
    IsLru J rows ↔ ∀ n ≤ rows.length, ∀ k, AgreesOn (kind k) (share lowBits k (rows.take n)) := by
  refine forall₂_congr fun n hn => ?_
  obtain ⟨st, hrun, hst⟩ := simulate_banks J h hn
  have hans := bank_answers_iff lowBits (fun k => setStep (kind k)) (fun _ => lruStep) (rows.take n)
    (fun _ => emptySet) (fun _ => [])
  have hown : ∀ k, st.sets k = (replies (setStep (kind k)) emptySet (share lowBits k (rows.take n))).1 := by
    intro k
    rw [hst]
    exact bank_state lowBits _ _ _ k
  have href : ∀ k, (replies lruBanks (fun _ => []) (rows.take n)).1 k =
      (replies lruStep [] (share lowBits k (rows.take n))).1 := fun k => bank_state lowBits _ _ _ k
  unfold AgreesOn
  rw [forall_and, ← hans]
  constructor
  · intro hlru
    obtain ⟨st', hrun', hmem⟩ := hlru
    rw [hrun, Except.ok.injEq, Prod.mk.injEq] at hrun'
    obtain ⟨rfl, hv⟩ := hrun'
    refine ⟨hv, fun k a => ?_⟩
    rw [← hown, ← href]
    exact hmem k a
  · intro hag
    refine ⟨st, hrun.trans (by rw [show (replies banks (fun _ => emptySet) (rows.take n)).2 = _ from hag.1]; rfl),
      fun k a => ?_⟩
    rw [href, hown]
    exact hag.2 k a

/-- The simulator is LRU on a trace exactly if the accesses of each set are tame. -/
theorem lru_iff (J : Int → Char) (rows : List (List Char)) (h : ∀ a ∈ rows, IsAddress a) :
    IsLru J rows ↔ ∀ k, Tame (kind k) (share lowBits k rows) := by
  rw [isLru_iff_agreesOn J h]
  constructor
  · intro hall k
    refine (set_lru_iff _ _).1.mp (fun p hp => ?_)
    obtain ⟨n, hn, rfl⟩ := exists_share_take lowBits hp
    exact hall n hn k
  · intro ht n _ k
    exact (set_lru_iff _ _).1.mpr (ht k) _ (share_take_le lowBits k rows n)

/-- Five addresses of set 1 and the first of them again: the simulator still holds it. -/
def cycle1 : List (List Char) :=
  [['0', '0', '0'], ['0', '0', '1'], ['0', '1', '0'], ['0', '1', '1'], ['1', '0', '0'], ['0', '0', '0']].map
    fun hi => List.replicate 11 '0' ++ hi ++ ['0', '1']

theorem lru_iff_cycle1 : (∀ a ∈ cycle1, IsAddress a) ∧
    (simulate (fun _ => '0') 6 (start cycle1)).map Prod.snd = .ok [.miss, .miss, .miss, .miss, .miss, .hit] ∧
    ¬ IsLru (fun _ => '0') cycle1 := by
  have hrun : (simulate (fun _ => '0') 6 (start cycle1)).map Prod.snd =
      .ok [.miss, .miss, .miss, .miss, .miss, .hit] := by rfl
  refine ⟨by decide, hrun, fun h => ?_⟩
  obtain ⟨st, hst, -⟩ := h 6 (by decide)
  rw [hst] at hrun
  have href : (replies lruBanks (fun _ => []) (cycle1.take 6)).2 = [.miss, .miss, .miss, .miss, .miss, .miss] := by decide
  rw [href] at hrun
  cases hrun

/-- Its first four addresses fit. -/
theorem lru_iff_fits : (∀ a ∈ cycle1.take 4, IsAddress a) ∧ IsLru (fun _ => '0') (cycle1.take 4) := by
  refine ⟨by decide, (lru_iff (fun _ => '0') (cycle1.take 4) (by decide)).mpr fun k => tame_few _ ?_⟩
  fin_cases k <;> decide

end CS5600.Cache.MySimulatorLru
