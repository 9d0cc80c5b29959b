/-
  CS5600.Cache.MySimulatorSets — the four copied sets of the LRU attempt against each other.

  `relabel σ` applies a permutation of the sets to the low two bits of an address. Running the
  relabelled trace puts each set's accesses through another copy of the code: the question is
  when two kinds of set do the same on the same accesses, down to the ages (`Alike`).

  Proved: sets 1 and 2 always do. Set 0 does what they do up to four addresses; set 3 does what
  they do if no access hits, which is what `Fresh` says of the accesses, and what set 0 does if no
  address comes twice and four come at most (`alike_iff`). A trace and its relabelling have the
  same verdicts and the same sets exactly if every set meets its condition (`sets_alike_iff`).
-/

import CS5600.Cache.MySimulatorLru

namespace CS5600.Cache.MySimulatorSets

open CS5600.Cache.Binary CS5600.Lib.Runs CS5600.Lib.Banks CS5600.Lib.Recency
open CS5600.Cache.MySimulator CS5600.Cache.MySimulatorLru
open CS5600.Cache.SimulatorFifo (Verdict lowBits)

/-! ## Relabelling addresses -/

def lowDigits (k : Fin 4) : List Char :=
  [if k.val < 2 then '0' else '1', if k.val % 2 = 0 then '0' else '1']

/-- The permutation on the low two bits; strings that are no addresses stay. -/
def relabel (σ : Equiv.Perm (Fin 4)) (a : List Char) : List Char :=
  if IsAddress a then a.take 14 ++ lowDigits (σ (lowBits a)) else a

theorem lowBits_append (x : List Char) (k : Fin 4) : lowBits (x ++ lowDigits k) = k := by
  apply Fin.ext
  show value (x ++ lowDigits k) % 4 = k.val
  unfold lowDigits
  rw [show x ++ [if k.val < 2 then '0' else '1', if k.val % 2 = 0 then '0' else '1'] =
    x ++ [if k.val < 2 then '0' else '1'] ++ [if k.val % 2 = 0 then '0' else '1'] by simp, value_snoc, value_snoc]
  fin_cases k <;> simp [bit] <;> omega

theorem isAddress_append {x : List Char} (hx : x.length = 14) (hb : ∀ c ∈ x, IsBit c) (k : Fin 4) :
    IsAddress (x ++ lowDigits k) := by
  refine ⟨by simp [lowDigits, hx], fun c hc => ?_⟩
  rcases List.mem_append.mp hc with hc | hc
  · exact hb c hc
  · simp only [lowDigits, List.mem_cons, List.not_mem_nil, or_false] at hc
    have hdigit : ∀ p : Prop, ∀ _ : Decidable p, IsBit (if p then '0' else '1') := by
      intro p _
      split
      · exact .inl rfl
      · exact .inr rfl
    rcases hc with rfl | rfl
    · exact hdigit _ _
    · exact hdigit _ _

theorem address_split {a : List Char} (h : IsAddress a) :
    ∃ x k, a = x ++ lowDigits k ∧ x.length = 14 ∧ ∀ c ∈ x, IsBit c := by
  obtain ⟨hlen, hbits⟩ := h
  have hd : (a.drop 14).length = 2 := by simp [hlen]
  obtain ⟨c, d, hcd⟩ := List.length_eq_two.mp hd
  have ha : a = a.take 14 ++ [c, d] := by rw [← hcd, List.take_append_drop]
  have hc := hbits c (by rw [ha]; simp)
  have hd := hbits d (by rw [ha]; simp)
  have hx : (a.take 14).length = 14 ∧ ∀ e ∈ a.take 14, IsBit e :=
    ⟨by simp [hlen], fun e he => hbits e (List.mem_of_mem_take he)⟩
  rcases hc with rfl | rfl <;> rcases hd with rfl | rfl
  · exact ⟨a.take 14, 0, ha, hx⟩
  · exact ⟨a.take 14, 1, ha, hx⟩
  · exact ⟨a.take 14, 2, ha, hx⟩
  · exact ⟨a.take 14, 3, ha, hx⟩

theorem relabel_append (σ : Equiv.Perm (Fin 4)) {x : List Char} (hx : x.length = 14) (hb : ∀ c ∈ x, IsBit c)
    (k : Fin 4) : relabel σ (x ++ lowDigits k) = x ++ lowDigits (σ k) := by
  unfold relabel
  rw [if_pos (isAddress_append hx hb k), lowBits_append, List.take_left' hx]

theorem relabel_address (σ : Equiv.Perm (Fin 4)) {a : List Char} (h : IsAddress a) :
    IsAddress (relabel σ a) ∧ lowBits (relabel σ a) = σ (lowBits a) := by
  obtain ⟨x, k, rfl, hx, hb⟩ := address_split h
  rw [relabel_append σ hx hb, lowBits_append, lowBits_append]
  exact ⟨isAddress_append hx hb _, rfl⟩

theorem relabel_symm (σ : Equiv.Perm (Fin 4)) (a : List Char) : relabel σ.symm (relabel σ a) = a := by
  by_cases h : IsAddress a
  · obtain ⟨x, k, rfl, hx, hb⟩ := address_split h
    rw [relabel_append σ hx hb, relabel_append σ.symm hx hb, Equiv.symm_apply_apply]
  · have : relabel σ a = a := if_neg h
    rw [this]
    exact if_neg h

theorem relabel_injective (σ : Equiv.Perm (Fin 4)) : Function.Injective (relabel σ) :=
  Function.LeftInverse.injective (relabel_symm σ)

/-! ## A set with renamed lines -/

def rename (ρ : List Char → List Char) (c : CacheSet) : CacheSet := { c with data := ρ ∘ c.data }

theorem rename_put (ρ : List Char → List Char) (c : CacheSet) (i : Fin 4) (a : List Char) :
    (rename ρ c).put i (ρ a) = rename ρ (c.put i a) := by
  simp only [CacheSet.put, CacheSet.renew, rename, Function.comp_update]

theorem rename_find {ρ : List Char → List Char} (hρ : Function.Injective ρ) (c : CacheSet) (a : List Char) :
    (rename ρ c).find (ρ a) = c.find a := by
  unfold CacheSet.find rename
  congr 1
  funext i
  have : (ρ a == ρ (c.data i)) = (a == c.data i) := by
    rw [Bool.eq_iff_iff, beq_iff_eq, beq_iff_eq]
    exact hρ.eq_iff
  simp only [Function.comp_apply, this]

theorem rename_step {ρ : List Char → List Char} (hρ : Function.Injective ρ) (κ : Kind) (c : CacheSet) (a : List Char) :
    setStep κ (rename ρ c) (ρ a) = (rename ρ (setStep κ c a).1, (setStep κ c a).2) := by
  have hfind := rename_find hρ c a
  cases hf : c.find a with
  | some i =>
    rw [setStep_hit κ hf, setStep_hit κ (hfind.trans hf), rename_put]
    split <;> rfl
  | none =>
    by_cases h4 : c.filled = 4
    · rw [setStep_full κ hf h4, setStep_full κ (hfind.trans hf) h4]
      show (if κ = .stuck then (rename ρ c).renew (getMin c.age) else (rename ρ c).put (getMin c.age) (ρ a), _) = _
      rw [rename_put]
      split <;> rfl
    · rw [setStep_free κ hf h4, setStep_free κ (hfind.trans hf) h4]
      show ({ (rename ρ c).put (Fin.ofNat 4 c.filled) (ρ a) with filled := c.filled + 1 }, _) = _
      rw [rename_put]
      rfl

/-! ## Two kinds of set on the same accesses -/

/-- Contents, ages and fill count. -/
structure SameSet (c c' : CacheSet) : Prop where
  data : c.data = c'.data
  age : c.age = c'.age
  filled : c.filled = c'.filled

theorem SameSet.stored {c c' : CacheSet} (h : SameSet c c') (a : List Char) : Stored c a ↔ Stored c' a := by
  unfold Stored
  rw [h.data, h.filled]

/-- The state and the verdicts of one set after its accesses. -/
def setRun (κ : Kind) (l : List (List Char)) : CacheSet × List Verdict := replies (setStep κ) emptySet l

def Alike (κ κ' : Kind) (l : List (List Char)) : Prop :=
  (setRun κ l).2 = (setRun κ' l).2 ∧ SameSet (setRun κ l).1 (setRun κ' l).1

theorem setRun_snoc (κ : Kind) (l : List (List Char)) (a : List Char) :
    setRun κ (l ++ [a]) = ((setStep κ (setRun κ l).1 a).1, (setRun κ l).2 ++ [(setStep κ (setRun κ l).1 a).2]) :=
  replies_snoc _ _ _ _

theorem setRun_length (κ : Kind) (l : List (List Char)) : (setRun κ l).2.length = l.length := by
  induction l using List.reverseRecOn with
  | nil => rfl
  | append_singleton l a ih => rw [setRun_snoc, List.length_append, List.length_append, ih]; rfl

theorem setStep_verdict (κ : Kind) (c : CacheSet) (a : List Char) :
    (setStep κ c a).2 = .hit ∧ Stored c a ∨ (setStep κ c a).2 = .miss ∧ ¬ Stored c a := by
  cases hf : c.find a with
  | some i =>
    rw [setStep_hit κ hf]
    exact .inl ⟨rfl, i, find_some hf⟩
  | none =>
    refine .inr ⟨?_, find_none_iff.mp hf⟩
    by_cases h4 : c.filled = 4
    · rw [setStep_full κ hf h4]
    · rw [setStep_free κ hf h4]

/-! ### Hits and ages -/

/-- Where hits renew ages, the clock counts the accesses and the last one has its time. -/
theorem clock_renewing {κ : Kind} (hκ : κ ≠ .deaf) (l : List (List Char)) :
    (setRun κ l).1.counter = l.length ∧ (l ≠ [] → ∃ i, (setRun κ l).1.age i = l.length - 1) := by
  induction l using List.reverseRecOn with
  | nil => exact ⟨rfl, fun h => absurd rfl h⟩
  | append_singleton l a ih =>
    obtain ⟨hc, -⟩ := ih
    have hstep : ∀ (c : CacheSet), ∃ i, (setStep κ c a).1.counter = c.counter + 1 ∧ (setStep κ c a).1.age i = c.counter := by
      intro c
      cases hf : c.find a with
      | some i =>
        rw [setStep_hit κ hf, if_neg hκ]
        exact ⟨i, rfl, by simp⟩
      | none =>
        by_cases h4 : c.filled = 4
        · rw [setStep_full κ hf h4]
          refine ⟨getMin c.age, ?_⟩
          simp only
          split <;> simp
        · rw [setStep_free κ hf h4]
          exact ⟨Fin.ofNat 4 c.filled, rfl, by simp⟩
    obtain ⟨i, h1, h2⟩ := hstep (setRun κ l).1
    rw [setRun_snoc]
    simp only [List.length_append, List.length_singleton]
    exact ⟨by rw [h1, hc]; simp, fun _ => ⟨i, by rw [h2, hc]; push_cast; ring⟩⟩

/-- Where hits renew no age, the clock counts the misses. -/
theorem clock_deaf (l : List (List Char)) :
    (setRun .deaf l).1.counter = (setRun .deaf l).2.count .miss ∧ ∀ i, (setRun .deaf l).1.age i < (setRun .deaf l).1.counter := by
  induction l using List.reverseRecOn with
  | nil => exact ⟨rfl, fun i => by simp [setRun, replies, emptySet]⟩
  | append_singleton l a ih =>
    obtain ⟨hc, hage⟩ := ih
    rw [setRun_snoc]
    simp only [List.count_append]
    cases hf : (setRun .deaf l).1.find a with
    | some i =>
      rw [setStep_hit _ hf, if_pos rfl]
      exact ⟨by simp [hc], hage⟩
    | none =>
      by_cases h4 : (setRun .deaf l).1.filled = 4
      · rw [setStep_full _ hf h4, if_neg (by simp)]
        exact ⟨by simp [hc], (update_age_lt hage _).2⟩
      · rw [setStep_free _ hf h4]
        exact ⟨by simp [hc], (update_age_lt hage _).2⟩

def NoHit (κ : Kind) (l : List (List Char)) : Prop := ∀ v ∈ (setRun κ l).2, v = .miss

theorem noHit_of_alike {κ : Kind} (hκ : κ ≠ .deaf) {l : List (List Char)} (h : Alike κ .deaf l) : NoHit .deaf l := by
  obtain ⟨-, hs⟩ := h
  by_cases hl : l = []
  · subst hl; intro v hv; cases hv
  obtain ⟨i, hi⟩ := (clock_renewing hκ l).2 hl
  obtain ⟨hc, hage⟩ := clock_deaf l
  have hlt := hage i
  rw [← hs.age, hi, hc] at hlt
  have hcount : (setRun .deaf l).2.count .miss = (setRun .deaf l).2.length := by
    have h1 := List.count_le_length (a := Verdict.miss) (l := (setRun .deaf l).2)
    have h2 := setRun_length .deaf l
    omega
  intro v hv
  exact (List.count_eq_length.mp hcount v hv).symm

/-- Without hits the two kinds that evict do the same. -/
theorem setStep_miss {c : CacheSet} {a : List Char} (h : ¬ Stored c a) : setStep .plain c a = setStep .deaf c a := by
  have hf := find_none_iff.mpr h
  by_cases h4 : c.filled = 4
  · rw [setStep_full _ hf h4, setStep_full _ hf h4, if_neg (by simp), if_neg (by simp)]
  · rw [setStep_free _ hf h4, setStep_free _ hf h4]

theorem noHit_snoc {κ : Kind} {l : List (List Char)} {a : List Char} :
    NoHit κ (l ++ [a]) ↔ NoHit κ l ∧ ¬ Stored (setRun κ l).1 a := by
  unfold NoHit
  rw [setRun_snoc]
  simp only [List.mem_append, List.mem_singleton]
  rcases setStep_verdict κ (setRun κ l).1 a with ⟨hv, hs⟩ | ⟨hv, hs⟩
  · rw [hv]
    refine iff_of_false (fun h => ?_) (fun h => h.2 hs)
    have := h .hit (.inr rfl)
    cases this
  · rw [hv]
    constructor
    · intro h; exact ⟨fun v hv => h v (.inl hv), hs⟩
    · intro h v hv
      rcases hv with hv | rfl
      · exact h.1 v hv
      · rfl

theorem plain_eq_deaf {l : List (List Char)} (h : NoHit .deaf l) : setRun .plain l = setRun .deaf l := by
  induction l using List.reverseRecOn with
  | nil => rfl
  | append_singleton l a ih =>
    obtain ⟨hl, ha⟩ := noHit_snoc.mp h
    rw [setRun_snoc, setRun_snoc, ih hl, setStep_miss ha]

theorem plain_deaf_iff (l : List (List Char)) : Alike .plain .deaf l ↔ NoHit .deaf l := by
  constructor
  · exact noHit_of_alike (by simp)
  · intro h
    rw [Alike, plain_eq_deaf h]
    exact ⟨rfl, rfl, rfl, rfl⟩

/-! ### Runs without a hit -/

/-- An address comes back only if it was not among the first three accesses and another access
    lies in between. -/
def Fresh (l : List (List Char)) : Prop :=
  ∀ i j a, i < j → l[i]? = some a → l[j]? = some a → 3 ≤ i ∧ i + 1 < j

/-- The first three lines are the first three accesses, the fourth is the last access. -/
structure Fills (l : List (List Char)) (c : CacheSet) : Prop where
  filled : c.filled = min 4 l.length
  lines : ∀ i : Fin 4, i.val < 3 → i.val < l.length → l[i.val]? = some (c.data i)
  last : 4 ≤ l.length → l[l.length - 1]? = some (c.data 3)
  top : 4 ≤ l.length → ∀ i, i ≠ 3 → c.age i < c.age 3
  clock : ∀ i, c.age i < c.counter

theorem Fills.put {l : List (List Char)} {c : CacheSet} (h : Fills l c) (a : List Char) {p : Fin 4}
    (hp : p.val = min 3 l.length) {n : Nat} (hn : n = min 4 (l.length + 1)) :
    Fills (l ++ [a]) { c.put p a with filled := n } := by
  obtain ⟨htop, hclock⟩ := update_age_lt h.clock p
  have h3 : 4 ≤ (l ++ [a]).length → p = 3 := by
    intro h4
    simp only [List.length_append, List.length_singleton] at h4
    exact Fin.ext (by show p.val = 3; omega)
  refine ⟨by simpa using hn, fun i hi3 hi => ?_, fun h4 => ?_, fun h4 => ?_, hclock⟩
  · simp only [List.length_append, List.length_singleton] at hi
    by_cases e : i = p
    · subst e
      simp only [put_data, Function.update_self]
      rw [List.getElem?_append_right (by omega), show i.val - l.length = 0 by omega]
      rfl
    · have hne : i.val ≠ p.val := fun e' => e (Fin.ext e')
      simp only [put_data, Function.update_of_ne e]
      rw [List.getElem?_append_left (by omega)]
      exact h.lines i hi3 (by omega)
  · simp [h3 h4]
  · rw [h3 h4] at htop ⊢
    exact htop

theorem Fills.stored_iff {l : List (List Char)} {c : CacheSet} (h : Fills l c) {a : List Char} :
    Stored c a ↔ ∃ i : Nat, l[i]? = some a ∧ (i < 3 ∨ i + 1 = l.length) := by
  have hlen := h.filled
  constructor
  · intro hs
    obtain ⟨i, hi, rfl⟩ := hs
    by_cases h3 : i.val < 3
    · exact ⟨i.val, h.lines i h3 (by omega), .inl h3⟩
    · obtain rfl : i = 3 := Fin.ext (by show i.val = 3; omega)
      exact ⟨l.length - 1, h.last (by omega), .inr (by omega)⟩
  · intro hs
    obtain ⟨i, hi, hpos⟩ := hs
    have hil : i < l.length := (List.getElem?_eq_some_iff.mp hi).1
    by_cases h3 : i < 3
    · have hd := h.lines ⟨i, by omega⟩ h3 hil
      exact ⟨⟨i, by omega⟩, by show i < c.filled; omega, Option.some.inj (hd.symm.trans hi)⟩
    · have hd := h.last (by omega)
      rw [show l.length - 1 = i by omega] at hd
      exact ⟨3, by show 3 < c.filled; omega, Option.some.inj (hd.symm.trans hi)⟩

theorem noHit_fills {l : List (List Char)} (h : NoHit .deaf l) : Fills l (setRun .deaf l).1 := by
  induction l using List.reverseRecOn with
  | nil =>
    exact ⟨rfl, fun i _ hi => absurd hi (Nat.not_lt_zero _), fun h => absurd h (by decide),
      fun h => absurd h (by decide), fun i => by simp [setRun, replies, emptySet]⟩
  | append_singleton l a ih =>
    obtain ⟨hl, ha⟩ := noHit_snoc.mp h
    have hf := ih hl
    have hlen := hf.filled
    rw [setRun_snoc]
    by_cases h4 : (setRun .deaf l).1.filled = 4
    · rw [setStep_full _ (find_none_iff.mpr ha) h4, if_neg (by simp), getMin_top (hf.top (by omega))]
      exact hf.put a (p := 3) (n := (setRun .deaf l).1.filled) (by show 3 = _; omega) (by omega)
    · rw [setStep_free _ (find_none_iff.mpr ha) h4]
      exact hf.put a (by show (setRun .deaf l).1.filled % 4 = _; omega) (by omega)

theorem fresh_snoc {l : List (List Char)} {a : List Char} :
    Fresh (l ++ [a]) ↔ Fresh l ∧ ∀ i : Nat, l[i]? = some a → 3 ≤ i ∧ i + 1 < l.length := by
  have hleft : ∀ {i : Nat} {b}, l[i]? = some b → (l ++ [a])[i]? = some b := by
    intro i b hi
    rw [List.getElem?_append_left (List.getElem?_eq_some_iff.mp hi).1, hi]
  constructor
  · intro h
    refine ⟨fun i j b hij hi hj => h i j b hij (hleft hi) (hleft hj), fun i hi => ?_⟩
    exact h i l.length a (List.getElem?_eq_some_iff.mp hi).1 (hleft hi) (by simp)
  · intro h i j b hij hi hj
    obtain ⟨hl, hlast⟩ := h
    have hjl : j < l.length + 1 := by simpa using (List.getElem?_eq_some_iff.mp hj).1
    rw [List.getElem?_append_left (by omega)] at hi
    by_cases e : j = l.length
    · subst e
      have hb : a = b := by simpa using hj
      exact hlast i (by rw [hi, hb])
    · rw [List.getElem?_append_left (by omega)] at hj
      exact hl i j b hij hi hj

theorem noHit_iff (l : List (List Char)) : NoHit .deaf l ↔ Fresh l := by
  induction l using List.reverseRecOn with
  | nil => exact iff_of_true (fun v hv => by cases hv) (fun i j a _ hi => by simp at hi)
  | append_singleton l a ih =>
    rw [noHit_snoc, fresh_snoc, ← ih]
    refine and_congr_right fun hl => ?_
    rw [(noHit_fills hl).stored_iff]
    constructor
    · intro h i hi
      have hil : i < l.length := (List.getElem?_eq_some_iff.mp hi).1
      have : ¬ (i < 3 ∨ i + 1 = l.length) := fun hp => h ⟨i, hi, hp⟩
      omega
    · intro h hs
      obtain ⟨i, hi, hp⟩ := hs
      have := h i hi
      omega

/-! ### Sets that part -/

theorem stuck_eq_plain {l : List (List Char)} (h : (newcomers l).length ≤ 4) : setRun .stuck l = setRun .plain l := by
  induction l using List.reverseRecOn with
  | nil => rfl
  | append_singleton l a ih =>
    have hmono := newcomers_length_snoc l a
    have htr := (set_lru_iff .plain l).2 (tame_few _ (by omega))
    have hlen := htr.filled
    rw [setRun_snoc, setRun_snoc, ih (by omega)]
    suffices hstep : setStep .stuck (setRun .plain l).1 a = setStep .plain (setRun .plain l).1 a by rw [hstep]
    cases hf : (setRun .plain l).1.find a with
    | some i => rw [setStep_hit _ hf, setStep_hit _ hf, if_neg (by simp), if_neg (by simp)]
    | none =>
      by_cases h4 : (setRun .plain l).1.filled = 4
      · have hal : a ∉ newcomers l := fun hal => find_none_iff.mp hf (htr.mem_of_few (by omega) hal)
        rw [newcomers_snoc, if_neg hal, List.length_append, List.length_singleton] at h
        change (setRun .plain l).1.filled = _ at hlen
        omega
      · rw [setStep_free _ hf h4, setStep_free _ hf h4]

/-- The access that brings the fifth address. -/
theorem exists_fifth {l : List (List Char)} (h : 4 < (newcomers l).length) :
    ∃ p a r, l = p ++ a :: r ∧ (newcomers p).length = 4 ∧ a ∉ newcomers p := by
  induction l using List.reverseRecOn with
  | nil => simp [newcomers] at h
  | append_singleton l a ih =>
    by_cases h4 : 4 < (newcomers l).length
    · obtain ⟨p, b, r, rfl, hp, hb⟩ := ih h4
      exact ⟨p, b, r ++ [a], by simp, hp, hb⟩
    · rw [newcomers_snoc] at h
      split at h <;> rename_i ha
      · omega
      · rw [List.length_append, List.length_singleton] at h
        exact ⟨l, a, [], rfl, by omega, ha⟩

theorem stuck_keeps {c : CacheSet} (h4 : c.filled = 4) (a b : List Char) :
    (setStep .stuck c a).1.filled = 4 ∧ (Stored (setStep .stuck c a).1 b ↔ Stored c b) := by
  cases hf : c.find a with
  | some i =>
    rw [setStep_hit _ hf, if_neg (by simp), put_same (find_some hf).2]
    exact ⟨h4, Iff.rfl⟩
  | none =>
    rw [setStep_full _ hf h4, if_pos rfl]
    exact ⟨h4, Iff.rfl⟩

/-- An address that set 0 holds and the other set has lost stays lost as long as the verdicts are
    the same: only an access to it brings it back. -/
theorem parted {κ : Kind} {d : List Char} : ∀ (r : List (List Char)) (c c' : CacheSet), c.filled = 4 → c'.filled = 4 →
    Stored c d → ¬ Stored c' d → (replies (setStep .stuck) c r).2 = (replies (setStep κ) c' r).2 →
      Stored (replies (setStep .stuck) c r).1 d ∧ ¬ Stored (replies (setStep κ) c' r).1 d := by
  intro r
  induction r with
  | nil => intro c c' _ _ hd hd' _; exact ⟨hd, hd'⟩
  | cons a r ih =>
    intro c c' h4 h4' hd hd' hv
    simp only [replies, List.cons.injEq] at hv ⊢
    obtain ⟨hfull, hkeep⟩ := stuck_keeps h4 a d
    have hne : d ≠ a := by
      intro e
      subst e
      rcases setStep_verdict .stuck c d with ⟨e1, -⟩ | ⟨-, hn⟩
      · rcases setStep_verdict κ c' d with ⟨-, hs⟩ | ⟨e2, -⟩
        · exact hd' hs
        · rw [e1, e2] at hv; cases hv.1
      · exact hn hd
    have hfull' : (setStep κ c' a).1.filled = 4 := by rw [filled_step, if_neg (fun h => h.2 h4'), h4']
    refine ih _ _ hfull hfull' (hkeep.mpr hd) (fun hs => ?_) hv.2
    rcases stored_step (by omega) hs with hs | e
    · exact hd' hs
    · exact hne e

theorem stuck_plain_iff (l : List (List Char)) : Alike .stuck .plain l ↔ (newcomers l).length ≤ 4 := by
  constructor
  · intro h
    by_contra hgt
    obtain ⟨p, a, r, rfl, hp, ha⟩ := exists_fifth (Nat.lt_of_not_le hgt)
    have htr := (set_lru_iff .plain p).2 (tame_few _ (by omega))
    have hrun := stuck_eq_plain (l := p) (by omega)
    unfold Alike setRun at h
    unfold setRun at hrun
    rw [replies_append, replies_append, hrun] at h
    generalize (replies (setStep .plain) emptySet p).1 = c at h htr
    have h4 : c.filled = 4 := by have := htr.filled; omega
    have hs : ¬ Stored c a := fun hs => ha (htr.stored_newcomer hs)
    have hnone := find_none_iff.mpr hs
    have hlost : ¬ Stored (c.put (getMin c.age) a) (c.data (getMin c.age)) := by
      intro hst
      rcases (stored_put h4 _ a _).mp hst with e | ⟨i, hi, e⟩
      · exact hs ⟨_, by omega, e⟩
      · exact hi (htr.inj (by omega) (by omega) e)
    obtain ⟨hv, hsame⟩ := h
    simp only [replies, setStep_full _ hnone h4, if_true, reduceCtorEq, if_false, List.append_cancel_left_eq,
      List.cons.injEq, true_and] at hv hsame
    obtain ⟨h1, h2⟩ := parted (d := c.data (getMin c.age)) r (c.renew (getMin c.age)) (c.put (getMin c.age) a) h4 h4
      ⟨getMin c.age, by show _ < c.filled; omega, rfl⟩ hlost hv
    exact h2 ((hsame.stored _).mp h1)
  · intro h
    rw [Alike, stuck_eq_plain h]
    exact ⟨rfl, rfl, rfl, rfl⟩

theorem five_of_fresh {l : List (List Char)} (h : Fresh l) (h5 : 5 ≤ l.length) : 5 ≤ (newcomers l).length := by
  have hnodup : (l.take 5).Nodup := by
    rw [List.nodup_iff_getElem?_ne_getElem?]
    intro i j hij hj e
    simp only [List.length_take] at hj
    rw [List.getElem?_take_of_lt (by omega), List.getElem?_take_of_lt (by omega),
      List.getElem?_eq_getElem (by omega : j < l.length)] at e
    have := h i j _ hij e (List.getElem?_eq_getElem (by omega))
    omega
  have hsub : l.take 5 ⊆ newcomers l := fun x hx => mem_newcomers.mpr (List.mem_of_mem_take hx)
  have := (hnodup.subperm hsub).length_le
  simp only [List.length_take] at this
  omega

theorem fresh_of_nodup {l : List (List Char)} (h : l.Nodup) : Fresh l := by
  intro i j a hij hi hj
  have hjl := (List.getElem?_eq_some_iff.mp hj).1
  exact absurd (hi.trans hj.symm) (List.nodup_iff_getElem?_ne_getElem?.mp h i j hij hjl)

theorem stuck_deaf_iff (l : List (List Char)) : Alike .stuck .deaf l ↔ l.Nodup ∧ l.length ≤ 4 := by
  constructor
  · intro h
    have hno := noHit_of_alike (by simp) h
    have hfresh := (noHit_iff l).mp hno
    have hfew : (newcomers l).length ≤ 4 := by
      refine (stuck_plain_iff l).mp ?_
      rw [Alike, plain_eq_deaf hno]
      exact h
    have h4 : l.length ≤ 4 := by
      by_contra hgt
      have := five_of_fresh hfresh (by omega)
      omega
    refine ⟨?_, h4⟩
    rw [List.nodup_iff_getElem?_ne_getElem?]
    intro i j hij hj e
    have := hfresh i j _ hij (e.trans (List.getElem?_eq_getElem hj)) (List.getElem?_eq_getElem hj)
    omega
  · intro h
    obtain ⟨hnodup, h4⟩ := h
    have hno := (noHit_iff l).mpr (fresh_of_nodup hnodup)
    have hle := newcomers_length_le (List.Subset.refl l)
    rw [Alike, stuck_eq_plain (by omega), plain_eq_deaf hno]
    exact ⟨rfl, rfl, rfl, rfl⟩

/-! ## A trace and its relabelling -/

/-- When two kinds of set do the same. -/
def Harmless (κ κ' : Kind) (l : List (List Char)) : Prop :=
  match κ, κ' with
  | .stuck, .plain | .plain, .stuck => (newcomers l).length ≤ 4
  | .stuck, .deaf | .deaf, .stuck => l.Nodup ∧ l.length ≤ 4
  | .plain, .deaf | .deaf, .plain => Fresh l
  | .stuck, .stuck | .plain, .plain | .deaf, .deaf => True

theorem alike_comm {κ κ' : Kind} {l : List (List Char)} : Alike κ κ' l ↔ Alike κ' κ l := by
  constructor
  · intro h; exact ⟨h.1.symm, h.2.data.symm, h.2.age.symm, h.2.filled.symm⟩
  · intro h; exact ⟨h.1.symm, h.2.data.symm, h.2.age.symm, h.2.filled.symm⟩

theorem alike_iff (κ κ' : Kind) (l : List (List Char)) : Alike κ κ' l ↔ Harmless κ κ' l := by
  cases κ <;> cases κ'
  case stuck.plain => exact stuck_plain_iff l
  case plain.stuck => rw [alike_comm]; exact stuck_plain_iff l
  case stuck.deaf => exact stuck_deaf_iff l
  case deaf.stuck => rw [alike_comm]; exact stuck_deaf_iff l
  case plain.deaf => rw [plain_deaf_iff]; exact noHit_iff l
  case deaf.plain => rw [alike_comm, plain_deaf_iff]; exact noHit_iff l
  all_goals exact iff_of_true ⟨rfl, rfl, rfl, rfl⟩ trivial

/-- The two runs have the same verdicts, and set `σ k` of the second is set `k` of the first with
    its addresses relabelled. -/
def Relabels (J J' : Int → Char) (σ : Equiv.Perm (Fin 4)) (rows : List (List Char)) : Prop :=
  ∃ st st' vs, simulate J rows.length (start rows) = .ok (st, vs) ∧
    simulate J' rows.length (start (rows.map (relabel σ))) = .ok (st', vs) ∧
    ∀ k, SameSet (rename (relabel σ) (st.sets k)) (st'.sets (σ k))

theorem rename_emptySet (σ : Equiv.Perm (Fin 4)) : rename (relabel σ) emptySet = emptySet := by
  have : relabel σ [] = [] := if_neg (by simp [IsAddress])
  unfold rename emptySet
  simp only [Function.comp_def, this]

theorem rename_sameSet {ρ : List Char → List Char} (hρ : Function.Injective ρ) (c c' : CacheSet) :
    SameSet (rename ρ c) (rename ρ c') ↔ SameSet c c' := by
  constructor
  · intro h; exact ⟨hρ.comp_left h.data, h.age, h.filled⟩
  · intro h; exact ⟨congrArg (ρ ∘ ·) h.data, h.age, h.filled⟩

/-- A trace and its relabelling agree exactly if every set, and the one it is sent to, agree on
    its accesses. -/
theorem sets_alike_iff (J J' : Int → Char) (σ : Equiv.Perm (Fin 4)) (rows : List (List Char))
    (h : ∀ a ∈ rows, IsAddress a) :
    Relabels J J' σ rows ↔ ∀ k, Harmless (kind k) (kind (σ k)) (share lowBits k rows) := by
  have hrel : ∀ a ∈ rows.map (relabel σ), IsAddress a := by
    intro a ha
    obtain ⟨b, hb, rfl⟩ := List.mem_map.mp ha
    exact (relabel_address σ (h b hb)).1
  obtain ⟨st, hrun, hst⟩ := simulate_banks J h le_rfl
  obtain ⟨st', hrun', hst'⟩ := simulate_banks J' hrel le_rfl
  rw [List.take_length] at hrun hst hrun' hst'
  rw [List.length_map] at hrun'
  -- the second run is that of the other copies on the first trace, renamed
  obtain ⟨hans, hsets⟩ := bank_rename lowBits (fun k => setStep (kind k)) (fun k => setStep (kind (σ k)))
    σ (relabel σ) (rename (relabel σ)) (fun k c a => rename_step (relabel_injective σ) (kind (σ k)) c a) rows
    (fun _ => emptySet) (fun _ => emptySet) (fun a ha => (relabel_address σ (h a ha)).2)
    (fun _ => (rename_emptySet σ).symm)
  have hown : ∀ k, st.sets k = (setRun (kind k) (share lowBits k rows)).1 := by
    intro k
    rw [hst]
    exact bank_state lowBits _ _ _ k
  have hown' : ∀ k, st'.sets (σ k) = rename (relabel σ) (setRun (kind (σ k)) (share lowBits k rows)).1 := by
    intro k
    rw [hst']
    refine (hsets k).trans (congrArg _ ?_)
    exact bank_state lowBits (fun k => setStep (kind (σ k))) _ _ k
  have hverdicts : (replies banks (fun _ => emptySet) rows).2 = (replies banks (fun _ => emptySet) (rows.map (relabel σ))).2 ↔
      ∀ k, (setRun (kind k) (share lowBits k rows)).2 = (setRun (kind (σ k)) (share lowBits k rows)).2 := by
    rw [show (replies banks (fun _ => emptySet) (rows.map (relabel σ))).2 = _ from hans]
    exact bank_answers_iff lowBits _ _ rows _ _
  have hsame : ∀ k, SameSet (rename (relabel σ) (st.sets k)) (st'.sets (σ k)) ↔
      SameSet (setRun (kind k) (share lowBits k rows)).1 (setRun (kind (σ k)) (share lowBits k rows)).1 := by
    intro k
    rw [hown, hown', rename_sameSet (relabel_injective σ)]
  have hall : Relabels J J' σ rows ↔ ∀ k, Alike (kind k) (kind (σ k)) (share lowBits k rows) := by
    unfold Relabels Alike
    rw [forall_and, ← hverdicts]
    constructor
    · intro hr
      obtain ⟨s1, s2, vs, h1, h2, hk⟩ := hr
      rw [hrun, Except.ok.injEq, Prod.mk.injEq] at h1
      rw [hrun', Except.ok.injEq, Prod.mk.injEq] at h2
      obtain ⟨rfl, rfl⟩ := h1
      obtain ⟨rfl, hv⟩ := h2
      exact ⟨hv.symm, fun k => (hsame k).mp (hk k)⟩
    · intro hr
      exact ⟨st, st', _, hrun, by rw [hrun', hr.1], fun k => (hsame k).mpr (hr.2 k)⟩
  rw [hall]
  exact forall_congr' fun k => alike_iff _ _ _

/-- Five addresses of set 1, and the fifth again: a hit there, a miss in set 0. -/
def fifthTwice : List (List Char) :=
  [['0', '0', '0'], ['0', '0', '1'], ['0', '1', '0'], ['0', '1', '1'], ['1', '0', '0'], ['1', '0', '0']].map
    fun hi => List.replicate 11 '0' ++ hi ++ ['0', '1']

theorem sets_alike_swap : (∀ a ∈ fifthTwice, IsAddress a) ∧
    (simulate (fun _ => '0') 6 (start fifthTwice)).map Prod.snd = .ok [.miss, .miss, .miss, .miss, .miss, .hit] ∧
    (simulate (fun _ => '0') 6 (start (fifthTwice.map (relabel (Equiv.swap 0 1))))).map Prod.snd =
      .ok [.miss, .miss, .miss, .miss, .miss, .miss] ∧
    ¬ Relabels (fun _ => '0') (fun _ => '0') (Equiv.swap 0 1) fifthTwice := by
  have h1 : (simulate (fun _ => '0') 6 (start fifthTwice)).map Prod.snd =
      .ok [.miss, .miss, .miss, .miss, .miss, .hit] := by rfl
  have h2 : (simulate (fun _ => '0') 6 (start (fifthTwice.map (relabel (Equiv.swap 0 1))))).map Prod.snd =
      .ok [.miss, .miss, .miss, .miss, .miss, .miss] := by rfl
  refine ⟨by decide, h1, h2, fun h => ?_⟩
  obtain ⟨st, st', vs, e1, e2, -⟩ := h
  have e1' : simulate (fun _ => '0') 6 (start fifthTwice) = .ok (st, vs) := e1
  have e2' : simulate (fun _ => '0') 6 (start (fifthTwice.map (relabel (Equiv.swap 0 1)))) = .ok (st', vs) := e2
  rw [e1'] at h1
  rw [e2'] at h2
  cases h1
  cases h2

/-- Sets 1 and 2 can be exchanged. -/
theorem sets_alike_plain : (∀ a ∈ fifthTwice, IsAddress a) ∧
    Relabels (fun _ => '0') (fun _ => '0') (Equiv.swap 1 2) fifthTwice := by
  refine ⟨by decide, (sets_alike_iff _ _ _ fifthTwice (by decide)).mpr fun k => ?_⟩
  fin_cases k <;> trivial

end CS5600.Cache.MySimulatorSets
