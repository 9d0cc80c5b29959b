/-
  CS5600.Lib.Words — a sequence cut into words at separators, from the left, one word at a time.

  `chop` gives the first word and what lies behind the separator that ends it; `words` are all of
  them. `words_chop` and `words_none` say that `words` is `chop` until there is nothing left, and
  `words_dropWhile` that leading separators do not count. `Spaced ts s` is that `s` is the words
  `ts` with separators around them, at least one between two; its words are `ts` (`Spaced.words`),
  and every sequence is its own words so spaced (`spaced_words`).
-/

import Mathlib

namespace CS5600.Lib.Words

variable {α : Type} (p : α → Bool)

def chop (s : List α) : Option (List α × List α) :=
  match s.dropWhile p with
  | [] => none
  | a :: t => some (a :: t.takeWhile (fun a => !p a), (t.dropWhile (fun a => !p a)).drop 1)

def wordsUpTo : Nat → List α → List (List α)
  | 0, _ => []
  | n + 1, s =>
    match chop p s with
    | none => []
    | some (w, rest) => w :: wordsUpTo n rest

def words (s : List α) : List (List α) := wordsUpTo p s.length s

variable {p} {s rest w : List α}

theorem chop_shorter (h : chop p s = some (w, rest)) : rest.length < s.length := by
  unfold chop at h
  split at h
  · cases h
  · rename_i a t ht
    cases h
    have h1 := List.length_dropWhile_le p s
    have h2 := List.length_dropWhile_le (fun a => !p a) t
    rw [ht, List.length_cons] at h1
    rw [List.length_drop]
    omega

theorem wordsUpTo_eq {n m : Nat} (hn : s.length ≤ n) (hm : s.length ≤ m) : wordsUpTo p n s = wordsUpTo p m s := by
  induction n generalizing s m with
  | zero =>
    rw [List.length_eq_zero_iff.mp (Nat.le_zero.mp hn)]
    cases m <;> rfl
  | succ n ih =>
    cases m with
    | zero =>
      rw [List.length_eq_zero_iff.mp (Nat.le_zero.mp hm)]
      rfl
    | succ m =>
      unfold wordsUpTo
      split
      · rfl
      · rename_i w rest hc
        have := chop_shorter hc
        rw [ih (m := m) (by omega) (by omega)]

theorem words_chop (h : chop p s = some (w, rest)) : words p s = w :: words p rest := by
  have hlt := chop_shorter h
  have hup : words p s = wordsUpTo p (s.length + 1) s := wordsUpTo_eq (Nat.le_refl _) (Nat.le_succ _)
  rw [hup]
  simp only [wordsUpTo, h]
  rw [wordsUpTo_eq (m := rest.length) (by omega) (Nat.le_refl _)]
  rfl

theorem words_none (h : chop p s = none) : words p s = [] := by
  unfold words
  cases s with
  | nil => rfl
  | cons a s => simp only [List.length_cons, wordsUpTo, h]

theorem chop_dropWhile {q : α → Bool} (hq : ∀ a, q a = true → p a = true) (s : List α) :
    chop p (s.dropWhile q) = chop p s := by
  induction s with
  | nil => rfl
  | cons a s ih =>
    rw [List.dropWhile_cons]
    split
    · rename_i ha
      rw [ih]
      unfold chop
      rw [List.dropWhile_cons, if_pos (hq a ha)]
    · rfl

theorem words_dropWhile {q : α → Bool} (hq : ∀ a, q a = true → p a = true) (s : List α) :
    words p (s.dropWhile q) = words p s := by
  have hd := chop_dropWhile hq s
  cases hc : chop p s with
  | none =>
    rw [hc] at hd
    rw [words_none hc, words_none hd]
  | some x =>
    rw [hc] at hd
    rw [words_chop hc, words_chop hd]

theorem words_cons_sep {a : α} (ha : p a = true) (s : List α) : words p (a :: s) = words p s := by
  have hd := words_dropWhile (q := p) (fun _ h => h) (a :: s)
  rw [List.dropWhile_cons_of_pos ha, words_dropWhile (fun _ h => h)] at hd
  exact hd.symm

inductive Spaced (p : α → Bool) : List (List α) → List α → Prop
  | nil {g : List α} (hg : ∀ a ∈ g, p a = true) : Spaced p [] g
  | cons {g w s : List α} {ts : List (List α)} (hg : ∀ a ∈ g, p a = true) (hne : w ≠ []) (hw : ∀ a ∈ w, p a = false)
      (hs : Spaced p ts s) (hgap : ts ≠ [] → ∃ a ∈ s.head?, p a = true) : Spaced p (w :: ts) (g ++ w ++ s)

/-- After a word comes a separator, or nothing. -/
theorem Spaced.gap {ts : List (List α)} (h : Spaced p ts s) (hgap : ts ≠ [] → ∃ a ∈ s.head?, p a = true) :
    s = [] ∨ ∃ a s', s = a :: s' ∧ p a = true := by
  cases s with
  | nil => exact Or.inl rfl
  | cons a s' =>
    refine Or.inr ⟨a, s', rfl, ?_⟩
    cases ts with
    | nil => cases h with | nil hg => exact hg a (List.mem_cons_self ..)
    | cons w ts =>
      obtain ⟨b, hb, hpb⟩ := hgap (List.cons_ne_nil _ _)
      rwa [Option.some.inj hb]

theorem Spaced.word_ne {ts : List (List α)} (h : Spaced p ts s) : ∀ w ∈ ts, w ≠ [] := by
  induction h with
  | nil => intro w hw; cases hw
  | cons _ hne _ _ _ ih => exact List.forall_mem_cons.mpr ⟨hne, ih⟩

theorem Spaced.mem {ts : List (List α)} (h : Spaced p ts s) : ∀ a ∈ s, p a = true ∨ ∃ w ∈ ts, a ∈ w := by
  induction h with
  | nil hg => exact fun a ha => Or.inl (hg a ha)
  | cons hg _ _ _ _ ih =>
    intro a ha
    simp only [List.mem_append] at ha
    rcases ha with (ha | ha) | ha
    · exact Or.inl (hg a ha)
    · exact Or.inr ⟨_, List.mem_cons_self .., ha⟩
    · rcases ih a ha with hp | ⟨u, hu, hau⟩
      · exact Or.inl hp
      · exact Or.inr ⟨u, List.mem_cons_of_mem _ hu, hau⟩

/-- Behind the last word there are separators only. -/
theorem Spaced.last {ts : List (List α)} {t : List α} (h : Spaced p (ts ++ [t]) s) :
    ∃ a b, s = a ++ t ++ b ∧ ∀ x ∈ b, p x = true := by
  generalize hus : ts ++ [t] = us at h
  induction h generalizing ts with
  | nil => simp at hus
  | cons hg _ _ hs _ ih =>
    rename_i g w s us _ _ _
    cases ts with
    | nil =>
      obtain ⟨rfl, rfl⟩ := List.cons_eq_cons.mp hus
      cases hs with
      | nil hb => exact ⟨g, s, rfl, hb⟩
    | cons u ts =>
      obtain ⟨-, hus⟩ := List.cons_eq_cons.mp hus
      obtain ⟨a, b, rfl, hb⟩ := ih hus
      exact ⟨g ++ w ++ a, b, by simp only [List.append_assoc], hb⟩

theorem chop_word {g : List α} (hg : ∀ a ∈ g, p a = true) (hne : w ≠ []) (hw : ∀ a ∈ w, p a = false)
    (hs : s = [] ∨ ∃ a s', s = a :: s' ∧ p a = true) : chop p (g ++ w ++ s) = some (w, s.drop 1) := by
  obtain ⟨a, w', rfl⟩ := List.exists_cons_of_ne_nil hne
  have hword : ∀ b ∈ w', (!p b) = true := fun b hb => by simp [hw b (List.mem_cons_of_mem _ hb)]
  have htake : s.takeWhile (fun a => !p a) = [] := by rcases hs with rfl | ⟨b, s', rfl, hb⟩ <;> simp [*]
  have hdrop : s.dropWhile (fun a => !p a) = s := by rcases hs with rfl | ⟨b, s', rfl, hb⟩ <;> simp [*]
  unfold chop
  rw [List.append_assoc, List.dropWhile_append_of_pos hg, List.cons_append, List.dropWhile_cons_of_neg (by simp [hw a])]
  simp only [List.takeWhile_append_of_pos hword, List.dropWhile_append_of_pos hword, htake, hdrop, List.append_nil]

theorem Spaced.words {ts : List (List α)} (h : Spaced p ts s) : words p s = ts := by
  induction h with
  | nil hg =>
    rename_i g
    have hd := words_dropWhile (q := p) (fun _ h => h) g
    rw [List.dropWhile_eq_nil_iff.mpr hg] at hd
    exact hd.symm
  | cons hg hne hw hs hgap ih =>
    rename_i g w s ts
    rw [words_chop (chop_word hg hne hw (hs.gap hgap))]
    rcases hs.gap hgap with rfl | ⟨a, s', rfl, ha⟩
    · rw [List.drop_nil, ih]
    · rw [List.drop_one, List.tail_cons, ← words_cons_sep ha, ih]

/-! ## Every sequence is its words, spaced -/

theorem chop_none (h : chop p s = none) : ∀ a ∈ s, p a = true := by
  unfold chop at h
  split at h
  · rename_i hd
    exact List.dropWhile_eq_nil_iff.mp hd
  · cases h

/-- The converse of `chop_word`. -/
theorem chop_split (h : chop p s = some (w, rest)) : ∃ g r, s = g ++ w ++ r ∧ (∀ a ∈ g, p a = true) ∧ w ≠ [] ∧
    (∀ a ∈ w, p a = false) ∧ rest = r.drop 1 ∧ (r = [] ∨ ∃ b r', r = b :: r' ∧ p b = true) := by
  unfold chop at h
  split at h
  · cases h
  · rename_i a t hd
    cases h
    have ha : p a = false := by
      have := List.head_dropWhile_not p (by rw [hd]; exact List.cons_ne_nil a t)
      simpa only [hd, List.head_cons] using this
    refine ⟨s.takeWhile p, t.dropWhile (fun a => !p a), ?_, fun b hb => List.mem_takeWhile_imp hb,
      List.cons_ne_nil _ _, fun b hb => ?_, rfl, ?_⟩
    · rw [List.append_assoc, List.cons_append, List.takeWhile_append_dropWhile, ← hd, List.takeWhile_append_dropWhile]
    · rcases List.mem_cons.mp hb with rfl | hb
      · exact ha
      · simpa using List.mem_takeWhile_imp hb
    · cases hr : t.dropWhile (fun a => !p a) with
      | nil => exact Or.inl rfl
      | cons b r =>
        have hb := List.head_dropWhile_not (fun a => !p a) (by rw [hr]; exact List.cons_ne_nil b r)
        simp only [hr, List.head_cons, Bool.not_eq_false'] at hb
        exact Or.inr ⟨b, r, rfl, hb⟩

theorem spaced_words (p : α → Bool) (s : List α) : Spaced p (words p s) s := by
  induction hn : s.length using Nat.strong_induction_on generalizing s with
  | _ n ih =>
  cases hc : chop p s with
  | none =>
    rw [words_none hc]
    exact .nil (chop_none hc)
  | some x =>
    obtain ⟨w, rest⟩ := x
    obtain ⟨g, r, rfl, hg, hne, hw, rfl, hr⟩ := chop_split hc
    have hwords : words p (r.drop 1) = words p r := by
      rcases hr with rfl | ⟨b, r, rfl, hb⟩
      · rfl
      · exact (words_cons_sep hb r).symm
    have hlt : r.length < n := by
      have := List.length_pos_iff.mpr hne
      rw [← hn, List.length_append, List.length_append]
      omega
    rw [words_chop hc, hwords]
    refine .cons hg hne hw (ih r.length hlt r rfl) fun hts => ?_
    rcases hr with rfl | ⟨b, r, rfl, hb⟩
    · exact absurd rfl hts
    · exact ⟨b, rfl, hb⟩

theorem Spaced.snoc {ts : List (List α)} {a : α} (h : Spaced p ts s) (ha : p a = true) : Spaced p ts (s ++ [a]) := by
  induction h with
  | nil hg =>
    refine .nil fun b hb => ?_
    rcases List.mem_append.mp hb with hb | hb
    · exact hg b hb
    · rwa [List.mem_singleton.mp hb]
  | cons hg hne hw _ hgap ih =>
    rw [List.append_assoc]
    refine .cons hg hne hw ih fun hts => ?_
    obtain ⟨b, hb, hpb⟩ := hgap hts
    exact ⟨b, by rw [List.head?_append, Option.mem_def.mp hb]; rfl, hpb⟩

theorem Spaced.congr {q : α → Bool} {ts : List (List α)} (h : Spaced p ts s) (hq : ∀ a ∈ s, q a = p a) :
    Spaced q ts s := by
  induction h with
  | nil hg => exact .nil fun a ha => (hq a ha).trans (hg a ha)
  | cons hg hne hw _ hgap ih =>
    simp only [List.mem_append] at hq
    refine .cons (fun a ha => ?_) hne (fun a ha => ?_) (ih fun a ha => hq a (.inr ha)) fun hts => ?_
    · exact (hq a (.inl (.inl ha))).trans (hg a ha)
    · exact (hq a (.inl (.inr ha))).trans (hw a ha)
    · obtain ⟨a, ha, hpa⟩ := hgap hts
      exact ⟨a, ha, (hq a (.inr (List.mem_of_mem_head? ha))).trans hpa⟩

/-- A separator at the end does not count either. -/
theorem words_snoc {a : α} (ha : p a = true) (s : List α) : words p (s ++ [a]) = words p s :=
  ((spaced_words p s).snoc ha).words

/-- Only what the separators are among the elements matters. -/
theorem words_congr {q : α → Bool} (hq : ∀ a ∈ s, q a = p a) : words q s = words p s :=
  ((spaced_words p s).congr hq).words

/-- A character that is no separator makes a word of its own or makes the last word longer. -/
theorem Spaced.snoc_char {ts : List (List α)} {c : α} (h : Spaced p ts s) (hc : p c = false) :
    Spaced p (ts ++ [[c]]) (s ++ [c]) ∨ ∃ us w, ts = us ++ [w] ∧ Spaced p (us ++ [w ++ [c]]) (s ++ [c]) := by
  have hcs : ∀ a ∈ [c], p a = false := fun a ha => by rwa [List.mem_singleton.mp ha]
  have hend : Spaced p [] ([] : List α) := .nil (by simp)
  induction h with
  | nil hg =>
    left
    have := Spaced.cons hg (List.cons_ne_nil c []) hcs hend (fun h => absurd rfl h)
    rwa [List.append_nil] at this
  | cons hg hne hw hs hgap ih =>
    rename_i g w s ts
    have hgap' : s ≠ [] → ∃ a ∈ (s ++ [c]).head?, p a = true := by
      intro hsne
      rcases hs.gap hgap with rfl | ⟨a, s', rfl, ha⟩
      · exact absurd rfl hsne
      · exact ⟨a, rfl, ha⟩
    by_cases e : s = []
    · subst e
      have hts : ts = [] := by
        by_contra hts
        obtain ⟨a, ha, -⟩ := hgap hts
        cases ha
      subst hts
      right
      have hlong : ∀ a ∈ w ++ [c], p a = false := by
        intro a ha
        rcases List.mem_append.mp ha with ha | ha
        · exact hw a ha
        · exact hcs a ha
      refine ⟨[], w, rfl, ?_⟩
      have := Spaced.cons hg (by simp) hlong hend (fun h => absurd rfl h)
      simpa using this
    · rw [List.append_assoc]
      rcases ih with ih | ⟨us, u, rfl, ih⟩
      · exact Or.inl (.cons hg hne hw ih fun _ => hgap' e)
      · exact Or.inr ⟨w :: us, u, rfl, .cons hg hne hw ih fun _ => hgap' e⟩

/-- Without its last character, which is no separator, a sequence has its last word cut. -/
theorem words_dropLast {c : α} {t : List α} {ts : List (List α)} (hc : p c = false)
    (h : words p (s ++ [c]) = ts ++ [t]) :
    (t = [c] ∧ words p s = ts) ∨ ∃ w, w ≠ [] ∧ t = w ++ [c] ∧ words p s = ts ++ [w] := by
  have hs := spaced_words p s
  rcases hs.snoc_char hc with hn | ⟨us, w, hus, hn⟩
  · obtain ⟨h1, h2⟩ := List.append_inj' (hn.words.symm.trans h) rfl
    exact Or.inl ⟨(List.singleton_inj.mp h2).symm, h1⟩
  · obtain ⟨h1, h2⟩ := List.append_inj' (hn.words.symm.trans h) rfl
    refine Or.inr ⟨w, ?_, (List.singleton_inj.mp h2).symm, by rw [hus, h1]⟩
    exact hs.word_ne w (by rw [hus]; simp)

end CS5600.Lib.Words
