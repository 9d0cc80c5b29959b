/-
  CS5600.Lib.Fifo — first in, first out.

  `fifo cap` is a queue of at most `cap` elements, the oldest first; the answer to an element says
  whether it was queued. Filled from the empty queue with at most `cap` different elements it
  holds all of them in the order of their first use (`fifo_newcomers`). From any queue, uses of at
  most `cap` different elements miss each of them at most once: what goes in is behind everything
  that was there, so it is not pushed out before the others are in (`missed_nodup`).

  The same for banks of queues (`bank_newcomers`, `bank_missed_nodup`), with the number of different
  elements a bank gets (`demand`); and banks in which every use differs from the last `cap` uses
  of its bank miss every time (`bank_window`).
-/

import CS5600.Lib.Banks
import CS5600.Lib.Recency

namespace CS5600.Lib.Fifo

open CS5600.Lib.Runs CS5600.Lib.Banks CS5600.Lib.Recency

section Missed

variable {S E : Type} (step : S → E → S × Bool)

/-- The uses that are answered with a miss. -/
def missed : S → List E → List E
  | _, [] => []
  | s, e :: es => if (step s e).2 then missed (step s e).1 es else e :: missed (step s e).1 es

theorem count_false (es : List E) : ∀ s : S, (replies step s es).2.count false = (missed step s es).length := by
  induction es with
  | nil => intro s; rfl
  | cons e es ih =>
    intro s
    simp only [replies, missed]
    cases h : (step s e).2 with
    | false => simp [ih]
    | true => simp [ih]

theorem missed_subset (es : List E) : ∀ s : S, missed step s es ⊆ es := by
  induction es with
  | nil => intro s; exact List.Subset.refl []
  | cons e es ih =>
    intro s
    rw [missed]
    split
    · exact List.subset_cons_of_subset e (ih _)
    · exact List.cons_subset_cons e (ih _)

end Missed

section Queue

variable {α : Type} [DecidableEq α]

def fifo (cap : Nat) (q : List α) (a : α) : List α × Bool :=
  if a ∈ q then (q, true) else ((if q.length = cap then q.tail else q) ++ [a], false)

theorem fifo_hit {cap : Nat} {q : List α} {a : α} (h : a ∈ q) : fifo cap q a = (q, true) := if_pos h

theorem fifo_miss {cap : Nat} {q : List α} {a : α} (h : a ∉ q) :
    fifo cap q a = ((if q.length = cap then q.tail else q) ++ [a], false) := if_neg h

theorem fifo_answer (cap : Nat) (q : List α) (a : α) : (fifo cap q a).2 = decide (a ∈ q) := by
  by_cases h : a ∈ q
  · simp [fifo_hit h, h]
  · simp [fifo_miss h, h]

theorem fifo_newcomers {cap : Nat} (es : List α) (h : (newcomers es).length ≤ cap) :
    (replies (fifo cap) [] es).1 = newcomers es := by
  induction es using List.reverseRecOn with
  | nil => rfl
  | append_singleton es a ih =>
    rw [newcomers_snoc] at h ⊢
    rw [replies_snoc]
    split at h
    · rename_i ha
      rw [ih h, fifo_hit ha, if_pos ha]
    · rename_i ha
      rw [List.length_append, List.length_singleton] at h
      rw [ih (by omega), fifo_miss ha, if_neg ha, if_neg (by omega)]

/-- The invariant is that the queue ends with `fresh`, the elements missed since the run began. -/
theorem missed_fresh {cap : Nat} {D : List α} (hD : D.length ≤ cap) (es : List α) :
    ∀ old fresh : List α, es ⊆ D → fresh ⊆ D → fresh.Nodup →
      (missed (fifo cap) (old ++ fresh) es).Nodup ∧ ∀ x ∈ missed (fifo cap) (old ++ fresh) es, x ∉ fresh := by
  induction es with
  | nil => intro old fresh _ _ _; exact ⟨List.nodup_nil, by simp [missed]⟩
  | cons e es ih =>
    intro old fresh hes hfresh hnd
    obtain ⟨he, hes⟩ := List.cons_subset.mp hes
    by_cases h : e ∈ old ++ fresh
    · rw [missed, fifo_hit h, if_pos rfl]
      exact ih old fresh hes hfresh hnd
    · have hef : e ∉ fresh := fun hm => h (List.mem_append_right _ hm)
      have hnd' : (fresh ++ [e]).Nodup := by
        rw [List.nodup_append]
        refine ⟨hnd, List.nodup_singleton e, fun x hx b hb => ?_⟩
        rw [List.mem_singleton.mp hb]
        exact fun hxe => hef (hxe ▸ hx)
      have hsub : fresh ++ [e] ⊆ D := List.append_subset.mpr ⟨hfresh, by simpa using he⟩
      have hlen : (fresh ++ [e]).length ≤ D.length := (List.subperm_of_subset hnd' hsub).length_le
      -- Only an old element is pushed out: `fresh` alone does not fill the queue.
      obtain ⟨old', hold⟩ : ∃ old', (fifo cap (old ++ fresh) e).1 = old' ++ (fresh ++ [e]) := by
        rw [fifo_miss h]
        cases old with
        | nil =>
          refine ⟨[], ?_⟩
          rw [List.length_append, List.length_singleton] at hlen
          rw [if_neg (by simp; omega)]
          rfl
        | cons o old =>
          by_cases hfull : (o :: old ++ fresh).length = cap
          · exact ⟨old, by rw [if_pos hfull]; simp⟩
          · exact ⟨o :: old, by rw [if_neg hfull]; simp⟩
      have hanswer : (fifo cap (old ++ fresh) e).2 = false := by rw [fifo_miss h]
      obtain ⟨hrest, hfree⟩ := ih old' (fresh ++ [e]) hes hsub hnd'
      rw [missed, hold, hanswer, if_neg (by decide)]
      refine ⟨List.nodup_cons.mpr ⟨fun hm => hfree e hm (by simp), hrest⟩, fun x hx => ?_⟩
      rcases List.mem_cons.mp hx with rfl | hx
      · exact hef
      · exact fun hxf => hfree x hx (List.mem_append_left _ hxf)

theorem missed_nodup {cap : Nat} {D : List α} (hD : D.length ≤ cap) (q : List α) {es : List α} (h : es ⊆ D) :
    (missed (fifo cap) q es).Nodup := by
  have := (missed_fresh hD es q [] h (by simp) List.nodup_nil).1
  rwa [List.append_nil] at this

omit [DecidableEq α] in
/-- The last `cap` elements after one more. -/
theorem rtake_push {cap : Nat} {l : List α} {a : α} (hcap : 0 < cap) :
    (if (l.rtake cap).length = cap then (l.rtake cap).tail else l.rtake cap) ++ [a] = (l ++ [a]).rtake cap := by
  obtain ⟨c, rfl⟩ := Nat.exists_eq_add_one.mpr hcap
  rw [List.rtake_concat_succ]
  congr 1
  unfold List.rtake
  rw [List.length_drop]
  split
  · rw [List.tail_drop]
    congr 1
    omega
  · rw [show l.length - (c + 1) = 0 by omega, show l.length - c = 0 by omega]

end Queue

section Banked

variable {ι α : Type} [DecidableEq ι] [DecidableEq α] (route : α → ι) (cap : Nat)

/-- A queue for each bank. -/
def fifos : (ι → List α) → α → (ι → List α) × Bool := bankStep route fun _ => fifo cap

theorem fifos_answer (B : ι → List α) (a : α) : (fifos route cap B a).2 = decide (a ∈ B (route a)) :=
  fifo_answer cap (B (route a)) a

theorem fifos_same (B : ι → List α) (a : α) :
    (fifos route cap B a).1 (route a) = (fifo cap (B (route a)) a).1 := by
  simp [fifos, bankStep]

theorem fifos_other (B : ι → List α) {a : α} {k : ι} (h : k ≠ route a) : (fifos route cap B a).1 k = B k := by
  simp [fifos, bankStep, h]

theorem bank_newcomers {es : List α} {k : ι} (h : (newcomers (share route k es)).length ≤ cap) :
    (replies (fifos route cap) (fun _ => []) es).1 k = newcomers (share route k es) := by
  rw [fifos, bank_state]
  exact fifo_newcomers _ h

/-- The different elements a bank gets. -/
def demand (k : ι) (es : List α) : Nat := (newcomers (share route k es)).length

variable {route} in
theorem mem_seen {k : ι} {a : α} (h : route a = k) (es : List α) : a ∈ newcomers (share route k es) ↔ a ∈ es := by
  rw [mem_newcomers, share, List.mem_filter, decide_eq_true_iff]
  exact and_iff_left h

theorem demand_snoc (k : ι) (es : List α) (a : α) :
    demand route k (es ++ [a]) = if route a = k ∧ a ∉ es then demand route k es + 1 else demand route k es := by
  unfold demand
  rw [share_snoc]
  by_cases hk : route a = k
  · rw [if_pos hk, newcomers_snoc]
    by_cases ha : a ∈ es
    · rw [if_pos ((mem_seen hk es).mpr ha), if_neg (fun h => h.2 ha)]
    · rw [if_neg (fun h => ha ((mem_seen hk es).mp h)), if_pos ⟨hk, ha⟩, List.length_append, List.length_singleton]
  · rw [if_neg hk, if_neg (fun h => hk h.1)]

theorem demand_le (k : ι) {es fs : List α} (h : es <+: fs) : demand route k es ≤ demand route k fs := by
  obtain ⟨t, rfl⟩ := h
  induction t using List.reverseRecOn with
  | nil => rw [List.append_nil]
  | append_singleton t a ih =>
    rw [← List.append_assoc, demand_snoc]
    split <;> omega

theorem share_missed (es : List α) : ∀ (B : ι → List α) (k : ι),
    share route k (missed (fifos route cap) B es) = missed (fifo cap) (B k) (share route k es) := by
  induction es with
  | nil => intro B k; rfl
  | cons e es ih =>
    intro B k
    have hnext := ih (fifos route cap B e).1 k
    by_cases hk : k = route e
    · subst hk
      rw [fifos_same] at hnext
      rw [share_cons_same, missed, missed, fifos_answer, fifo_answer]
      split
      · exact hnext
      · rw [share_cons_same, hnext]
    · rw [fifos_other route cap B hk] at hnext
      rw [share_cons_other route hk, missed]
      split
      · exact hnext
      · rw [share_cons_other route hk, hnext]

theorem nodup_of_shares {l : List α} (h : ∀ k, (share route k l).Nodup) : l.Nodup := by
  rw [List.nodup_iff_count_le_one]
  intro a
  have := List.nodup_iff_count_le_one.mp (h (route a)) a
  rwa [share, List.count_filter (by simp)] at this

/-- Uses of at most `cap` different elements miss each at most once, whatever is queued. -/
theorem bank_missed_nodup {D : List α} (hD : D.length ≤ cap) (B : ι → List α) {es : List α} (h : es ⊆ D) :
    (missed (fifos route cap) B es).Nodup := by
  apply nodup_of_shares route
  intro k
  rw [share_missed]
  exact missed_nodup hD (B k) fun x hx => h (List.mem_of_mem_filter hx)

theorem bank_missed_le {D : List α} (hD : D.length ≤ cap) (B : ι → List α) {es : List α} (h : es ⊆ D) :
    (replies (fifos route cap) B es).2.count false ≤ D.length := by
  rw [count_false]
  exact (List.subperm_of_subset (bank_missed_nodup route cap hD B h)
    (List.Subset.trans (missed_subset _ es B) h)).length_le

/-- Every bank holds its last `cap` uses, if no use is among those before it. -/
theorem bank_window (hcap : 0 < cap) (es : List α)
    (h : ∀ p a, p ++ [a] <+: es → a ∉ (share route (route a) p).rtake cap) :
    (∀ k, (replies (fifos route cap) (fun _ => []) es).1 k = (share route k es).rtake cap) ∧
      (replies (fifos route cap) (fun _ => []) es).2 = List.replicate es.length false := by
  induction es using List.reverseRecOn with
  | nil => exact ⟨fun k => by simp [replies, share], rfl⟩
  | append_singleton es a ih =>
    obtain ⟨hstate, hans⟩ := ih fun p x hp => h p x (hp.trans (List.prefix_append es [a]))
    have hmiss : a ∉ (replies (fifos route cap) (fun _ => []) es).1 (route a) := by
      rw [hstate]
      exact h es a (List.prefix_refl _)
    rw [replies_snoc, hans]
    refine ⟨fun k => ?_, ?_⟩
    · rw [share_snoc]
      by_cases hk : k = route a
      · subst hk
        rw [if_pos rfl, ← rtake_push hcap, ← hstate, fifos_same, fifo_miss hmiss]
      · rw [if_neg (Ne.symm hk), ← hstate, fifos_other route cap _ hk]
    · rw [fifos_answer, decide_eq_false hmiss, List.length_append, List.length_singleton, List.replicate_succ']

end Banked

end CS5600.Lib.Fifo
