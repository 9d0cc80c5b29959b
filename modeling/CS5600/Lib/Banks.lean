/-
  CS5600.Lib.Banks — a machine made of independent banks.

  Every event goes to one bank (`route`) and only that bank's state changes (`bankStep`). A bank
  sees the events routed to it, in order: its state is that of its own run (`bank_state`), and
  two banked machines with one route give the same answers exactly when every pair of banks does
  (`bank_answers_iff`). Renaming banks and events alike changes neither the answers nor what a
  bank holds, but for its name (`bank_rename`).
-/

import CS5600.Lib.Runs

namespace CS5600.Lib.Banks

open CS5600.Lib.Runs

section OneMachine

variable {ι S E O : Type} [DecidableEq ι] (route : E → ι) (step : ι → S → E → S × O)

def bankStep (B : ι → S) (e : E) : (ι → S) × O :=
  (Function.update B (route e) (step (route e) (B (route e)) e).1, (step (route e) (B (route e)) e).2)

/-- The events of one bank. -/
def share (k : ι) (es : List E) : List E := es.filter fun e => decide (route e = k)

theorem share_cons_same (e : E) (es : List E) : share route (route e) (e :: es) = e :: share route (route e) es := by
  simp [share]

theorem share_cons_other {k : ι} {e : E} (h : k ≠ route e) (es : List E) : share route k (e :: es) = share route k es := by
  simp [share, Ne.symm h]

theorem share_snoc (k : ι) (es : List E) (e : E) :
    share route k (es ++ [e]) = if route e = k then share route k es ++ [e] else share route k es := by
  unfold share
  split <;> simp_all

theorem share_take_le (k : ι) (es : List E) (n : Nat) : share route k (es.take n) <+: share route k es :=
  (List.take_prefix n es).filter _

/-- Every beginning of a bank's events is what it sees of a beginning of all events. -/
theorem exists_share_take {k : ι} {es p : List E} (h : p <+: share route k es) :
    ∃ n ≤ es.length, share route k (es.take n) = p := by
  induction es using List.reverseRecOn with
  | nil => exact ⟨0, le_rfl, (List.prefix_nil.mp h).symm⟩
  | append_singleton es e ih =>
    have hwhole : p = share route k (es ++ [e]) ∨ p <+: share route k es := by
      rw [share_snoc] at h ⊢
      split at h <;> rename_i he
      · rw [if_pos he]; exact List.prefix_concat_iff.mp h
      · exact .inr h
    rcases hwhole with rfl | h
    · exact ⟨(es ++ [e]).length, le_rfl, by rw [List.take_length]⟩
    · obtain ⟨n, hn, rfl⟩ := ih h
      exact ⟨n, by simp; omega, by rw [List.take_append_of_le_length hn]⟩

theorem bank_state (es : List E) : ∀ (B : ι → S) (k : ι),
    (replies (bankStep route step) B es).1 k = (replies (step k) (B k) (share route k es)).1 := by
  induction es with
  | nil => intro B k; rfl
  | cons e es ih =>
    intro B k
    simp only [replies, ih]
    by_cases h : k = route e
    · subst h
      rw [share_cons_same]
      simp [bankStep, replies]
    · rw [share_cons_other route h]
      simp [bankStep, h]

end OneMachine

section TwoMachines

variable {ι S T E O : Type} [DecidableEq ι] (route : E → ι) (step : ι → S → E → S × O) (spec : ι → T → E → T × O)

/-- The induction is on the events; the bank of the first one gives the first answers. -/
theorem bank_answers_iff (es : List E) : ∀ (B : ι → S) (C : ι → T),
    (replies (bankStep route step) B es).2 = (replies (bankStep route spec) C es).2 ↔
      ∀ k, (replies (step k) (B k) (share route k es)).2 = (replies (spec k) (C k) (share route k es)).2 := by
  induction es with
  | nil => intro B C; simp [share, replies]
  | cons e es ih =>
    intro B C
    simp only [replies, List.cons.injEq, ih]
    constructor
    · intro h k
      obtain ⟨h0, hrest⟩ := h
      by_cases hk : k = route e
      · subst hk
        rw [share_cons_same]
        have := hrest (route e)
        simp only [bankStep, Function.update_self] at this
        simp only [replies, List.cons.injEq]
        exact ⟨h0, this⟩
      · rw [share_cons_other route hk]
        simpa [bankStep, hk] using hrest k
    · intro h
      have he := h (route e)
      rw [share_cons_same] at he
      simp only [replies, List.cons.injEq] at he
      refine ⟨he.1, fun k => ?_⟩
      by_cases hk : k = route e
      · subst hk
        simpa [bankStep] using he.2
      · have := h k
        rw [share_cons_other route hk] at this
        simpa [bankStep, hk] using this

end TwoMachines

section Renaming

variable {ι S E O : Type} [DecidableEq ι] (route : E → ι) (step spec : ι → S → E → S × O)
  (σ : Equiv.Perm ι) (ρ : E → E) (m : S → S)

theorem bank_rename (hstep : ∀ k s e, step (σ k) (m s) (ρ e) = (m (spec k s e).1, (spec k s e).2)) :
    ∀ (es : List E) (B C : ι → S), (∀ e ∈ es, route (ρ e) = σ (route e)) → (∀ k, C (σ k) = m (B k)) →
      (replies (bankStep route step) C (es.map ρ)).2 = (replies (bankStep route spec) B es).2 ∧
      ∀ k, (replies (bankStep route step) C (es.map ρ)).1 (σ k) = m ((replies (bankStep route spec) B es).1 k) := by
  intro es
  induction es with
  | nil => intro B C _ h; exact ⟨rfl, h⟩
  | cons e es ih =>
    intro B C hroute h
    have hr : route (ρ e) = σ (route e) := hroute e (List.mem_cons_self ..)
    have hs : step (route (ρ e)) (C (route (ρ e))) (ρ e) =
        (m (spec (route e) (B (route e)) e).1, (spec (route e) (B (route e)) e).2) := by
      rw [hr, h, hstep]
    have hnext : ∀ k, (bankStep route step C (ρ e)).1 (σ k) = m ((bankStep route spec B e).1 k) := by
      intro k
      simp only [bankStep, hs]
      rw [hr]
      by_cases hk : k = route e
      · subst hk; simp
      · rw [Function.update_of_ne (fun e => hk (σ.injective e)), Function.update_of_ne hk, h]
    obtain ⟨hans, hst⟩ := ih _ _ (fun x hx => hroute x (List.mem_cons_of_mem _ hx)) hnext
    refine ⟨?_, hst⟩
    simp only [List.map_cons, replies, hans]
    simp only [bankStep, hs]

end Renaming

end CS5600.Lib.Banks
