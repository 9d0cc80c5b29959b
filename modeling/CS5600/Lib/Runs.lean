/-
  CS5600.Lib.Runs — machines that take one event at a time, and what holds along their runs.

  Two kinds of machine. A stepper `step : S → E → Option S` stops (`none`) at an event it
  crashes on or never gets past. `trail` lists the steps of a run, each as the state before
  it and its event; a run that stops has no step after that one, and `after` is the state it
  ends in. An answering machine `step : S → E → Except F (S × O)` gives an answer to every
  event, or a fault; `Yields` is what can be said of one such event, and `Yields.bind` puts two together.

  - `after_inv`: what every step keeps holds in the state a run reaches.
  - `after_iff`: what a step keeps exactly under a condition holds at the end of a run exactly
    when it held at its start and the condition holds along it.
  - `trail_iff`: a property of steps that, under an invariant, says the same as a condition
    under which the invariant is kept, holds along a run exactly when the condition does,
    also when the invariant is lost at the first step that breaks the condition.
  - `after_total`: where a step is possible under what the steps keep, the whole run is.
  - `after_sim`: where each step does to the abstract state what its label says, a run does what the
    labels of its steps say.
  - `after_since`: a relation to an earlier state that each step keeps, or starts again from the state
    before it, holds at the end between some state of the run and the last one.
  - `answers_of_sim`: a machine simulated by an abstract one gives its answers and no fault;
    `answers_alike`: where the abstract one can fault too, the same faults.
-/

import Mathlib

namespace CS5600.Lib.Runs

section Stepper

variable {S E : Type} (step : S → E → Option S)

def after : S → List E → Option S
  | s, [] => some s
  | s, e :: es =>
    match step s e with
    | some t => after t es
    | none => none

def trail : S → List E → List (S × E)
  | _, [] => []
  | s, e :: es =>
    (s, e) :: match step s e with
      | some t => trail t es
      | none => []

@[simp] theorem trail_nil (s : S) : trail step s [] = [] := rfl

theorem trail_cons {s t : S} {e : E} (h : step s e = some t) (es : List E) :
    trail step s (e :: es) = (s, e) :: trail step t es := by
  simp [trail, h]

theorem trail_stop {s : S} {e : E} (h : step s e = none) (es : List E) :
    trail step s (e :: es) = [(s, e)] := by
  simp [trail, h]

variable {step}

theorem mem_of_mem_trail {s : S} {es : List E} {x : S × E} (hx : x ∈ trail step s es) : x.2 ∈ es := by
  induction es generalizing s with
  | nil => cases hx
  | cons e es ih =>
    cases he : step s e with
    | none =>
      rw [trail_stop step he, List.mem_singleton] at hx
      rw [hx]; exact List.mem_cons_self ..
    | some t =>
      rw [trail_cons step he] at hx
      rcases List.mem_cons.mp hx with rfl | hx
      · exact List.mem_cons_self ..
      · exact List.mem_cons_of_mem _ (ih hx)

theorem after_append {s t : S} {es : List E} (h : after step s es = some t) (fs : List E) :
    after step s (es ++ fs) = after step t fs := by
  induction es generalizing s with
  | nil => cases h; rfl
  | cons e es ih =>
    cases he : step s e with
    | none => simp [after, he] at h
    | some u =>
      simp only [after, he] at h
      simp only [List.cons_append, after, he]
      exact ih h

theorem after_inv (Inv : S → Prop) (Ok : S → E → Prop)
    (hstep : ∀ s e t, Inv s → Ok s e → step s e = some t → Inv t) :
    ∀ (es : List E) (s t : S), Inv s → (∀ x ∈ trail step s es, Ok x.1 x.2) → after step s es = some t → Inv t := by
  intro es
  induction es with
  | nil => intro s t hs _ h; cases h; exact hs
  | cons e es ih =>
    intro s t hs hok h
    cases he : step s e with
    | none => simp [after, he] at h
    | some u =>
      rw [trail_cons step he, List.forall_mem_cons] at hok
      simp only [after, he] at h
      exact ih u t (hstep s e u hs hok.1 he) hok.2 h

theorem after_total (Inv : S → Prop) (Ok : S → E → Prop) (hstep : ∀ s e, Inv s → Ok s e → ∃ t, step s e = some t ∧ Inv t) :
    ∀ (es : List E) (s : S), Inv s → (∀ x ∈ trail step s es, Ok x.1 x.2) → ∃ t, after step s es = some t := by
  intro es
  induction es with
  | nil => exact fun s _ _ => ⟨s, rfl⟩
  | cons e es ih =>
    intro s hs hok
    have hok1 : Ok s e := hok (s, e) (by cases he : step s e <;> simp [trail, he])
    obtain ⟨t, he, ht⟩ := hstep s e hs hok1
    rw [trail_cons step he, List.forall_mem_cons] at hok
    simp only [after, he]
    exact ih t ht hok.2

theorem trail_append {s t : S} {es : List E} (h : after step s es = some t) (fs : List E) :
    trail step s (es ++ fs) = trail step s es ++ trail step t fs := by
  induction es generalizing s with
  | nil => cases h; rfl
  | cons e es ih =>
    cases he : step s e with
    | none => simp [after, he] at h
    | some u =>
      simp only [after, he] at h
      rw [List.cons_append, trail_cons step he, trail_cons step he, ih h, List.cons_append]

theorem after_sim {T A : Type} (Inv : S → Prop) (Ok : S → E → Prop) (R : S → T → Prop) (act : T → A → T) (label : S → E → A)
    (hstep : ∀ s e t, Inv s → Ok s e → step s e = some t → Inv t ∧ ∀ a, R s a → R t (act a (label s e))) :
    ∀ (es : List E) (s t : S) (a : T), Inv s → R s a → (∀ x ∈ trail step s es, Ok x.1 x.2) → after step s es = some t →
      R t (((trail step s es).map fun x => label x.1 x.2).foldl act a) := by
  intro es
  induction es with
  | nil => intro s t a _ hR _ h; cases h; exact hR
  | cons e es ih =>
    intro s t a hs hR hok h
    cases he : step s e with
    | none => simp [after, he] at h
    | some u =>
      rw [trail_cons step he, List.forall_mem_cons] at hok
      rw [trail_cons step he, List.map_cons, List.foldl_cons]
      simp only [after, he] at h
      obtain ⟨hu, hsim⟩ := hstep s e u hs hok.1 he
      exact ih u t _ hu (hsim a hR) hok.2 h

theorem after_since (Inv : S → Prop) (Ok : S → E → Prop) (R : S → S → Prop)
    (hstep : ∀ s e t, Inv s → Ok s e → step s e = some t → Inv t ∧ ((∀ u, R u s → R u t) ∨ R s t)) :
    ∀ (es : List E) (w s t : S), Inv s → R w s → (∀ x ∈ trail step s es, Ok x.1 x.2) → after step s es = some t →
      R w t ∨ ∃ es₁ es₂ u, es = es₁ ++ es₂ ∧ after step s es₁ = some u ∧ R u t := by
  intro es
  induction es with
  | nil => intro w s t _ hR _ h; cases h; exact .inl hR
  | cons e es ih =>
    intro w s t hs hR hok h
    cases he : step s e with
    | none => simp [after, he] at h
    | some v =>
      rw [trail_cons step he, List.forall_mem_cons] at hok
      simp only [after, he] at h
      obtain ⟨hv, hkeep⟩ := hstep s e v hs hok.1 he
      -- a later state of the run is one after `e`
      have later : (∃ es₁ es₂ u, es = es₁ ++ es₂ ∧ after step v es₁ = some u ∧ R u t) →
          ∃ es₁ es₂ u, e :: es = es₁ ++ es₂ ∧ after step s es₁ = some u ∧ R u t := by
        rintro ⟨es₁, es₂, u, rfl, hu, hR⟩
        exact ⟨e :: es₁, es₂, u, rfl, by simp only [after, he, hu], hR⟩
      rcases hkeep with hkeep | hnew
      · exact (ih w v t hv (hkeep w hR) hok.2 h).imp_right later
      · rcases ih s v t hv hnew hok.2 h with hst | hlater
        · exact .inr ⟨[], e :: es, s, rfl, rfl, hst⟩
        · exact .inr (later hlater)

theorem after_iff (Inv P : S → Prop) (Cond : S → E → Prop)
    (hstep : ∀ s e t, Inv s → step s e = some t → Inv t ∧ (P t ↔ P s ∧ Cond s e)) :
    ∀ (es : List E) (s t : S), Inv s → after step s es = some t →
      (P t ↔ P s ∧ ∀ x ∈ trail step s es, Cond x.1 x.2) := by
  intro es
  induction es with
  | nil => intro s t _ h; cases h; simp
  | cons e es ih =>
    intro s t hs h
    cases he : step s e with
    | none => simp [after, he] at h
    | some u =>
      obtain ⟨hu, hiff⟩ := hstep s e u hs he
      simp only [after, he] at h
      rw [trail_cons step he, List.forall_mem_cons, ih u t hu h, hiff, and_assoc]

theorem trail_iff (Inv : S → Prop) (Legal Cond Good : S → E → Prop)
    (hgood : ∀ s e, Inv s → Legal s e → (Good s e ↔ Cond s e))
    (hinv : ∀ s e t, Inv s → Legal s e → Cond s e → step s e = some t → Inv t) :
    ∀ (es : List E) (s : S), Inv s → (∀ x ∈ trail step s es, Legal x.1 x.2) →
      ((∀ x ∈ trail step s es, Good x.1 x.2) ↔ ∀ x ∈ trail step s es, Cond x.1 x.2) := by
  intro es
  induction es with
  | nil => intro s _ _; simp
  | cons e es ih =>
    intro s hs hlegal
    cases he : step s e with
    | none =>
      rw [trail_stop step he] at hlegal ⊢
      simpa using hgood s e hs (by simpa using hlegal)
    | some t =>
      rw [trail_cons step he] at hlegal ⊢
      simp only [List.forall_mem_cons] at hlegal ⊢
      have hg := hgood s e hs hlegal.1
      constructor
      · intro hall
        obtain ⟨h, hrest⟩ := hall
        have hc := hg.mp h
        exact ⟨hc, (ih t (hinv s e t hs hlegal.1 hc he) hlegal.2).mp hrest⟩
      · intro h
        obtain ⟨hc, hrest⟩ := h
        exact ⟨hg.mpr hc, (ih t (hinv s e t hs hlegal.1 hc he) hlegal.2).mpr hrest⟩

end Stepper

section Answers

variable {S T E F O : Type}

def answers (step : S → E → Except F (S × O)) : S → List E → Except F (S × List O)
  | s, [] => .ok (s, [])
  | s, e :: es =>
    match step s e with
    | .error f => .error f
    | .ok (s', o) =>
      match answers step s' es with
      | .error f => .error f
      | .ok (r, os) => .ok (r, o :: os)

theorem answers_snoc {step : S → E → Except F (S × O)} {s t u : S} {es : List E} {e : E} {os : List O} {o : O}
    (h : answers step s es = .ok (t, os)) (he : step t e = .ok (u, o)) :
    answers step s (es ++ [e]) = .ok (u, os ++ [o]) := by
  induction es generalizing s os with
  | nil => cases h; simp [answers, he]
  | cons x es ih =>
    cases hx : step s x with
    | error f => simp [answers, hx] at h
    | ok r =>
      cases hr : answers step r.1 es with
      | error f => simp [answers, hx, hr] at h
      | ok q =>
        simp only [answers, hx, hr, Except.ok.injEq, Prod.mk.injEq] at h
        obtain ⟨rfl, rfl⟩ := h
        simp only [List.cons_append, answers, hx, ih hr]

/-- The abstract machine's run: it never faults. -/
def replies (spec : T → E → T × O) : T → List E → T × List O
  | t, [] => (t, [])
  | t, e :: es =>
    let r := replies spec (spec t e).1 es
    (r.1, (spec t e).2 :: r.2)

theorem replies_append (spec : T → E → T × O) (t : T) (es fs : List E) :
    replies spec t (es ++ fs) =
      ((replies spec (replies spec t es).1 fs).1, (replies spec t es).2 ++ (replies spec (replies spec t es).1 fs).2) := by
  induction es generalizing t with
  | nil => rfl
  | cons x es ih => simp only [List.cons_append, replies, ih]

theorem replies_snoc (spec : T → E → T × O) (t : T) (es : List E) (e : E) :
    replies spec t (es ++ [e]) =
      ((spec (replies spec t es).1 e).1, (replies spec t es).2 ++ [(spec (replies spec t es).1 e).2]) :=
  replies_append spec t es [e]

theorem answers_of_sim {step : S → E → Except F (S × O)} {spec : T → E → T × O} (R : S → T → Prop)
    (Ok : E → Prop)
    (hsim : ∀ s t e, R s t → Ok e → ∃ s', step s e = .ok (s', (spec t e).2) ∧ R s' (spec t e).1) :
    ∀ (es : List E) (s : S) (t : T), R s t → (∀ e ∈ es, Ok e) →
      ∃ s', answers step s es = .ok (s', (replies spec t es).2) ∧ R s' (replies spec t es).1 := by
  intro es
  induction es with
  | nil => intro s t h _; exact ⟨s, rfl, h⟩
  | cons e es ih =>
    intro s t h hok
    obtain ⟨s1, hs1, h1⟩ := hsim s t e h (hok e (List.mem_cons_self ..))
    obtain ⟨s2, hs2, h2⟩ := ih s1 _ h1 (fun x hx => hok x (List.mem_cons_of_mem _ hx))
    exact ⟨s2, by simp [answers, replies, hs1, hs2], h2⟩

/-- Both fault alike, or both give the same answer and are related again. -/
def Alike (R : S → T → Prop) : Except F (S × O) → Except F (T × O) → Prop
  | .error f, .error g => f = g
  | .ok (s, o), .ok (t, p) => o = p ∧ R s t
  | _, _ => False

theorem answers_alike {step : S → E → Except F (S × O)} {spec : T → E → Except F (T × O)} (R : S → T → Prop)
    (Ok : E → Prop) (hsim : ∀ s t e, R s t → Ok e → Alike R (step s e) (spec t e)) :
    ∀ (es : List E) (s : S) (t : T), R s t → (∀ e ∈ es, Ok e) → Alike R (answers step s es) (answers spec t es) := by
  intro es
  induction es with
  | nil => intro s t h _; exact ⟨rfl, h⟩
  | cons e es ih =>
    intro s t h hes
    have he := hsim s t e h (hes e (List.mem_cons_self ..))
    cases hstep : step s e with
    | error f =>
      cases hspec : spec t e with
      | error g =>
        rw [hstep, hspec] at he
        simpa only [answers, hstep, hspec, Alike] using he
      | ok q => simp [hstep, hspec, Alike] at he
    | ok r =>
      cases hspec : spec t e with
      | error g => simp [hstep, hspec, Alike] at he
      | ok q =>
        rw [hstep, hspec] at he
        obtain ⟨ho, hR⟩ := he
        have hrest := ih r.1 q.1 hR fun f hf => hes f (List.mem_cons_of_mem _ hf)
        simp only [answers, hstep, hspec]
        cases ha : answers step r.1 es with
        | error f =>
          cases hb : answers spec q.1 es with
          | error g => simpa [ha, hb, Alike] using hrest
          | ok b => simp [ha, hb, Alike] at hrest
        | ok a =>
          cases hb : answers spec q.1 es with
          | error g => simp [ha, hb, Alike] at hrest
          | ok b =>
            rw [ha, hb] at hrest
            exact ⟨by rw [ho, hrest.1], hrest.2⟩

end Answers

/-! ## One event -/

section Yields

variable {F A B : Type}

/-- A fault of the kind `Ok`, or a result with `P`. -/
def Yields (Ok : F → Prop) (P : A → Prop) : Except F A → Prop
  | .ok a => P a
  | .error f => Ok f

variable {Ok : F → Prop} {P Q : A → Prop} {r : Except F A}

theorem Yields.mono (h : Yields Ok P r) (hpq : ∀ a, P a → Q a) : Yields Ok Q r := by
  cases r with
  | error f => exact h
  | ok a => exact hpq a h

theorem Yields.bind {R : B → Prop} {k : A → Except F B} (h : Yields Ok P r) (hk : ∀ a, P a → Yields Ok R (k a)) :
    Yields Ok R (r >>= k) := by
  cases r with
  | error f => exact h
  | ok a => exact hk a h

end Yields

/-! ## The next event of a run -/

section Next

variable {E : Type} {es fs : List E} {n : Nat} {e : E}

theorem take_succ_of_drop (h : es.drop n = e :: fs) : es.take (n + 1) = es.take n ++ [e] := by
  rw [List.take_add_one, ← List.head?_drop, h]
  rfl

theorem exists_next (h : n < es.length) : ∃ e ∈ es, es.drop n = e :: es.drop (n + 1) :=
  ⟨_, List.getElem_mem h, List.drop_eq_getElem_cons h⟩

end Next

end CS5600.Lib.Runs
