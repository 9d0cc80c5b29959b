/-
  CS5600.Lib.DoublyLinked — doubly linked lists that close at a sentinel, address 0.

  `Via next x l y`: from `x`, `next` runs through `l` to `y`. A ring is such a way from the sentinel through `l` and
  back to it, with a way the other way round through the reverse of `l` (`Ring`). Two stores take a node out
  (`Ring.unlink`), four put one behind the sentinel (`Ring.link`). A loop that follows either pointer from the
  sentinel back to it is a search of the list (`Ring.forward`, `Ring.backward`, with `Lib.Chains`).
-/

import CS5600.Lib.Chains

namespace CS5600.Lib.DoublyLinked

open CS5600.Lib.Chains

def Via (next : Nat → Nat) : Nat → List Nat → Nat → Prop
  | x, [], y => next x = y
  | x, b :: l, y => next x = b ∧ Via next b l y

section

variable {next next' prev : Nat → Nat} {x y y' b : Nat} {l r : List Nat}

theorem via_append : Via next x (l ++ b :: r) y ↔ Via next x l b ∧ Via next b r y := by
  induction l generalizing x with
  | nil => exact Iff.rfl
  | cons c l ih =>
    show next x = c ∧ Via next c (l ++ b :: r) y ↔ (next x = c ∧ Via next c l b) ∧ _
    rw [ih, and_assoc]

theorem Via.congr (h : Via next x l y) (he : ∀ c ∈ x :: l, next' c = next c) : Via next' x l y := by
  induction l generalizing x with
  | nil => exact (he x (List.mem_cons_self ..)).trans h
  | cons b l ih =>
    obtain ⟨h1, h2⟩ := h
    exact ⟨(he x (List.mem_cons_self ..)).trans h1, ih h2 fun c hc => he c (List.mem_cons_of_mem _ hc)⟩

/-- The last node of a way, which is `x` if there is no other. -/
def last (x : Nat) (l : List Nat) : Nat := (x :: l).getLast (List.cons_ne_nil _ _)

theorem last_cons : last x (b :: l) = last b l := List.getLast_cons (List.cons_ne_nil _ _)

theorem last_snoc : last x (l ++ [b]) = b := by
  unfold last
  simp

theorem last_mem : last x l ∈ x :: l := List.getLast_mem _

/-- A way back starts at the last node. -/
theorem Via.first (h : Via next x l y) : next x = last y l.reverse := by
  cases l with
  | nil => exact h
  | cons b l =>
    rw [List.reverse_cons, last_snoc]
    exact h.1

/-- The last pointer of a way is turned elsewhere. -/
theorem Via.turn (h : Via next x l y) (hnd : (x :: l).Nodup) : Via (Function.update next (last x l) y') x l y' := by
  induction l generalizing x with
  | nil => exact Function.update_self ..
  | cons b l ih =>
    obtain ⟨h1, h2⟩ := h
    obtain ⟨hx, hnd⟩ := List.nodup_cons.mp hnd
    rw [last_cons]
    have hne : x ≠ last b l := fun e => hx (e ▸ last_mem)
    exact ⟨(Function.update_of_ne hne ..).trans h1, ih h2 hnd⟩

/-- The pointer to `b` is turned to what follows `b`. -/
theorem Via.cut (h : Via next x (l ++ b :: r) y) (hnd : (x :: (l ++ b :: r)).Nodup) :
    Via (Function.update next (last x l) (next b)) x (l ++ r) y := by
  obtain ⟨h1, h2⟩ := via_append.mp h
  rw [← List.cons_append, List.nodup_append] at hnd
  obtain ⟨hl, -, hdisj⟩ := hnd
  cases r with
  | nil =>
    rw [List.append_nil, show next b = y from h2]
    exact h1.turn hl
  | cons c r =>
    obtain ⟨hc, h2⟩ := h2
    rw [hc]
    refine via_append.mpr ⟨h1.turn hl, h2.congr fun d hd => ?_⟩
    apply Function.update_of_ne
    rintro rfl
    exact hdisj _ last_mem _ (List.mem_cons_of_mem _ hd) rfl

theorem Via.cons (h : Via next x l y) (hx : x ∉ l) (hb : b ∉ x :: l) :
    Via (Function.update (Function.update next b (next x)) x b) x (b :: l) y := by
  rw [List.mem_cons, not_or] at hb
  refine ⟨Function.update_self .., ?_⟩
  have hself : Function.update (Function.update next b (next x)) x b b = next x := by
    rw [Function.update_of_ne hb.1, Function.update_self]
  cases l with
  | nil => exact hself.trans h
  | cons c l =>
    refine ⟨hself.trans h.1, h.2.congr fun d hd => ?_⟩
    rw [Function.update_of_ne (by rintro rfl; exact hx hd), Function.update_of_ne (by rintro rfl; exact hb.2 hd)]

theorem Via.snoc (h : Via next x l y) (hnd : (x :: l).Nodup) (hb : b ∉ x :: l) :
    Via (Function.update (Function.update next b y) (last x l) b) x (l ++ [b]) y := by
  have hne : b ≠ last x l := fun e => hb (e ▸ last_mem)
  have hold : Via (Function.update next b y) x l y := by
    apply h.congr
    rintro c hc
    exact Function.update_of_ne (by rintro rfl; exact hb hc) ..
  refine via_append.mpr ⟨hold.turn hnd, ?_⟩
  show Function.update (Function.update next b y) (last x l) b b = y
  rw [Function.update_of_ne hne, Function.update_self]

theorem Via.linked (h : Via next x l 0) (h0 : 0 ∉ l) : Linked next (next x) l := by
  induction l generalizing x with
  | nil => exact h
  | cons b l ih =>
    obtain ⟨h1, h2⟩ := h
    rw [List.mem_cons, not_or] at h0
    exact ⟨h1, Ne.symm h0.1, ih h2 h0.2⟩

end

/-- `next` goes from the sentinel through `l` and back to it, `prev` the other way round. -/
structure Ring (next prev : Nat → Nat) (l : List Nat) : Prop where
  forth : Via next 0 l 0
  back : Via prev 0 l.reverse 0
  nodup : (0 :: l).Nodup

section

variable {next prev : Nat → Nat} {b : Nat} {l r : List Nat}

theorem Ring.forward (h : Ring next prev l) : Linked next (next 0) l := h.forth.linked (List.nodup_cons.mp h.nodup).1

theorem Ring.backward (h : Ring next prev l) : Linked prev (prev 0) l.reverse :=
  h.back.linked fun h0 => (List.nodup_cons.mp h.nodup).1 (List.mem_reverse.mp h0)

theorem Ring.nodup_reverse (h : Ring next prev l) : (0 :: l.reverse).Nodup := by
  obtain ⟨h0, hnd⟩ := List.nodup_cons.mp h.nodup
  exact List.nodup_cons.mpr ⟨fun hm => h0 (List.mem_reverse.mp hm), List.nodup_reverse.mpr hnd⟩

theorem Ring.next_ne (h : Ring next prev (l ++ b :: r)) : next b ≠ b := by
  rw [(via_append.mp h.forth).2.first]
  intro e
  have hmem : b ∈ 0 :: r.reverse := e ▸ last_mem
  rw [List.mem_cons, List.mem_reverse] at hmem
  obtain ⟨h0, hnd⟩ := List.nodup_cons.mp h.nodup
  obtain ⟨-, hnd, -⟩ := List.nodup_append.mp hnd
  rcases hmem with hb | hb
  · exact h0 (by simp [hb])
  · exact (List.nodup_cons.mp hnd).1 hb

/-- `b->next->prev = b->prev; b->prev->next = b->next;` -/
theorem Ring.unlink (h : Ring next prev (l ++ b :: r)) :
    Ring (Function.update next (prev b) (next b)) (Function.update prev (next b) (prev b)) (l ++ r) := by
  have hrev : (l ++ b :: r).reverse = r.reverse ++ b :: l.reverse := by simp
  have hnd := h.nodup_reverse
  have hback := h.back
  rw [hrev] at hnd hback
  have hprev : prev b = last 0 l := by
    rw [(via_append.mp hback).2.first, List.reverse_reverse]
  have hnext : next b = last 0 r.reverse := (via_append.mp h.forth).2.first
  refine ⟨?_, ?_, h.nodup.sublist (.cons_cons _ (.append_left (List.sublist_cons_self ..) _))⟩
  · rw [hprev]
    exact h.forth.cut h.nodup
  · rw [hnext, List.reverse_append]
    exact hback.cut hnd

/-- `b->next = head.next; b->prev = &head; head.next->prev = b; head.next = b;` -/
theorem Ring.link (h : Ring next prev l) (hb : b ∉ 0 :: l) :
    Ring (Function.update (Function.update next b (next 0)) 0 b)
      (Function.update (Function.update prev b 0) (next 0) b) (b :: l) := by
  refine ⟨h.forth.cons (List.nodup_cons.mp h.nodup).1 hb, ?_, ?_⟩
  · rw [h.forth.first, List.reverse_cons]
    exact h.back.snoc h.nodup_reverse (by simpa using hb)
  · have h0 := List.nodup_cons.mp h.nodup
    rw [List.mem_cons, not_or] at hb
    refine List.nodup_cons.mpr ⟨?_, List.nodup_cons.mpr ⟨hb.2, h0.2⟩⟩
    rw [List.mem_cons, not_or]
    exact ⟨Ne.symm hb.1, h0.1⟩

end

end CS5600.Lib.DoublyLinked
