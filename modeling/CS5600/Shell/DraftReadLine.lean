/-
  CS5600.Shell.DraftReadLine — `read_line` of the draft shell (`Assignment4_Shell/shell_draft.c`).

  Each round of its loop takes a character and makes one store, at `posn`; then it makes the buffer
  longer if `posn` has gone past `size`. The byte of a store outside the buffer is not its own, and
  `realloc` does not take it along. The input may have no end: `rounds n` is where the call is
  after `n` rounds.

  Proved (`read_line_iff`): every store is inside the buffer and the string returned is the line
  exactly when the line has fewer than 80 characters and no NUL. `posn` may be equal to `size`: the
  stores at 80, 160, … are one byte outside (`store_outside_iff`, `eighty_characters`), and on a line
  that goes on the character stored there is lost (`character_lost`).
-/

import CS5600.Lib.Extents
import CS5600.Shell.ParseLine

namespace CS5600.Shell.Draft.ReadLine

open CS5600.Lib.Extents

/-- LINE_SIZE -/
def lineSize : Nat := 80

structure Env where
  /-- `none` is EOF -/
  getchar : Nat → Option Char
  /-- `malloc` is the allocation 0 -/
  allocates : Nat → Bool
  /-- what is in the memory of each allocation -/
  junk : Nat → Nat → Char

structure Reading where
  size : Nat
  posn : Nat
  buffer : Nat → Char
  /-- the calls of `realloc` -/
  grown : Nat

inductive Call where
  | reading (r : Reading)
  | returned (r : Reading)
  /-- there is no memory -/
  | exited

def Reading.store (r : Reading) (c : Char) : Reading := { r with buffer := Function.update r.buffer r.posn c }

/-- `realloc` to LINE_SIZE more bytes. -/
def Reading.grow (env : Env) (r : Reading) : Reading :=
  { r with
    size := r.size + lineSize
    buffer := fun i => if i < r.size then r.buffer i else env.junk (r.grown + 1) i
    grown := r.grown + 1 }

/-- The body of the loop. -/
def round (env : Env) (r : Reading) (numChar : Option Char) : Call :=
  match numChar with
  | none => .returned (r.store nul)
  | some c =>
    if c = '\n' then .returned (r.store nul)
    else
      let r := { r.store c with posn := r.posn + 1 }
      if r.posn > r.size then
        if env.allocates (r.grown + 1) then .reading (r.grow env) else .exited
      else .reading r

def rounds (env : Env) : Nat → Call
  | 0 => if env.allocates 0 then .reading ⟨lineSize, 0, env.junk 0, 0⟩ else .exited
  | n + 1 =>
    match rounds env n with
    | .reading r => round env r (env.getchar n)
    | call => call

theorem rounds_succ {env : Env} {n : Nat} {r : Reading} (h : rounds env n = .reading r) :
    rounds env (n + 1) = round env r (env.getchar n) := by
  rw [rounds, h]

/-- The string at the start of the memory allocated. -/
def Reading.string (r : Reading) : List Char := cstr (slice r.buffer 0 r.size)

/-! ## What should hold -/

/-- The stream begins with these characters, and no newline is among them. -/
structure Begins (getchar : Nat → Option Char) (text : List Char) : Prop where
  chars : slice getchar 0 text.length = text.map some
  newline : '\n' ∉ text

/-- The characters up to the first newline or the end of the file. -/
structure IsLine (getchar : Nat → Option Char) (text : List Char) : Prop extends Begins getchar text where
  ends : getchar text.length = none ∨ getchar text.length = some '\n'

structure ReadsLine (env : Env) : Prop where
  /-- every store is inside the buffer -/
  inside : ∀ n r, rounds env n = .reading r → r.posn < r.size
  returns : env.allocates 0 = true → ∃ n r, rounds env n = .returned r ∧ IsLine env.getchar r.string

/-! ## The stores -/

structure Inv (r : Reading) : Prop where
  size : r.size = lineSize * (r.grown + 1)
  posn : r.posn ≤ r.size
  grown : 0 < r.grown → lineSize * r.grown < r.posn

theorem Inv.outside_iff {r : Reading} (h : Inv r) : ¬ r.posn < r.size ↔ 0 < r.posn ∧ lineSize ∣ r.posn := by
  obtain ⟨hsize, hposn, hgrown⟩ := h
  rw [lineSize] at hsize hgrown ⊢
  constructor
  · intro hout
    have heq : r.posn = 80 * (r.grown + 1) := by omega
    exact ⟨by omega, Dvd.intro _ heq.symm⟩
  · intro hmul
    obtain ⟨hpos, k, hk⟩ := hmul
    by_cases hg : 0 < r.grown
    · have := hgrown hg
      omega
    · omega

theorem Inv.round {env : Env} {r r' : Reading} {c : Option Char} (h : Inv r) (hr : round env r c = .reading r') :
    Inv r' ∧ r'.posn = r.posn + 1 := by
  obtain ⟨hsize, hposn, hgrown⟩ := h
  unfold ReadLine.round at hr
  cases c with
  | none => cases hr
  | some c =>
    dsimp only at hr
    split at hr
    · cases hr
    · split at hr
      · rename_i hfull
        split at hr
        · cases hr
          refine ⟨⟨?_, ?_, ?_⟩, rfl⟩
          · show r.size + lineSize = lineSize * (r.grown + 1 + 1)
            rw [hsize, ← Nat.mul_add_one]
          · show r.posn + 1 ≤ r.size + lineSize
            rw [lineSize]
            omega
          · intro _
            show lineSize * (r.grown + 1) < r.posn + 1
            rw [← hsize]
            exact hfull
        · cases hr
      · rename_i hroom
        cases hr
        refine ⟨⟨hsize, Nat.le_of_not_lt hroom, fun hg => ?_⟩, rfl⟩
        exact (hgrown hg).trans (Nat.lt_succ_self _)

/-- After `n` rounds the next store is at `n`. -/
theorem rounds_inv {env : Env} {n : Nat} {r : Reading} (h : rounds env n = .reading r) : Inv r ∧ r.posn = n := by
  induction n generalizing r with
  | zero =>
    unfold rounds at h
    split at h
    · cases h
      exact ⟨⟨rfl, Nat.zero_le _, fun hg => absurd hg (Nat.lt_irrefl 0)⟩, rfl⟩
    · cases h
  | succ n ih =>
    cases hn : rounds env n with
    | reading r₀ =>
      rw [rounds_succ hn] at h
      obtain ⟨hinv, hposn⟩ := ih hn
      obtain ⟨hinv', hposn'⟩ := hinv.round h
      exact ⟨hinv', hposn'.trans (congrArg (· + 1) hposn)⟩
    | returned r₀ =>
      rw [rounds, hn] at h
      cases h
    | exited =>
      rw [rounds, hn] at h
      cases h

/-- The stores at 80, 160, … are outside, and no others are. -/
theorem store_outside_iff {env : Env} {n : Nat} {r : Reading} (h : rounds env n = .reading r) :
    ¬ r.posn < r.size ↔ 0 < n ∧ lineSize ∣ n := by
  obtain ⟨hinv, hposn⟩ := rounds_inv h
  rw [hinv.outside_iff, hposn]

/-! ## The line -/

section

variable {getchar : Nat → Option Char} {text : List Char} {c : Char}

theorem Begins.nil : Begins getchar [] := ⟨rfl, List.not_mem_nil⟩

theorem begins_concat :
    Begins getchar (text ++ [c]) ↔ Begins getchar text ∧ getchar text.length = some c ∧ c ≠ '\n' := by
  constructor
  · intro h
    obtain ⟨hchars, hnewline⟩ := h
    rw [List.length_append, List.length_singleton, slice_succ, Nat.zero_add, List.map_append] at hchars
    rw [List.mem_append, not_or, List.mem_singleton] at hnewline
    obtain ⟨hinit, hlast⟩ := List.append_inj hchars (by simp)
    exact ⟨⟨hinit, hnewline.1⟩, List.singleton_injective hlast, Ne.symm hnewline.2⟩
  · intro h
    obtain ⟨⟨hchars, hnewline⟩, hc, hne⟩ := h
    refine ⟨?_, ?_⟩
    · rw [List.length_append, List.length_singleton, slice_succ, Nat.zero_add, hchars, hc, List.map_append]
      rfl
    · rw [List.mem_append, not_or, List.mem_singleton]
      exact ⟨hnewline, Ne.symm hne⟩

theorem Begins.append {rest : List Char} (h : Begins getchar (text ++ rest)) : Begins getchar text := by
  obtain ⟨hchars, hnewline⟩ := h
  rw [List.length_append, slice_add, List.map_append] at hchars
  exact ⟨(List.append_inj hchars (by simp)).1, fun hmem => hnewline (List.mem_append_left _ hmem)⟩

end

variable {env : Env} {text : List Char}

/-- The first 80 characters are stored without a test that `realloc` is needed. -/
theorem rounds_begins (hmem : env.allocates 0 = true) (h : Begins env.getchar text) (hlen : text.length ≤ lineSize) :
    ∃ b, rounds env text.length = .reading ⟨lineSize, text.length, b, 0⟩ ∧ slice b 0 text.length = text := by
  induction text using List.reverseRecOn with
  | nil => exact ⟨env.junk 0, if_pos hmem, rfl⟩
  | append_singleton text c ih =>
    rw [begins_concat] at h
    rw [List.length_append, List.length_singleton] at hlen ⊢
    obtain ⟨hbegins, hget, hc⟩ := h
    obtain ⟨b, hrounds, hslice⟩ := ih hbegins (Nat.le_of_succ_le hlen)
    refine ⟨Function.update b text.length c, ?_, ?_⟩
    · rw [rounds_succ hrounds, hget, round, if_neg hc]
      exact if_neg (Nat.not_lt.mpr hlen)
    · rw [slice_update, hslice]

theorem rounds_ends {n : Nat} {r : Reading} (h : rounds env n = .reading r)
    (hend : env.getchar n = none ∨ env.getchar n = some '\n') : rounds env (n + 1) = .returned (r.store nul) := by
  rw [rounds_succ h]
  rcases hend with hend | hend
  · rw [hend]
    rfl
  · rw [hend]
    rfl

theorem rounds_returned {n : Nat} {r : Reading} (h : rounds env n = .returned r) (k : Nat) :
    rounds env (n + k) = .returned r := by
  induction k with
  | zero => exact h
  | succ k ih => rw [← Nat.add_assoc, rounds, ih]

/-- What `parse_line` is given: the line, and the rest of the 80 bytes. -/
theorem rounds_isLine (hmem : env.allocates 0 = true) (h : IsLine env.getchar text) (hlen : text.length < lineSize) :
    ∃ r spare, rounds env (text.length + 1) = .returned r ∧ slice r.buffer 0 r.size = Line.buf ⟨text, spare⟩ := by
  obtain ⟨b, hrounds, hslice⟩ := rounds_begins hmem h.toBegins hlen.le
  obtain ⟨rest, hrest⟩ := Nat.exists_eq_add_of_lt hlen
  refine ⟨_, slice (Function.update b text.length nul) (0 + (text.length + 1)) rest, rounds_ends hrounds h.ends, ?_⟩
  show slice (Function.update b text.length nul) 0 lineSize = text ++ nul :: _
  rw [hrest, Nat.add_right_comm, slice_add, slice_update, hslice, List.append_assoc, List.singleton_append]

theorem rounds_exited (h : env.allocates 0 = false) (n : Nat) : rounds env n = .exited := by
  induction n with
  | zero => simp [rounds, h]
  | succ n ih => rw [rounds, ih]

theorem allocates_of_reading {n : Nat} {r : Reading} (h : rounds env n = .reading r) : env.allocates 0 = true := by
  by_contra hmem
  rw [rounds_exited (Bool.eq_false_of_not_eq_true hmem)] at h
  cases h

theorem ReadsLine.of_short (h : IsLine env.getchar text) (hlen : text.length < lineSize) (hnul : nul ∉ text) :
    ReadsLine env := by
  refine ⟨fun n r hn => ?_, fun hmem => ?_⟩
  · obtain ⟨hinv, hposn⟩ := rounds_inv hn
    obtain ⟨r', _, hret, _⟩ := rounds_isLine (allocates_of_reading hn) h hlen
    have hle : n ≤ text.length := by
      by_contra hgt
      obtain ⟨k, hk⟩ := Nat.exists_eq_add_of_le (Nat.succ_le_of_lt (Nat.lt_of_not_le hgt))
      rw [hk, rounds_returned hret] at hn
      cases hn
    have hsize : lineSize ≤ r.size := by
      rw [hinv.size]
      exact Nat.le_mul_of_pos_right _ (Nat.succ_pos _)
    omega
  · obtain ⟨r, spare, hret, hbuf⟩ := rounds_isLine hmem h hlen
    refine ⟨_, r, hret, ?_⟩
    rw [Reading.string, hbuf, Line.buf, cstr_append hnul]
    exact h

/-- 80 characters fill the buffer, and the next store is outside. -/
theorem not_readsLine (hmem : env.allocates 0 = true) (h : Begins env.getchar text) (hlen : lineSize ≤ text.length) :
    ¬ ReadsLine env := by
  intro hreads
  rw [← List.take_append_drop lineSize text] at h
  have hfull : (text.take lineSize).length = lineSize := List.length_take_of_le hlen
  obtain ⟨b, hrounds, _⟩ := rounds_begins hmem h.append hfull.le
  apply (store_outside_iff hrounds).mpr
  · rw [hfull]
    exact ⟨by decide, dvd_rfl⟩
  · exact hreads.inside _ _ hrounds

/-- On a longer line that store is of a character, and it is lost. -/
theorem character_lost {c : Char} (hmem : ∀ k, env.allocates k = true) (h : Begins env.getchar (text ++ [c]))
    (hlen : text.length = lineSize) :
    ∃ r, rounds env (lineSize + 1) = .reading r ∧ r.buffer lineSize = env.junk 1 lineSize := by
  obtain ⟨hbegins, hget, hc⟩ := begins_concat.mp h
  obtain ⟨b, hrounds, _⟩ := rounds_begins (hmem 0) hbegins hlen.le
  rw [hlen] at hrounds hget
  refine ⟨Reading.grow env ⟨lineSize, lineSize + 1, Function.update b lineSize c, 0⟩, ?_, ?_⟩
  · rw [rounds_succ hrounds, hget, round, if_neg hc]
    exact (if_pos (Nat.lt_succ_self lineSize)).trans (if_pos (hmem 1))
  · simp [Reading.grow]

theorem read_line_iff (g : Nat → Option Char) :
    (∀ env, env.getchar = g → ReadsLine env) ↔ ∃ text, IsLine g text ∧ text.length < lineSize ∧ nul ∉ text := by
  constructor
  · intro h
    have hreads := h ⟨g, fun _ => true, fun _ _ => nul⟩ rfl
    obtain ⟨_, r, _, hline⟩ := hreads.returns rfl
    refine ⟨r.string, hline, ?_, ?_⟩
    · by_contra hlen
      exact not_readsLine rfl hline.toBegins (Nat.le_of_not_lt hlen) hreads
    · intro hnul
      have := List.mem_takeWhile_imp hnul
      simp at this
  · rintro ⟨text, hline, hlen, hnul⟩ env rfl
    exact ReadsLine.of_short hline hlen hnul

/-- 80 characters and a newline. -/
def eighty : Env where
  getchar i := if i < 80 then some 'a' else some '\n'
  allocates _ := true
  junk _ _ := nul

theorem eighty_begins : Begins eighty.getchar (List.replicate 80 'a') := by
  refine ⟨?_, by simp⟩
  rw [List.length_replicate]
  decide

/-- The NUL goes to `buffer[80]`, and 80 bytes are allocated. -/
theorem eighty_characters :
    (∃ r, rounds eighty 80 = .reading r ∧ r.posn = 80 ∧ r.size = 80 ∧ eighty.getchar 80 = some '\n') ∧
      ¬ ReadsLine eighty := by
  obtain ⟨b, hrounds, _⟩ := rounds_begins rfl eighty_begins (by simp [lineSize])
  rw [List.length_replicate] at hrounds
  refine ⟨⟨_, hrounds, rfl, rfl, rfl⟩, ?_⟩
  exact not_readsLine rfl eighty_begins (by simp [lineSize])

end CS5600.Shell.Draft.ReadLine
