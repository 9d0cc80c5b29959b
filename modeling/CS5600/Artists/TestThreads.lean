/-
  CS5600.Artists.TestThreads — the painters of `Lab8_MultiprocessingArtists/test_threads.c`: `main` creates
  64 threads that each `paint` one row of `colors`, and writes the picture (`writePPM`).

  A schedule is a list of events, each a step of `main` or a pixel write of a painter that has been
  created. `main` waits for nobody: it reads a component when it gets there, painted or not.

  Proved (`file_iff`): whatever the schedule, the file is the blue gradient exactly when every third
  component is painted before `main` reads it. The others are 0 from the start; a third one is not, and
  its number is longer than that of 0, so a file with one of them missed is shorter. If the
  painters are done when `main` opens the file, as after a join, it is the gradient
  (`joined_file`); if `main` runs first, it is not (`main_first`).
-/

import CS5600.Lib.Runs

namespace CS5600.Artists.TestThreads

open CS5600.Lib.Runs

def numberOfArtists : Nat := 64

/-- The length of a row of `colors`. -/
def width : Nat := 64 * 3

/-- What `paint` stores. -/
def value (tid i : Nat) : Int := if (i + 1) % 3 = 0 then 255 - tid * 3 else 0

/-- `%d` -/
def decimal (n : Int) : List Char :=
  if n < 0 then '-' :: Nat.toDigits 10 n.natAbs else Nat.toDigits 10 n.natAbs

/-- Where `main` is: in its loop, in those of `writePPM`, or behind them. -/
inductive Pc where
  | create (t : Nat)
  | write (i j : Nat)
  | done
  deriving DecidableEq

def Pc.next : Pc → Option Pc
  | .create t => if t < numberOfArtists then some (.create (t + 1)) else some (.write 0 0)
  | .write i j =>
    if i < 64 then if j < width then some (.write i (j + 1)) else some (.write (i + 1) 0)
    else some .done
  | .done => none

def ppmHeader : List Char := "P3\n64 64\n255\n".toList

/-- What `main` writes to the file there. -/
def Pc.text (colors : Nat → Nat → Int) : Pc → List Char
  | .create t => if t < numberOfArtists then [] else ppmHeader
  | .write i j =>
    if i < 64 then if j < width then decimal (colors i j) ++ [' '] else ['\n']
    else []
  | .done => []

/-- The threads created are those below it. -/
def Pc.created : Pc → Nat
  | .create t => t
  | _ => numberOfArtists

structure St where
  pc : Pc
  /-- the `i` of each painter -/
  next : Nat → Nat
  colors : Nat → Nat → Int
  file : List Char

inductive Ev where
  | main
  | paint (tid : Nat)
  deriving DecidableEq

def step (st : St) : Ev → Option St
  | .main => st.pc.next.map fun pc => { st with pc := pc, file := st.file ++ st.pc.text st.colors }
  | .paint tid =>
    let i := st.next tid
    if tid < st.pc.created ∧ i < width then
      some { st with
        next := Function.update st.next tid (i + 1)
        colors := Function.update st.colors tid (Function.update (st.colors tid) i (value tid i)) }
    else none

def init : St := ⟨.create 0, fun _ => 0, fun _ _ => 0, []⟩

/-! ## The picture -/

def cell (i j : Nat) : List Char := decimal (value i j) ++ [' ']

def row (i : Nat) : List Char := (List.range width).flatMap (cell i) ++ ['\n']

/-- Row `t` has 255 - 3t in every third component and 0 elsewhere. -/
def image : List Char := ppmHeader ++ (List.range 64).flatMap row

/-- What should be in the file when `main` is at `pc`. -/
def Pc.expected : Pc → List Char
  | .create _ => []
  | .write i j => ppmHeader ++ (List.range i).flatMap row ++ (List.range j).flatMap (cell i)
  | .done => image

/-- `main` does not come to a third component before its painter has been there. -/
def InTime (st : St) : Ev → Prop
  | .main => ∀ i j, st.pc = .write i j → i < 64 → j < width → (j + 1) % 3 = 0 → j < st.next i
  | .paint _ => True

/-! ## One step -/

def Pc.Valid : Pc → Prop
  | .create t => t ≤ numberOfArtists
  | .write i j => (i < 64 ∧ j ≤ width) ∨ (i = 64 ∧ j = 0)
  | .done => True

theorem Pc.next_valid {pc pc' : Pc} (h : pc.Valid) (hn : pc.next = some pc') : pc'.Valid := by
  revert hn
  fun_cases Pc.next pc with
  | case1 t ht =>
    rintro ⟨⟩
    exact ht
  | case2 t ht =>
    rintro ⟨⟩
    exact Or.inl ⟨by decide, Nat.zero_le _⟩
  | case3 i j hi hj =>
    rintro ⟨⟩
    exact Or.inl ⟨hi, hj⟩
  | case4 i j hi hj =>
    rintro ⟨⟩
    by_cases e : i + 1 = 64
    · exact Or.inr ⟨e, rfl⟩
    · exact Or.inl ⟨by omega, Nat.zero_le _⟩
  | case5 i j hi =>
    rintro ⟨⟩
    trivial
  | case6 => rintro ⟨⟩

theorem Pc.next_expected {pc pc' : Pc} (h : pc.Valid) (hn : pc.next = some pc') :
    pc'.expected = pc.expected ++ pc.text value := by
  revert hn
  fun_cases Pc.next pc with
  | case1 t ht =>
    rintro ⟨⟩
    simp [Pc.expected, Pc.text, ht]
  | case2 t ht =>
    rintro ⟨⟩
    simp [Pc.expected, Pc.text, ht]
  | case3 i j hi hj =>
    rintro ⟨⟩
    simp [Pc.expected, Pc.text, List.range_succ, cell, hi, hj]
  | case4 i j hi hj =>
    rintro ⟨⟩
    obtain rfl : j = width := by
      rcases h with h | h
      · omega
      · omega
    simp [Pc.expected, Pc.text, List.range_succ, row, hi]
  | case5 i j hi =>
    rintro ⟨⟩
    obtain ⟨rfl, rfl⟩ : i = 64 ∧ j = 0 := h.resolve_left (fun h => hi h.1)
    simp [Pc.expected, Pc.text, image]
  | case6 => rintro ⟨⟩

/-! ## What a read gives -/

theorem decimal_third {i j : Nat} (hi : i < 64) (hj : (j + 1) % 3 = 0) : 1 < (decimal (value i j)).length := by
  have h : ∀ i < 64, 1 < (decimal (255 - (i : Nat) * 3)).length := by decide
  rw [value, if_pos hj]
  exact h i hi

section Read

variable {next : Nat → Nat} {colors : Nat → Nat → Int} {i j : Nat}
  (hcolors : ∀ t i, colors t i = if i < next t then value t i else 0) (hi : i < 64)

include hcolors hi

theorem decimal_le : (decimal (colors i j)).length ≤ (decimal (value i j)).length := by
  rw [hcolors]
  by_cases hj : (j + 1) % 3 = 0
  · split
    · exact le_rfl
    · exact (decimal_third hi hj).le
  · simp [value, hj]

theorem decimal_eq_iff : decimal (colors i j) = decimal (value i j) ↔ ((j + 1) % 3 = 0 → j < next i) := by
  rw [hcolors]
  by_cases hj : (j + 1) % 3 = 0
  · split
    · rename_i hlt
      exact iff_of_true rfl fun _ => hlt
    · rename_i hlt
      refine iff_of_false (fun h => ?_) fun h => hlt (h hj)
      have := decimal_third hi hj
      rw [← h] at this
      exact absurd this (by decide)
  · exact iff_of_true (by simp [value, hj]) fun h => absurd h hj

end Read

/-- The painters write disjoint rows, each from left to right; `main` writes no more than it should. -/
structure Inv (st : St) : Prop where
  colors : ∀ t i, st.colors t i = if i < st.next t then value t i else 0
  valid : st.pc.Valid
  length : st.file.length ≤ st.pc.expected.length

theorem Inv.text_le {st : St} (h : Inv st) : (st.pc.text st.colors).length ≤ (st.pc.text value).length := by
  cases hpc : st.pc with
  | create t => exact le_rfl
  | write i j =>
    by_cases hi : i < 64
    · by_cases hj : j < width
      · have := decimal_le h.colors hi (j := j)
        simpa [Pc.text, hi, hj] using this
      · simp [Pc.text, hi, hj]
    · simp [Pc.text, hi]
  | done => exact le_rfl

theorem Inv.text_eq_iff {st : St} (h : Inv st) : st.pc.text st.colors = st.pc.text value ↔ InTime st .main := by
  unfold InTime
  cases hpc : st.pc with
  | create t => exact iff_of_true rfl fun i j e => by cases e
  | write i j =>
    by_cases hi : i < 64
    · by_cases hj : j < width
      · have := decimal_eq_iff h.colors hi (j := j)
        simp only [Pc.text, if_pos hi, if_pos hj, List.append_cancel_right_eq, this]
        constructor
        · intro hlt i' j' e _ _
          cases e
          exact hlt
        · intro hlt
          exact hlt i j rfl hi hj
      · refine iff_of_true (by simp [Pc.text, hi, hj]) fun i' j' e _ hj' => ?_
        cases e
        exact absurd hj' hj
    · refine iff_of_true (by simp [Pc.text, hi]) fun i' j' e hi' => ?_
      cases e
      exact absurd hi' hi
  | done => exact iff_of_true rfl fun i j e => by cases e

theorem step_main {st st' : St} (h : Inv st) (hs : step st .main = some st') :
    Inv st' ∧ (st'.file = st'.pc.expected ↔ st.file = st.pc.expected ∧ InTime st .main) := by
  obtain ⟨pc, hpc, rfl⟩ := Option.map_eq_some_iff.mp hs
  have hexp := Pc.next_expected h.valid hpc
  have hlen := h.length
  have htext := h.text_le
  refine ⟨⟨h.colors, Pc.next_valid h.valid hpc, ?_⟩, ?_⟩
  · dsimp only
    rw [hexp, List.length_append, List.length_append]
    omega
  · dsimp only
    rw [hexp, ← h.text_eq_iff]
    constructor
    · intro e
      have hboth := congrArg List.length e
      rw [List.length_append, List.length_append] at hboth
      exact List.append_inj e (by omega)
    · intro e
      rw [e.1, e.2]

theorem step_paint {st st' : St} {tid : Nat} (h : Inv st) (hs : step st (.paint tid) = some st') :
    Inv st' ∧ (st'.file = st'.pc.expected ↔ st.file = st.pc.expected ∧ InTime st (.paint tid)) := by
  unfold step at hs
  dsimp only at hs
  split at hs
  · cases hs
    refine ⟨⟨fun t i => ?_, h.valid, h.length⟩, (and_iff_left trivial).symm⟩
    dsimp only
    by_cases et : t = tid
    · subst et
      simp only [Function.update_self]
      by_cases ei : i = st.next t
      · subst ei
        rw [Function.update_self, if_pos (Nat.lt_succ_self _)]
      · have hlt : i < st.next t + 1 ↔ i < st.next t := by omega
        simp only [Function.update_of_ne ei, hlt]
        exact h.colors t i
    · simp only [Function.update_of_ne et]
      exact h.colors t i
  · cases hs

theorem step_iff {st st' : St} {e : Ev} (h : Inv st) (hs : step st e = some st') :
    Inv st' ∧ (st'.file = st'.pc.expected ↔ st.file = st.pc.expected ∧ InTime st e) := by
  cases e with
  | main => exact step_main h hs
  | paint tid => exact step_paint h hs

/-! ## Whole schedules -/

theorem init_inv : Inv init := ⟨fun t i => by simp [init], Nat.zero_le _, le_rfl⟩

theorem run_iff {es : List Ev} {st st' : St} (h : Inv st) (hrun : after step st es = some st') :
    st'.file = st'.pc.expected ↔ st.file = st.pc.expected ∧ ∀ x ∈ trail step st es, InTime x.1 x.2 :=
  after_iff Inv (fun st => st.file = st.pc.expected) InTime (fun _ _ _ hs ht => step_iff hs ht) es st st' h hrun

/-- The file is the picture exactly when `main` reads no third component before it is painted. -/
theorem file_iff {es : List Ev} {st : St} (hrun : after step init es = some st) (hdone : st.pc = .done) :
    st.file = image ↔ ∀ x ∈ trail step init es, InTime x.1 x.2 := by
  have h := run_iff init_inv hrun
  rw [hdone] at h
  exact h.trans (and_iff_right rfl)

/-! ### After a join -/

/-- Every painter is done. -/
structure Joined (st : St) : Prop where
  inv : Inv st
  file : st.file = st.pc.expected
  painted : ∀ t < 64, width ≤ st.next t

theorem Joined.step {st st' : St} {e : Ev} (h : Joined st) (hs : step st e = some st') : Joined st' := by
  have htime : InTime st e := by
    cases e with
    | main => exact fun i j _ hi hj _ => Nat.lt_of_lt_of_le hj (h.painted i hi)
    | paint tid => trivial
  obtain ⟨hinv, hexact⟩ := step_iff h.inv hs
  refine ⟨hinv, hexact.mpr ⟨h.file, htime⟩, fun t ht => ?_⟩
  cases e with
  | main =>
    obtain ⟨pc, -, rfl⟩ := Option.map_eq_some_iff.mp hs
    exact h.painted t ht
  | paint tid =>
    unfold TestThreads.step at hs
    dsimp only at hs
    split at hs
    · cases hs
      dsimp only
      by_cases e : t = tid
      · subst e
        rw [Function.update_self]
        exact (h.painted t ht).trans (Nat.le_succ _)
      · rw [Function.update_of_ne e]
        exact h.painted t ht
    · cases hs

/-- If the painters are done before `main` opens the file, it is the picture. -/
theorem joined_file {es fs : List Ev} {st st' : St} (hrun : after step init es = some st)
    (hpc : st.pc = .create numberOfArtists) (hpainted : ∀ t < 64, width ≤ st.next t)
    (hrest : after step st fs = some st') (hdone : st'.pc = .done) : st'.file = image := by
  have hinv : Inv st := after_inv Inv (fun _ _ => True) (fun s e t hs _ ht => (step_iff hs ht).1) es init st init_inv
    (fun _ _ => trivial) hrun
  -- nothing is in the file while the threads are created
  have hempty : st.file = [] := by
    have hlen := hinv.length
    rw [hpc] at hlen
    exact List.eq_nil_of_length_eq_zero (Nat.le_zero.mp hlen)
  have hjoined : Joined st := ⟨hinv, by rw [hempty, hpc]; rfl, hpainted⟩
  have h := after_inv Joined (fun _ _ => True) (fun s e t hs _ ht => hs.step ht) fs st st' hjoined
    (fun _ _ => trivial) hrest
  rw [h.file, hdone]
  rfl

/-! ### Schedules that end -/

/-- The steps `main` has before it. -/
def Pc.left : Pc → Nat
  | .create t => (numberOfArtists - t) + 1 + 64 * (width + 1) + 1
  | .write i j => (64 - i) * (width + 1) - j + 1
  | .done => 0

theorem Pc.next_left {pc : Pc} (h : pc.Valid) (hpc : pc ≠ .done) : ∃ pc', pc.next = some pc' ∧ pc.left = pc'.left + 1 := by
  have hw : width = 192 := rfl
  fun_cases Pc.next pc with
  | case1 t ht => exact ⟨_, rfl, by simp only [Pc.left]; omega⟩
  | case2 t ht =>
    refine ⟨_, rfl, ?_⟩
    have : t = numberOfArtists := Nat.le_antisymm h (by omega)
    simp only [Pc.left, hw]
    omega
  | case3 i j hi hj => exact ⟨_, rfl, by simp only [Pc.left, hw]; omega⟩
  | case4 i j hi hj =>
    refine ⟨_, rfl, ?_⟩
    have : j = width := by
      rcases h with h | h
      · omega
      · omega
    simp only [Pc.left, hw]
    omega
  | case5 i j hi =>
    obtain ⟨rfl, rfl⟩ : i = 64 ∧ j = 0 := h.resolve_left (fun h => hi h.1)
    exact ⟨_, rfl, rfl⟩
  | case6 => exact absurd rfl hpc

/-- `main` alone gets to its end. -/
theorem main_runs (st : St) (h : st.pc.Valid) :
    ∃ st', after step st (List.replicate st.pc.left .main) = some st' ∧ st'.pc = .done := by
  induction hn : st.pc.left generalizing st with
  | zero =>
    refine ⟨st, rfl, ?_⟩
    by_contra hpc
    obtain ⟨pc, -, hleft⟩ := Pc.next_left h hpc
    omega
  | succ n ih =>
    have hpc : st.pc ≠ .done := by
      intro e
      rw [e] at hn
      cases hn
    obtain ⟨pc, hnext, hleft⟩ := Pc.next_left h hpc
    have hs : step st .main = some { st with pc := pc, file := st.file ++ st.pc.text st.colors } := by
      simp [step, hnext]
    obtain ⟨st', hst', hdone⟩ := ih { st with pc := pc, file := st.file ++ st.pc.text st.colors }
      (Pc.next_valid h hnext) (by dsimp only; omega)
    refine ⟨st', ?_, hdone⟩
    rw [List.replicate_succ, after, hs]
    exact hst'

/-- A painter that was created gets to the end of its row. -/
theorem paint_runs (st : St) (tid n : Nat) (htid : tid < st.pc.created) (hn : st.next tid + n ≤ width) :
    ∃ st', after step st (List.replicate n (.paint tid)) = some st' ∧ st'.pc = st.pc ∧
      st'.next = Function.update st.next tid (st.next tid + n) := by
  induction n generalizing st with
  | zero => exact ⟨st, rfl, rfl, (Function.update_eq_self tid st.next).symm⟩
  | succ n ih =>
    rw [List.replicate_succ, after, step, if_pos ⟨htid, by omega⟩]
    dsimp only
    obtain ⟨st', hst', hpc, hnext⟩ := ih { st with
      next := Function.update st.next tid (st.next tid + 1)
      colors := Function.update st.colors tid (Function.update (st.colors tid) (st.next tid) (value tid (st.next tid))) }
      htid (by dsimp only; rw [Function.update_self]; omega)
    refine ⟨st', hst', hpc, ?_⟩
    rw [hnext]
    dsimp only
    rw [Function.update_idem, Function.update_self, Nat.add_assoc, Nat.add_comm 1 n]

/-- The painters, one after the other. -/
def painting (k : Nat) : List Ev := (List.range k).flatMap fun tid => List.replicate width (.paint tid)

theorem painting_runs (st : St) (hnext : st.next = fun _ => 0) (k : Nat) (hk : k ≤ st.pc.created) :
    ∃ st', after step st (painting k) = some st' ∧ st'.pc = st.pc ∧
      st'.next = fun t => if t < k then width else 0 := by
  induction k with
  | zero => exact ⟨st, rfl, rfl, by simpa using hnext⟩
  | succ k ih =>
    obtain ⟨mid, hmid, hpc, hn⟩ := ih (by omega)
    obtain ⟨st', hst', hpc', hn'⟩ := paint_runs mid k width (by rw [hpc]; omega)
      (by simp [hn])
    refine ⟨st', ?_, hpc'.trans hpc, ?_⟩
    · have hsplit : painting (k + 1) = painting k ++ List.replicate width (.paint k) := by
        simp [painting, List.range_succ]
      rw [hsplit, after_append hmid]
      exact hst'
    · rw [hn', hn]
      funext t
      by_cases e : t = k
      · subst e
        simp
      · have hlt : t < k + 1 ↔ t < k := by omega
        simp [Function.update_of_ne e, hlt]

/-- `main` when it has created the painters. -/
def allCreated : St := ⟨.create numberOfArtists, fun _ => 0, fun _ _ => 0, []⟩

/-- The painters paint between the two loops of `main`. -/
def paintersFirst : List Ev :=
  List.replicate numberOfArtists .main ++ painting 64 ++ List.replicate (Pc.create numberOfArtists).left .main

theorem file_iff_painters_first : ∃ st, after step init paintersFirst = some st ∧ st.pc = .done ∧
    ∀ x ∈ trail step init paintersFirst, InTime x.1 x.2 := by
  have hcreate : after step init (List.replicate numberOfArtists .main) = some allCreated := rfl
  obtain ⟨mid, hmid, hpc, hnext⟩ := painting_runs allCreated rfl 64 le_rfl
  obtain ⟨st, hst, hdone⟩ := main_runs mid (by rw [hpc]; exact le_rfl)
  rw [hpc] at hst
  have hpaint : after step init (List.replicate numberOfArtists .main ++ painting 64) = some mid :=
    (after_append hcreate _).trans hmid
  have hrun : after step init paintersFirst = some st := (after_append hpaint _).trans hst
  refine ⟨st, hrun, hdone, (file_iff hrun hdone).mp ?_⟩
  exact joined_file hpaint hpc (fun t ht => by simp [hnext, ht]) hst hdone

/-- `main` at the first third component, with nothing painted. -/
def firstRed : St := ⟨.write 0 2, fun _ => 0, fun _ _ => 0, ppmHeader ++ "0 0 ".toList⟩

/-- `main` to its end, before any painter. -/
theorem main_first : ∃ st, after step init (List.replicate 12418 .main) = some st ∧ st.pc = .done ∧ st.file ≠ image := by
  have hstart : after step init (List.replicate 67 .main) = some firstRed := rfl
  have hinv : Inv firstRed := ⟨fun t i => by simp [firstRed], Or.inl ⟨by decide, by decide⟩, by decide⟩
  obtain ⟨st, hst, hdone⟩ := main_runs firstRed hinv.valid
  have hall : List.replicate 12418 Ev.main = List.replicate 67 .main ++ List.replicate firstRed.pc.left .main := by
    rw [List.replicate_append_replicate]
    rfl
  refine ⟨st, ?_, hdone, fun himage => ?_⟩
  · rw [hall, after_append hstart]
    exact hst
  · have hexact : st.file = st.pc.expected := by rw [hdone, himage]; rfl
    have htime := ((run_iff hinv hst).mp hexact).2 (firstRed, .main) (List.mem_cons_self ..)
    exact absurd (htime 0 2 rfl (by decide) (by decide) rfl) (by decide)

end CS5600.Artists.TestThreads
