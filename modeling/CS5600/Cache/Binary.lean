/-
  CS5600.Cache.Binary — bit strings (`Assignment5_Memory/CacheSimulator/binary.h`).

  A `char*` is read at offsets from where it points (`bin : Int → Char`): the decoders index on
  both sides of the string. `charAt` is a string of an array of rows: past its end there are
  NULs up to the row's end, before its start lies what the row before it holds (`before`).
  `pow` is exact on the powers of two in use.

  Proved: the encoder writes `bits` digits of the number it is given (`intToBinaryString_spec`),
  digits of one width write each number once (`value_inj`), and both decoders read that number
  back: a range of bits (`range_value`), or the whole of it (`toInt_value`). So every slice of an
  encoded number is that slice of its bits, and the encoder writes nothing outside its buffer
  (`encoded_slice`).

  The decoders add in `double` and store every sum in an `int` (`truncatedToInt`,
  `truncatedRangeToInt`). While the number is an `int`, that is what the loops compute, the 1/2 for
  the character behind the digits included, and the decoders agree (`decoders_agree`).
-/

import Mathlib

namespace CS5600.Cache.Binary

/-- The bytes around a string kept in a row of an array. -/
def charAt (before : Int → Char) (s : List Char) (i : Int) : Char :=
  if 0 ≤ i then s.getD i.toNat '\x00' else before i

/-- `n` rounds of the loop of `binary_string_range_to_int`, from index `i` downwards. -/
def rangeLoop (bin : Int → Char) : Nat → Int → Nat → Int → Int
  | 0, _, _, sum => sum
  | n + 1, i, counter, sum =>
    rangeLoop bin n (i - 1) (counter + 1) (if bin i = '1' then sum + 2 ^ counter else sum)

/-- `size` is `strlen(bin)`. -/
def binaryStringRangeToInt (bin : Int → Char) (size : Nat) (start stop : Int) : Int :=
  rangeLoop bin (stop - start + 1).toNat (size - start - 1) 0 0

/-- `pow(2, e)` as it is added to an `int`: a fraction leaves the sum what it was. -/
def pow2 (e : Int) : Int := if 0 ≤ e then 2 ^ e.toNat else 0

/-- The loop of `binaryStringToInt` over the indices below `n`, from the last. -/
def toIntLoop (bin : Int → Char) (size : Int) : Nat → Int → Int
  | 0, sum => sum
  | n + 1, sum => toIntLoop bin size n (if bin n = '1' then sum + pow2 (size - 1 - n - 1) else sum)

def binaryStringToInt (bin : Int → Char) (size : Int) : Int := toIntLoop bin size size.toNat 0

/-- The division loop of `intToBinaryString`, `pos` one less than its first argument. A value left
    when the positions are used up is written before the buffer. -/
def setDigits : Nat → Int → List Char → Option (List Char)
  | 0, value, binary => if 0 < value then none else some binary
  | n + 1, value, binary =>
    if 0 < value then setDigits n (value / 2) (binary.set n (if value % 2 = 0 then '0' else '1'))
    else some binary

def intToBinaryString (i : Int) (bits : Nat) : Option (List Char) :=
  setDigits bits i (List.replicate bits '0')

def IsBit (c : Char) : Prop := c = '0' ∨ c = '1'

/-- A trace line: 16 binary digits. -/
def IsAddress (s : List Char) : Prop := s.length = 16 ∧ ∀ c ∈ s, IsBit c

instance (c : Char) : Decidable (IsBit c) := inferInstanceAs (Decidable (_ ∨ _))

instance (s : List Char) : Decidable (IsAddress s) :=
  decidable_of_iff (s.length = 16 ∧ s.all (fun c => decide (IsBit c)) = true) (by simp [IsAddress])

def bit (c : Char) : Nat := if c = '1' then 1 else 0

/-- The number a string of binary digits writes, the most significant digit first. -/
def value (s : List Char) : Nat := s.foldl (fun v c => 2 * v + bit c) 0

theorem value_snoc (s : List Char) (c : Char) : value (s ++ [c]) = 2 * value s + bit c := by
  simp [value]

theorem charAt_snoc_last (before : Int → Char) (s : List Char) (c : Char) :
    charAt before (s ++ [c]) s.length = c := by
  simp [charAt]

theorem charAt_snoc_of_lt (before : Int → Char) (s : List Char) (c : Char) {i : Int} (h : i < s.length) :
    charAt before (s ++ [c]) i = charAt before s i := by
  unfold charAt
  split
  · have hi : i.toNat < s.length := by omega
    simp [List.getD, List.getElem?_append_left hi]
  · rfl

theorem bit_ite (c : Char) (sum p : Int) : (if c = '1' then sum + p else sum) = sum + bit c * p := by
  unfold bit; split <;> simp

theorem bit_le_one (c : Char) : bit c ≤ 1 := by
  unfold bit; split <;> omega

/-! ## Numbers and their digits -/

theorem value_lt (s : List Char) : value s < 2 ^ s.length := by
  induction s using List.reverseRecOn with
  | nil => simp [value]
  | append_singleton s c ih =>
    have hc := bit_le_one c
    rw [value_snoc, List.length_append, List.length_singleton, pow_succ]
    omega

theorem value_zeros (n : Nat) : value (List.replicate n '0') = 0 := by
  induction n with
  | zero => rfl
  | succ n ih => rw [List.replicate_succ', value_snoc, ih]; rfl

theorem bit_inj {c d : Char} (hc : IsBit c) (hd : IsBit d) (h : bit c = bit d) : c = d := by
  rcases hc with rfl | rfl <;> rcases hd with rfl | rfl <;> first | rfl | simp [bit] at h

/-- The induction strips the last digit of both. -/
theorem value_inj {s t : List Char} (hl : s.length = t.length) (hs : ∀ c ∈ s, IsBit c) (ht : ∀ c ∈ t, IsBit c)
    (h : value s = value t) : s = t := by
  induction s using List.reverseRecOn generalizing t with
  | nil => exact (List.eq_nil_of_length_eq_zero hl.symm).symm
  | append_singleton s c ih =>
    rcases List.eq_nil_or_concat' t with rfl | ⟨t, d, rfl⟩
    · simp at hl
    have hc := bit_le_one c
    have hd := bit_le_one d
    rw [value_snoc, value_snoc] at h
    simp only [List.length_append, List.length_singleton, Nat.add_right_cancel_iff] at hl
    simp only [List.mem_append, List.mem_singleton] at hs ht
    have e : s = t := ih hl (fun x hx => hs x (.inl hx)) (fun x hx => ht x (.inl hx)) (by omega)
    rw [e, bit_inj (hs c (.inr rfl)) (ht d (.inr rfl)) (by omega)]

/-- Digit `j` from the right is bit `j` of the number. -/
theorem bit_charAt (before : Int → Char) (s : List Char) {j : Nat} (h : j < s.length) :
    bit (charAt before s (s.length - j - 1)) = value s / 2 ^ j % 2 := by
  induction s using List.reverseRecOn generalizing j with
  | nil => simp at h
  | append_singleton s c ih =>
    have hc := bit_le_one c
    have hlen : ((s ++ [c]).length : Int) = s.length + 1 := by simp
    rw [hlen, value_snoc]
    cases j with
    | zero =>
      rw [show ((s.length : Int) + 1 - (0 : Nat) - 1) = s.length by omega, charAt_snoc_last]
      omega
    | succ j =>
      simp only [List.length_append, List.length_singleton] at h
      have hdiv : (2 * value s + bit c) / 2 ^ (j + 1) = value s / 2 ^ j := by
        rw [pow_succ', ← Nat.div_div_eq_div_mul]
        congr 1; omega
      rw [show ((s.length : Int) + 1 - (j + 1 : Nat) - 1) = s.length - j - 1 by omega,
        charAt_snoc_of_lt _ _ _ (by omega), ih (by omega), hdiv]

/-! ## The decoders -/

/-- The induction is on the rounds left; `start` is the bit the next round reads. -/
theorem rangeLoop_value (before : Int → Char) (s : List Char) :
    ∀ (n start counter : Nat) (sum : Int), start + n ≤ s.length →
      rangeLoop (charAt before s) n (s.length - start - 1) counter sum =
        sum + 2 ^ counter * (value s / 2 ^ start % 2 ^ n : Nat) := by
  intro n
  induction n with
  | zero => intro start counter sum _; simp [rangeLoop, Nat.mod_one]
  | succ n ih =>
    intro start counter sum h
    have hi : (s.length : Int) - start - 1 - 1 = s.length - (start + 1 : Nat) - 1 := by push_cast; ring
    have hsplit : value s / 2 ^ start % 2 ^ (n + 1) =
        value s / 2 ^ start % 2 + 2 * (value s / 2 ^ (start + 1) % 2 ^ n) := by
      rw [pow_succ', Nat.mod_mul, pow_succ, Nat.div_div_eq_div_mul]
    rw [rangeLoop, bit_ite, hi, ih (start + 1) _ _ (by omega), bit_charAt before s (by omega), hsplit]
    push_cast
    ring

/-- The bits from `start` to `stop`, counted from the right. -/
theorem range_value (before : Int → Char) (s : List Char) (start stop : Nat) (h : start ≤ stop) (hs : stop < s.length) :
    binaryStringRangeToInt (charAt before s) s.length start stop =
      (value s / 2 ^ start % 2 ^ (stop - start + 1) : Nat) := by
  unfold binaryStringRangeToInt
  rw [show ((stop : Int) - start + 1).toNat = stop - start + 1 by omega,
    rangeLoop_value before s _ _ _ _ (by omega)]
  simp

/-- Bits 0 and 1 of a string of at least two digits are its number modulo 4. -/
theorem range_low_two (before : Int → Char) {s : List Char} (h : 2 ≤ s.length) :
    binaryStringRangeToInt (charAt before s) s.length 0 1 = (value s % 4 : Nat) := by
  have hr := range_value before s 0 1 (by omega) (by omega)
  simpa using hr

/-- The set index of any string, also of one that is too short to have two low bits. -/
theorem range_two_bounds (bin : Int → Char) (size : Nat) :
    0 ≤ binaryStringRangeToInt bin size 0 1 ∧ binaryStringRangeToInt bin size 0 1 < 4 := by
  have h1 := bit_le_one (bin (size - 0 - 1))
  have h2 := bit_le_one (bin (size - 0 - 1 - 1))
  unfold binaryStringRangeToInt
  rw [show ((1 : Int) - 0 + 1).toNat = 2 from rfl]
  simp only [rangeLoop, bit_ite]
  omega

theorem charAt_of_lt (before : Int → Char) {s : List Char} {i : Nat} (h : i < s.length) :
    charAt before s i = s[i] := by
  simp [charAt, List.getD, h]

/-- The first `m` digits are read as a number of `m` digits. -/
theorem toIntLoop_value (before : Int → Char) (s : List Char) {m : Nat} (hm : m ≤ s.length) :
    ∀ (n : Nat) (sum : Int), n ≤ m →
      toIntLoop (charAt before s) (m + 1) n sum = sum + 2 ^ (m - n) * (value (s.take n) : Nat) := by
  intro n
  induction n with
  | zero => intro sum _; simp [toIntLoop, value]
  | succ n ih =>
    intro sum h
    have hn : n < s.length := by omega
    have hp : pow2 ((m : Int) + 1 - 1 - n - 1) = 2 ^ (m - (n + 1)) := by
      rw [show ((m : Int) + 1 - 1 - n - 1) = ((m - (n + 1) : Nat) : Int) by omega]
      simp [pow2]
    have hm : m - n = m - (n + 1) + 1 := by omega
    rw [toIntLoop, bit_ite, ih _ (by omega), charAt_of_lt before hn, hp, List.take_succ_eq_append_getElem hn,
      value_snoc, hm, pow_succ]
    push_cast
    ring

/-- `size` is one more than the digits read: the round at the character after them adds nothing. -/
theorem toInt_value (before : Int → Char) (s : List Char) {m : Nat} (hm : m ≤ s.length) :
    binaryStringToInt (charAt before s) (m + 1) = (value (s.take m) : Nat) := by
  have hp : pow2 ((m : Int) + 1 - 1 - m - 1) = 0 := by
    unfold pow2
    rw [if_neg (by omega)]
  unfold binaryStringToInt
  rw [show ((m : Int) + 1).toNat = m + 1 by omega, toIntLoop, hp]
  simp only [add_zero, ite_self]
  rw [toIntLoop_value before s hm m 0 le_rfl]
  simp

/-! ## The encoder -/

/-- The positions from `n` on are done; the induction is on the zeros left before them. -/
theorem setDigits_spec : ∀ (n v : Nat) (done : List Char), v < 2 ^ n →
    ∃ s, setDigits n v (List.replicate n '0' ++ done) = some (s ++ done) ∧ s.length = n ∧
      (∀ c ∈ s, IsBit c) ∧ value s = v := by
  intro n
  induction n with
  | zero =>
    intro v done h
    have hv : v = 0 := by simpa using h
    subst hv
    exact ⟨[], by simp [setDigits], rfl, by simp, rfl⟩
  | succ n ih =>
    intro v done h
    by_cases hv : 0 < v
    · have hset : ∀ c, (List.replicate (n + 1) '0' ++ done).set n c = List.replicate n '0' ++ (c :: done) := by
        intro c
        rw [List.replicate_succ', List.append_assoc, List.set_append_right _ _ (by simp)]
        simp
      obtain ⟨s, hs, hlen, hbits, hval⟩ :=
        ih (v / 2) ((if (v : Int) % 2 = 0 then '0' else '1') :: done) (by rw [pow_succ] at h; omega)
      refine ⟨s ++ [if (v : Int) % 2 = 0 then '0' else '1'], ?_, by simp [hlen], ?_, ?_⟩
      · rw [setDigits, if_pos (by exact_mod_cast hv), hset, show ((v : Int) / 2) = ((v / 2 : Nat) : Int) by omega, hs,
          List.append_assoc, List.singleton_append]
      · intro c hc
        rcases List.mem_append.mp hc with hc | hc
        · exact hbits c hc
        · rw [List.mem_singleton.mp hc]
          split
          · exact .inl rfl
          · exact .inr rfl
      · rw [value_snoc, hval]
        split <;> simp [bit] <;> omega
    · have hz : v = 0 := by omega
      subst hz
      refine ⟨List.replicate (n + 1) '0', by simp [setDigits], by simp, ?_, ?_⟩
      · intro c hc; exact .inl (List.eq_of_mem_replicate hc)
      · exact value_zeros (n + 1)

theorem intToBinaryString_spec {bits v : Nat} (h : v < 2 ^ bits) :
    ∃ s, intToBinaryString v bits = some s ∧ s.length = bits ∧ (∀ c ∈ s, IsBit c) ∧ value s = v := by
  simpa [intToBinaryString] using setDigits_spec bits v [] h

/-- A number too wide for the buffer is written before it. -/
theorem setDigits_wide : ∀ (n v : Nat) (binary : List Char), 2 ^ n ≤ v → setDigits n v binary = none := by
  intro n
  induction n with
  | zero =>
    intro v binary h
    rw [setDigits, if_pos (by simp at h; omega)]
  | succ n ih =>
    intro v binary h
    have hpos := Nat.two_pow_pos n
    rw [pow_succ] at h
    rw [setDigits, if_pos (by omega), show (v : Int) / 2 = ((v / 2 : Nat) : Int) by omega]
    exact ih (v / 2) _ (by omega)

theorem intToBinaryString_none {bits v : Nat} (h : 2 ^ bits ≤ v) : intToBinaryString v bits = none :=
  setDigits_wide bits v _ h

/-! ## The positions it writes -/

/-- The positions of the division loop, from `pos` downwards. -/
def digitWrites (value pos : Int) : List Int :=
  if 0 < value then pos :: digitWrites (value / 2) (pos - 1) else []
termination_by value.toNat
decreasing_by omega

/-- The zeros with the NUL behind them, then the digits. -/
def intToBinaryStringWrites (i : Int) (bits : Nat) : List Int :=
  (List.range (bits + 1)).map Int.ofNat ++ digitWrites i (bits - 1)

/-- `setDigits` has no result where the loop writes before the buffer. -/
theorem setDigits_none_iff : ∀ (n : Nat) (value : Int) (binary : List Char),
    setDigits n value binary = none ↔ ∃ p ∈ digitWrites value (n - 1), p < 0 := by
  intro n
  induction n with
  | zero =>
    intro value binary
    rw [setDigits, digitWrites]
    split <;> simp
  | succ n ih =>
    intro value binary
    rw [setDigits, digitWrites, show ((n + 1 : Nat) : Int) - 1 = n by omega]
    split
    · rw [ih, List.exists_mem_cons_iff]
      exact ⟨Or.inr, fun h => h.resolve_left (by omega)⟩
    · simp

theorem digitWrites_le {value pos p : Int} (hp : p ∈ digitWrites value pos) : p ≤ pos := by
  induction value, pos using digitWrites.induct with
  | case1 value pos h ih =>
    rw [digitWrites, if_pos h] at hp
    rcases List.mem_cons.mp hp with rfl | hp
    · exact le_rfl
    · have := ih hp
      omega
  | case2 value pos h =>
    rw [digitWrites, if_neg h] at hp
    cases hp

theorem intToBinaryStringWrites_bounds {bits v : Nat} (h : v < 2 ^ bits) :
    ∀ p ∈ intToBinaryStringWrites v bits, 0 ≤ p ∧ p ≤ bits := by
  obtain ⟨s, hs, -⟩ := intToBinaryString_spec h
  have hin : ¬ ∃ p ∈ digitWrites v (bits - 1), p < 0 := by
    rw [← setDigits_none_iff bits v (List.replicate bits '0')]
    show intToBinaryString v bits ≠ none
    rw [hs]
    exact Option.some_ne_none s
  intro p hp
  rcases List.mem_append.mp hp with hp | hp
  · obtain ⟨k, hk, rfl⟩ := List.mem_map.mp hp
    rw [List.mem_range] at hk
    simp only [Int.ofNat_eq_natCast]
    omega
  · have hle := digitWrites_le hp
    refine ⟨?_, by omega⟩
    by_contra hneg
    exact hin ⟨p, hp, by omega⟩

/-- The encoder stays in its buffer and any slice of what it wrote is read back, in the range of
    an `int`. -/
theorem encoded_slice (before : Int → Char) {bits v a b : Nat} (hbits : 1 ≤ bits ∧ bits ≤ 31) (hv : v < 2 ^ bits)
    (hab : a ≤ b) (hb : b < bits) :
    (∀ p ∈ intToBinaryStringWrites v bits, 0 ≤ p ∧ p ≤ bits) ∧
      ∃ s, intToBinaryString v bits = some s ∧ s.length = bits ∧ (∀ c ∈ s, IsBit c) ∧
        binaryStringRangeToInt (charAt before s) s.length a b = (v / 2 ^ a % 2 ^ (b - a + 1) : Nat) ∧
        binaryStringRangeToInt (charAt before s) s.length a b < 2 ^ 31 := by
  obtain ⟨s, hs, hlen, hbit, hval⟩ := intToBinaryString_spec hv
  have hr := range_value before s a b hab (by omega)
  rw [hval] at hr
  refine ⟨intToBinaryStringWrites_bounds hv, s, hs, hlen, hbit, hr, ?_⟩
  have hfit : v / 2 ^ a % 2 ^ (b - a + 1) < 2 ^ 31 :=
    calc v / 2 ^ a % 2 ^ (b - a + 1) ≤ v := (Nat.mod_le _ _).trans (Nat.div_le_self _ _)
      _ < 2 ^ bits := hv
      _ ≤ 2 ^ 31 := Nat.pow_le_pow_right (by decide) hbits.2
  rw [hr]
  exact_mod_cast hfit

/-- Bits 2 to 5 of 81, as `main` of `trace.c` prints them. -/
theorem encoded_slice_81 : ∃ s, intToBinaryString 81 16 = some s ∧
    binaryStringRangeToInt (charAt (fun _ => '0') s) s.length (2 : Nat) (5 : Nat) = 4 := by
  obtain ⟨-, s, hs, -, -, hr, -⟩ := encoded_slice (fun _ => '0') (a := 2) (b := 5)
    (show 1 ≤ 16 ∧ 16 ≤ 31 by decide) (show 81 < 2 ^ 16 by decide) (by decide) (by decide)
  exact ⟨s, hs, hr⟩

/-! ## The sums in `double`

`sum + pow(2, e)` is a `double`, which is stored in an `int`. A sum with a result is exact: it has
at most 31 bits before the point and one behind it. -/

/-- A fraction is cut off; outside the range of `int` there is no result. -/
def truncate (x : ℚ) : Option Int :=
  let t := if 0 ≤ x then ⌊x⌋ else ⌈x⌉
  if -2 ^ 31 ≤ t ∧ t < 2 ^ 31 then some t else none

def addPow (c : Char) (e sum : Int) : Option Int := if c = '1' then truncate (sum + 2 ^ e) else some sum

/-- `toIntLoop`, with every sum stored. -/
def toIntRounds (bin : Int → Char) (size : Int) : Nat → Int → Option Int
  | 0, sum => some sum
  | n + 1, sum => (addPow (bin n) (size - 1 - n - 1) sum).bind (toIntRounds bin size n)

def truncatedToInt (bin : Int → Char) (size : Int) : Option Int := toIntRounds bin size size.toNat 0

/-- `rangeLoop`, with every sum stored. -/
def rangeRounds (bin : Int → Char) : Nat → Int → Nat → Int → Option Int
  | 0, _, _, sum => some sum
  | n + 1, i, counter, sum => (addPow (bin i) counter sum).bind (rangeRounds bin n (i - 1) (counter + 1))

def truncatedRangeToInt (bin : Int → Char) (size : Nat) (start stop : Int) : Option Int :=
  rangeRounds bin (stop - start + 1).toNat (size - start - 1) 0 0

def strlen (s : List Char) : Nat := (s.takeWhile (· ≠ '\x00')).length

theorem pow2_natCast (n : Nat) : pow2 n = 2 ^ n := by simp [pow2]

theorem pow2_nonneg (e : Int) : 0 ≤ pow2 e := by
  unfold pow2
  split
  · positivity
  · exact le_rfl

/-- A whole power is added, a fraction is cut off again. -/
theorem floor_add_pow (sum e : Int) : ⌊(sum : ℚ) + 2 ^ e⌋ = sum + pow2 e := by
  rw [Int.floor_intCast_add]
  congr 1
  by_cases he : 0 ≤ e
  · obtain ⟨n, rfl⟩ := Int.eq_ofNat_of_zero_le he
    rw [pow2_natCast, zpow_natCast]
    exact_mod_cast Int.floor_intCast (R := ℚ) (2 ^ n)
  · have hlt : (2 : ℚ) ^ e < 1 := zpow_lt_one_of_neg₀ (by norm_num) (by omega)
    have hpos : (0 : ℚ) ≤ 2 ^ e := by positivity
    rw [pow2, if_neg he, Int.floor_eq_zero_iff]
    exact ⟨hpos, hlt⟩

theorem addPow_eq (c : Char) (e : Int) {sum : Int} (h0 : 0 ≤ sum)
    (hfit : (if c = '1' then sum + pow2 e else sum) < 2 ^ 31) :
    addPow c e sum = some (if c = '1' then sum + pow2 e else sum) := by
  have hpow := pow2_nonneg e
  unfold addPow
  split
  · rename_i hc
    rw [if_pos hc] at hfit
    have hx : (0 : ℚ) ≤ sum + 2 ^ e := by
      have : (0 : ℚ) ≤ sum := by exact_mod_cast h0
      positivity
    rw [truncate, if_pos hx, floor_add_pow, if_pos ⟨by omega, hfit⟩]
  · rfl

theorem le_add (c : Char) (e sum : Int) : sum ≤ if c = '1' then sum + pow2 e else sum := by
  have := pow2_nonneg e
  split <;> omega

theorem le_toIntLoop (bin : Int → Char) (size : Int) (n : Nat) (sum : Int) : sum ≤ toIntLoop bin size n sum := by
  induction n generalizing sum with
  | zero => exact le_rfl
  | succ n ih => exact (le_add (bin n) _ sum).trans (ih _)

/-- Where the last sum is an `int`, so is every sum before it. -/
theorem toIntRounds_eq (bin : Int → Char) (size : Int) (n : Nat) {sum : Int} (h0 : 0 ≤ sum)
    (hfit : toIntLoop bin size n sum < 2 ^ 31) : toIntRounds bin size n sum = some (toIntLoop bin size n sum) := by
  induction n generalizing sum with
  | zero => rfl
  | succ n ih =>
    have hle := le_add (bin n) (size - 1 - n - 1) sum
    rw [toIntLoop] at hfit ⊢
    rw [toIntRounds, addPow_eq _ _ h0 ((le_toIntLoop ..).trans_lt hfit)]
    exact ih (h0.trans hle) hfit

theorem le_rangeLoop (bin : Int → Char) (n : Nat) (i : Int) (counter : Nat) (sum : Int) :
    sum ≤ rangeLoop bin n i counter sum := by
  induction n generalizing i counter sum with
  | zero => exact le_rfl
  | succ n ih =>
    have hle := le_add (bin i) counter sum
    rw [pow2_natCast] at hle
    exact hle.trans (ih ..)

theorem rangeRounds_eq (bin : Int → Char) (n : Nat) (i : Int) (counter : Nat) {sum : Int} (h0 : 0 ≤ sum)
    (hfit : rangeLoop bin n i counter sum < 2 ^ 31) :
    rangeRounds bin n i counter sum = some (rangeLoop bin n i counter sum) := by
  induction n generalizing i counter sum with
  | zero => rfl
  | succ n ih =>
    have hle := le_add (bin i) counter sum
    have hadd := addPow_eq (bin i) counter h0
    rw [pow2_natCast] at hle hadd
    rw [rangeLoop] at hfit ⊢
    rw [rangeRounds, hadd ((le_rangeLoop ..).trans_lt hfit)]
    exact ih _ _ (h0.trans hle) hfit

theorem truncatedToInt_value (before : Int → Char) (s : List Char) {m : Nat} (hm : m ≤ s.length) (h31 : m ≤ 31) :
    truncatedToInt (charAt before s) (m + 1) = some (value (s.take m) : Int) := by
  have hvalue := toInt_value before s hm
  have hlt : value (s.take m) < 2 ^ 31 :=
    calc value (s.take m) < 2 ^ (s.take m).length := value_lt _
      _ ≤ 2 ^ 31 := Nat.pow_le_pow_right (by decide) (by simp; omega)
  rw [← hvalue]
  apply toIntRounds_eq _ _ _ le_rfl
  show binaryStringToInt (charAt before s) (m + 1) < 2 ^ 31
  rw [hvalue]
  exact_mod_cast hlt

theorem truncatedRangeToInt_value (before : Int → Char) {s : List Char} (hpos : 1 ≤ s.length) (h31 : s.length ≤ 31) :
    truncatedRangeToInt (charAt before s) s.length 0 ((s.length - 1 : Nat) : Int) = some (value s : Int) := by
  have hlt := value_lt s
  have hvalue := range_value before s 0 (s.length - 1) (by omega) (by omega)
  rw [pow_zero, Nat.div_one, Nat.sub_zero, Nat.sub_add_cancel hpos, Nat.mod_eq_of_lt hlt] at hvalue
  have hfit : value s < 2 ^ 31 := hlt.trans_le (Nat.pow_le_pow_right (by decide) h31)
  rw [← hvalue]
  apply rangeRounds_eq _ _ _ _ le_rfl
  show binaryStringRangeToInt (charAt before s) s.length (0 : Nat) ((s.length - 1 : Nat) : Int) < 2 ^ 31
  rw [hvalue]
  exact_mod_cast hfit

theorem strlen_bits {s : List Char} (h : ∀ c ∈ s, IsBit c) : strlen s = s.length := by
  have hall : ∀ c ∈ s, decide (c ≠ '\x00') = true := by
    intro c hc
    rcases h c hc with rfl | rfl <;> decide
  rw [strlen, List.takeWhile_eq_self_iff.mpr hall]

/-- The two decoders read the same number; with a smaller size the first reads that of the digits
    before the last it looks at. -/
theorem decoders_agree (before : Int → Char) {s : List Char} (hbits : ∀ c ∈ s, IsBit c)
    (hlen : 1 ≤ s.length ∧ s.length ≤ 31) :
    truncatedToInt (charAt before s) (s.length + 1) = some (value s : Int) ∧
      truncatedToInt (charAt before s) (s.length + 1) =
        truncatedRangeToInt (charAt before s) (strlen s) 0 (s.length - 1) ∧
      ∀ k : Nat, 1 ≤ k → k ≤ s.length →
        truncatedToInt (charAt before s) k = some (value (s.take (k - 1)) : Int) := by
  have hall := truncatedToInt_value before s le_rfl hlen.2
  have hrange := truncatedRangeToInt_value before hlen.1 hlen.2
  rw [List.take_length] at hall
  rw [Nat.cast_sub hlen.1, Nat.cast_one] at hrange
  refine ⟨hall, ?_, ?_⟩
  · rw [hall, strlen_bits hbits, hrange]
  · intro k hk1 hk2
    have h := truncatedToInt_value before s (m := k - 1) (by omega) (by omega)
    rwa [Nat.cast_sub hk1, Nat.cast_one, sub_add_cancel] at h

theorem decoders_agree_101 : truncatedToInt (charAt (fun _ => '0') ['1', '0', '1']) 4 = some 5 ∧
    truncatedToInt (charAt (fun _ => '0') ['1', '0', '1']) 3 = some 2 := by
  have hbits : ∀ c ∈ ['1', '0', '1'], IsBit c := by simp [IsBit]
  obtain ⟨hall, -, hsome⟩ := decoders_agree (fun _ => '0') hbits (by decide)
  exact ⟨hall, hsome 3 (by decide) (by decide)⟩

end CS5600.Cache.Binary
