/-
  CS5600.Lib.Packed — arrays of words and of bits in the bytes of a memory.

  `storeWords m w a n f` writes the `n` words `f 0`, `f 1`, … of `w` bytes each at `a`; word `i` is read back
  (`load_storeWords`), the bytes behind and before the array stay (`storeWords_agree`). Bit `i` of a memory is
  bit `i % 8` of byte `i / 8` (`bit`); setting and clearing one leaves the others (`bit_setBit`, `bit_clearBit`).
-/

import CS5600.Lib.Bytes

namespace CS5600.Lib.Packed

open CS5600.Lib.Bytes

/-! ## Words -/

def storeWords (m : Mem) (w a n : Nat) (f : Nat → Nat) : Mem :=
  fun x => if a ≤ x ∧ x < a + w * n then UInt8.ofNat (f ((x - a) / w) / 256 ^ ((x - a) % w)) else m x

theorem storeWords_agree (m : Mem) {w a n b k : Nat} (f : Nat → Nat) (h : Apart a (w * n) b k) :
    Agree (storeWords m w a n f) m b k := by
  intro x h1 h2
  have : ¬ (a ≤ x ∧ x < a + w * n) := by rcases h with h | h <;> omega
  simp [storeWords, this]

theorem load_storeWords (m : Mem) {w n i : Nat} (a : Nat) (f : Nat → Nat) (hi : i < n) :
    load (storeWords m w a n f) w (a + w * i) = f i % 256 ^ w := by
  apply load_spell
  intro j hj
  have hin : a + w * i + j < a + w * n := by
    have := Nat.mul_le_mul_left w (show i + 1 ≤ n from hi)
    rw [Nat.mul_add] at this
    omega
  have hsub : a + w * i + j - a = w * i + j := by omega
  simp only [storeWords]
  rw [if_pos ⟨by omega, hin⟩, hsub, Nat.mul_add_div (by omega), Nat.div_eq_of_lt hj, Nat.add_zero, Nat.mul_add_mod,
    Nat.mod_eq_of_lt hj]

/-! ## Bits -/

def bit (m : Mem) (i : Nat) : Bool := (m (i / 8)).toNat &&& (1 <<< (i % 8)) ≠ 0

def setBit (m : Mem) (i : Nat) : Mem :=
  Function.update m (i / 8) (UInt8.ofNat ((m (i / 8)).toNat ||| 1 <<< (i % 8)))

def clearBit (m : Mem) (i : Nat) : Mem :=
  Function.update m (i / 8) (UInt8.ofNat ((m (i / 8)).toNat &&& (255 ^^^ 1 <<< (i % 8))))

theorem bit_eq_testBit (m : Mem) (i : Nat) : bit m i = (m (i / 8)).toNat.testBit (i % 8) := by
  rw [bit, Nat.one_shiftLeft, Nat.and_two_pow]
  cases (m (i / 8)).toNat.testBit (i % 8) <;> simp

theorem toNat_ofNat_testBit {x j : Nat} (hj : j < 8) : (UInt8.ofNat x).toNat.testBit j = x.testBit j := by
  rw [UInt8.toNat_ofNat', Nat.testBit_mod_two_pow]
  simp [hj]

theorem eq_iff_div_mod (i j : Nat) : i = j ↔ i / 8 = j / 8 ∧ i % 8 = j % 8 := by omega

theorem bit_setBit (m : Mem) (i j : Nat) : bit (setBit m i) j = (bit m j || decide (i = j)) := by
  have hj : j % 8 < 8 := Nat.mod_lt _ (by decide)
  rw [bit_eq_testBit, bit_eq_testBit, setBit, Function.update_apply]
  by_cases e : j / 8 = i / 8
  · rw [if_pos e, toNat_ofNat_testBit hj, Nat.testBit_or, Nat.one_shiftLeft, Nat.testBit_two_pow, e]
    congr 1
    rw [decide_eq_decide, eq_iff_div_mod i j]
    omega
  · rw [if_neg e]
    have : i ≠ j := fun h => e (by rw [h])
    simp [this]

theorem bit_clearBit (m : Mem) (i j : Nat) : bit (clearBit m i) j = (bit m j && decide (i ≠ j)) := by
  have hj : j % 8 < 8 := Nat.mod_lt _ (by decide)
  rw [bit_eq_testBit, bit_eq_testBit, clearBit, Function.update_apply]
  by_cases e : j / 8 = i / 8
  · have hones : Nat.testBit 255 (j % 8) = true := by
      rw [show 255 = 2 ^ 8 - 1 from rfl, Nat.testBit_two_pow_sub_one]
      exact decide_eq_true hj
    rw [if_pos e, toNat_ofNat_testBit hj, Nat.testBit_and, Nat.testBit_xor, hones, Nat.one_shiftLeft,
      Nat.testBit_two_pow, e, Bool.true_xor, ← decide_not]
    congr 1
    rw [decide_eq_decide, ne_eq, eq_iff_div_mod i j]
    omega
  · rw [if_neg e]
    have : i ≠ j := fun h => e (by rw [h])
    simp [this]

end CS5600.Lib.Packed
