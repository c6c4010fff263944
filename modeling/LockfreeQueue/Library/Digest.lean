import Mathlib.Data.BitVec
import Mathlib.Data.List.Basic
import Mathlib.Logic.Function.Basic
import Mathlib.Tactic.Ring

set_option autoImplicit false

-- Running digests: inputs folded into a state, long inputs cut into blocks of one size, and a mixing
-- step on words that loses nothing.
namespace Digest

section

variable {S A : Type}

theorem foldl_injective (step : S → A → S) (keeps : ∀ input, Function.Injective fun state => step state input) (inputs : List A) :
    Function.Injective fun state => inputs.foldl step state := by
  induction inputs with
  | nil => exact fun _ _ same => same
  | cons input rest ih => exact fun left right same => keeps input (ih same)

-- The input cut after every `size` places; the last block may be short.
def blocks (size : Nat) (input : List A) : List (List A) :=
  (List.range ((input.length + size - 1) / size)).map fun place => (input.drop (size * place)).take size

theorem blocks_length (size : Nat) (input : List A) : (blocks size input).length = (input.length + size - 1) / size := by
  rw [blocks, List.length_map, List.length_range]

theorem blocks_nil (size : Nat) (positive : 0 < size) : blocks size ([] : List A) = [] := by
  rw [blocks, List.length_nil, Nat.div_eq_of_lt (by omega), List.range_zero, List.map_nil]

theorem blocks_last (size : Nat) (input : List A) (filled : 0 < input.length) (short : input.length ≤ size) :
    blocks size input = [input] := by
  have single : (input.length + size - 1) / size = 1 := by
    rw [show input.length + size - 1 = (input.length - 1) + size by omega, Nat.add_div_right _ (by omega),
      Nat.div_eq_of_lt (by omega)]
  rw [blocks, single, List.range_one, List.map_singleton, Nat.mul_zero, List.drop_zero, List.take_of_length_le short]

theorem blocks_cons (size : Nat) (input : List A) (positive : 0 < size) (long : size < input.length) :
    blocks size input = input.take size :: blocks size (input.drop size) := by
  have further : (input.length + size - 1) / size = ((input.drop size).length + size - 1) / size + 1 := by
    rw [List.length_drop, show input.length + size - 1 = (input.length - size + size - 1) + size by omega,
      Nat.add_div_right _ positive]
  rw [blocks, further, List.range_succ_eq_map, List.map_cons, List.map_map, Nat.mul_zero, List.drop_zero, blocks]
  congr 1
  refine List.map_congr_left fun place _ => ?_
  rw [Function.comp_apply, List.drop_drop, Nat.mul_succ, Nat.add_comm]

-- A cut at a multiple of the size leaves no trace.
theorem blocks_append (size : Nat) (first second : List A) (positive : 0 < size) (whole : first.length % size = 0)
    (filled : 0 < second.length) : blocks size (first ++ second) = blocks size first ++ blocks size second := by
  obtain ⟨count, length⟩ := Nat.dvd_of_mod_eq_zero whole
  induction count generalizing first with
  | zero =>
      obtain rfl := List.eq_nil_of_length_eq_zero (length.trans (Nat.mul_zero size))
      rw [List.nil_append, blocks_nil size positive, List.nil_append]
  | succ count ih =>
      rw [Nat.mul_succ] at length
      have rest : (first.drop size).length = size * count := by rw [List.length_drop]; omega
      rw [blocks_cons size (first ++ second) positive (by rw [List.length_append]; omega),
        List.take_append_of_le_length (by omega), List.drop_append_of_le_length (by omega)]
      by_cases short : first.length ≤ size
      · rw [blocks_last size first (by omega) short, List.take_of_length_le short, List.drop_eq_nil_of_le short]
        rfl
      · rw [blocks_cons size first positive (by omega), List.cons_append,
          ih (first.drop size) (by rw [rest, Nat.mul_mod_right]) rest]

end

section

variable {w : Nat}

theorem odd_mul_cancel (x factor : BitVec w) (odd : (2 * factor + 1) * x = 0) : x = 0 := by
  have zero : (2 * factor.toNat + 1) * x.toNat % 2 ^ w = 0 := by
    have value := congrArg BitVec.toNat odd
    simpa [BitVec.toNat_mul, BitVec.toNat_add, Nat.mul_mod, Nat.add_mod] using value
  have coprime : Nat.Coprime (2 ^ w) (2 * factor.toNat + 1) := by
    refine Nat.Coprime.pow_left w ?_
    rw [Nat.coprime_mul_left_add_right]
    exact Nat.coprime_one_right 2
  have divides := coprime.dvd_of_dvd_mul_left (Nat.dvd_of_mod_eq_zero zero)
  apply BitVec.eq_of_toNat_eq
  rw [Nat.eq_zero_of_dvd_of_lt divides x.isLt]
  rfl

-- The difference of two values is the difference of the arguments times an odd word.
theorem mix_injective (shift slope constant : BitVec w) :
    Function.Injective fun x : BitVec w => (x + shift) * (2 * slope * x + (2 * constant + 1)) := by
  intro x y same
  have factored : (2 * (slope * (x + y) + slope * shift + constant) + 1) * (x - y) = 0 := by
    calc (2 * (slope * (x + y) + slope * shift + constant) + 1) * (x - y)
        = (x + shift) * (2 * slope * x + (2 * constant + 1)) - (y + shift) * (2 * slope * y + (2 * constant + 1)) := by ring
      _ = 0 := sub_eq_zero.mpr same
  exact sub_eq_zero.mp (odd_mul_cancel (x - y) _ factored)

end

end Digest
