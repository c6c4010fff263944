import Mathlib.Data.Nat.ModEq

set_option autoImplicit false

-- Unbounded counters seen through fixed-width words: a counter is stored as its residue, and
-- two counters that lie in one window shorter than the modulus are told apart by their words.
namespace Word

theorem of_nat_eq_iff (w a b : Nat) : BitVec.ofNat w a = BitVec.ofNat w b ↔ a % 2 ^ w = b % 2 ^ w := by
  rw [← BitVec.toNat_inj, BitVec.toNat_ofNat, BitVec.toNat_ofNat]

theorem of_nat_shift (w a : Nat) : BitVec.ofNat w a <<< 1 = BitVec.ofNat w (2 * a) := by
  apply BitVec.eq_of_toNat_eq
  simp [BitVec.toNat_shiftLeft, Nat.shiftLeft_eq, Nat.mul_comm]

theorem of_nat_or (w a b : Nat) : BitVec.ofNat w a ||| BitVec.ofNat w b = BitVec.ofNat w (a ||| b) := by
  apply BitVec.eq_of_toNat_eq
  simp only [BitVec.toNat_or, BitVec.toNat_ofNat, Nat.or_mod_two_pow]

-- The difference of two words as the distance of the counters, if it is small.
theorem sub_le_iff (w a b n : Nat) :
    (BitVec.ofNat w a - BitVec.ofNat w b).toNat ≤ n ↔ ∃ k, k ≤ n ∧ a % 2 ^ w = (b + k) % 2 ^ w := by
  have moved (k : Nat) : BitVec.ofNat w a - BitVec.ofNat w b = BitVec.ofNat w k ↔ a % 2 ^ w = (b + k) % 2 ^ w := by
    rw [BitVec.sub_eq_iff_eq_add, ← BitVec.ofNat_add, Nat.add_comm, of_nat_eq_iff]
  constructor
  · intro small
    refine ⟨_, small, (moved _).mp ?_⟩
    rw [BitVec.ofNat_toNat, BitVec.setWidth_eq]
  · rintro ⟨k, small, same⟩
    rw [(moved k).mpr same, BitVec.toNat_ofNat]
    exact Nat.le_trans (Nat.mod_le k _) small

theorem even_or_one (a : Nat) : 2 * a ||| 1 = 2 * a + 1 := by
  have digits := Nat.two_pow_add_eq_or_of_lt (b := 1) (i := 1) (by decide) a
  simpa using digits.symm

theorem odd_or_one (a : Nat) : (2 * a + 1) ||| 1 = 2 * a + 1 := by
  rw [← even_or_one, Nat.or_assoc, Nat.or_self]

theorem of_nat_tag (w a : Nat) : BitVec.ofNat w (2 * a) ||| 1 = BitVec.ofNat w (2 * a + 1) := by
  rw [← even_or_one]
  exact of_nat_or w (2 * a) 1

theorem of_nat_tagged (w a : Nat) : BitVec.ofNat w (2 * a + 1) ||| 1 = BitVec.ofNat w (2 * a + 1) := by
  have tagged := of_nat_or w (2 * a + 1) 1
  rwa [odd_or_one] at tagged

theorem double_mod_iff (m a b : Nat) : 2 * a % (2 * m) = 2 * b % (2 * m) ↔ a % m = b % m := by
  rw [Nat.mul_mod_mul_left, Nat.mul_mod_mul_left]
  omega

theorem odd_mod_iff (m a b : Nat) : (2 * a + 1) % (2 * m) = (2 * b + 1) % (2 * m) ↔ a % m = b % m := by
  rw [← double_mod_iff m a b]
  exact ⟨fun same => Nat.ModEq.add_right_cancel' 1 same, fun same => Nat.ModEq.add_right 1 same⟩

theorem even_ne_odd (m a b : Nat) : 2 * a % (2 * m) ≠ (2 * b + 1) % (2 * m) := by
  intro same
  have parity : 2 * a % 2 = (2 * b + 1) % 2 := Nat.ModEq.of_dvd (Dvd.intro m rfl) same
  omega

theorem window_unique (m a b : Nat) (same : a % m = b % m) (below : a < b + m) (above : b < a + m) : a = b := by
  rcases Nat.le_total a b with less | less
  · obtain ⟨k, difference⟩ := (Nat.modEq_iff_dvd' less).mp same
    cases k with
    | zero => omega
    | succ k => rw [Nat.mul_succ] at difference; omega
  · obtain ⟨k, difference⟩ := (Nat.modEq_iff_dvd' less).mp same.symm
    cases k with
    | zero => omega
    | succ k => rw [Nat.mul_succ] at difference; omega

-- A counter that has moved by less than the modulus has wrapped at most once.
theorem add_mod_cases (m a d : Nat) (small : d < m) :
    a % m ≤ (a + d) % m ∧ (a + d) % m = a % m + d ∨ (a + d) % m < a % m ∧ (a + d) % m + m = a % m + d := by
  have residue := Nat.mod_lt a (Nat.lt_of_le_of_lt (Nat.zero_le d) small)
  have sum : (a + d) % m = (a % m + d) % m := by rw [Nat.mod_add_mod]
  by_cases within : a % m + d < m
  · rw [sum, Nat.mod_eq_of_lt within]
    omega
  · have wrapped : (a % m + d) % m = a % m + d - m := by
      rw [Nat.mod_eq_sub_mod (by omega)]
      exact Nat.mod_eq_of_lt (by omega)
    rw [sum, wrapped]
    omega

theorem mod_of_dvd (m n a b : Nat) (divides : n ∣ m) (same : a % m = b % m) : a % n = b % n :=
  Nat.ModEq.of_dvd divides same

-- The least counter from `base` on whose residue is that of `r`.
def atLeast (m base r : Nat) : Nat := base + (r + (m - base % m)) % m

theorem at_least_lower (m base r : Nat) : base ≤ atLeast m base r := Nat.le_add_right _ _

theorem at_least_upper (m base r : Nat) (positive : 0 < m) : atLeast m base r < base + m :=
  Nat.add_lt_add_left (Nat.mod_lt _ positive) base

theorem at_least_mod (m base r : Nat) (positive : 0 < m) : atLeast m base r % m = r % m := by
  have small := Nat.mod_lt base positive
  have whole : base + (r + (m - base % m)) = r + m * (base / m + 1) := by
    have split := Nat.div_add_mod base m
    rw [Nat.mul_succ]
    omega
  rw [atLeast, Nat.add_mod_mod, whole, Nat.add_mul_mod_self_left]

theorem at_least_spec (m base r : Nat) (positive : 0 < m) :
    base ≤ atLeast m base r ∧ atLeast m base r < base + m ∧ atLeast m base r % m = r % m :=
  ⟨at_least_lower m base r, at_least_upper m base r positive, at_least_mod m base r positive⟩

end Word
