import LockfreeQueue.Branches
import LockfreeQueue.Construct

set_option autoImplicit false

namespace LockfreeQueue

-- The outcomes of all the comparisons of push, whatever the order in which they are made.
structure PushTests where
  fill : Bool
  advance : Bool
  full : Bool
deriving DecidableEq

structure PopTests where
  take : Bool
  advance : Bool
  empty : Bool
deriving DecidableEq

def PushTests.apart (tests : PushTests) : Bool :=
  !(tests.fill && tests.advance) && !(tests.fill && tests.full) && !(tests.advance && tests.full)

def PopTests.apart (tests : PopTests) : Bool :=
  !(tests.take && tests.advance) && !(tests.take && tests.empty) && !(tests.advance && tests.empty)

def PushTests.branch (tests : PushTests) : PushBranch :=
  if tests.fill then .fill else if tests.advance then .advance else if tests.full then .full else .retry

def PopTests.branch (tests : PopTests) : PopBranch :=
  if tests.take then .take else if tests.advance then .advance else if tests.empty then .empty else .retry

section

variable {w : Nat}

-- The comparisons one by one, for words and arrays of any size.
def fillTest (wrIndex seq : BitVec w) : Bool := seq == wrIndex <<< 1

def filledTest (wrIndex seq : BitVec w) : Bool := seq == (wrIndex <<< 1) ||| 1

def nextLapTest (size : Nat) (wrIndex seq : BitVec w) : Bool := seq == (wrIndex + BitVec.ofNat w size) <<< 1

def fullTest (size : Nat) (wrIndex seq : BitVec w) : Bool := seq + (BitVec.ofNat w size <<< 1) == (wrIndex <<< 1) ||| 1

def takeTest (rdIndex seq : BitVec w) : Bool := seq == (rdIndex <<< 1) ||| 1

def takenTest (size : Nat) (rdIndex seq : BitVec w) : Bool :=
  seq ||| (1 : BitVec w) == ((rdIndex + BitVec.ofNat w size) <<< 1) ||| (1 : BitVec w)

def emptyTest (rdIndex seq : BitVec w) : Bool := seq == rdIndex <<< 1

def pushTests (size : Nat) (wrIndex seq : BitVec w) : PushTests :=
  ⟨fillTest wrIndex seq, filledTest wrIndex seq || nextLapTest size wrIndex seq, fullTest size wrIndex seq⟩

def popTests (size : Nat) (rdIndex seq : BitVec w) : PopTests :=
  ⟨takeTest rdIndex seq, takenTest size rdIndex seq, emptyTest rdIndex seq⟩

-- A lap of half the modulus or more is lost by the shift.
theorem filled_test_full (size : Nat) (wrIndex seq : BitVec w) (lost : 2 ^ w ∣ 2 * size) :
    filledTest wrIndex seq = fullTest size wrIndex seq := by
  have nothing : BitVec.ofNat w size <<< 1 = 0 := by
    rw [Word.of_nat_shift]
    exact (Word.of_nat_eq_iff w (2 * size) 0).mpr (by rw [Nat.mod_eq_zero_of_dvd lost, Nat.zero_mod])
  rw [filledTest, fullTest, nothing]
  exact congrArg (· == _) (BitVec.add_zero seq).symm

end

section

variable (config : Config)

theorem push_branch_tests (wrIndex seq : Index config) :
    pushBranch config wrIndex seq = (pushTests config.size wrIndex seq).branch := by
  simp only [pushBranch, PushTests.branch, pushTests, fillTest, filledTest, nextLapTest, fullTest, Config.sizeWord,
    Bool.or_eq_true, beq_iff_eq]
  congr

theorem pop_branch_tests (rdIndex seq : Index config) :
    popBranch config rdIndex seq = (popTests config.size rdIndex seq).branch := by
  simp only [popBranch, PopTests.branch, popTests, takeTest, takenTest, emptyTest, Config.sizeWord, beq_iff_eq]
  congr

theorem push_tests_full (x k : Nat) : pushTests config.size (config.number x) (config.fullSeq k) =
    ⟨false, decide (config.fullSeq k = config.fullSeq x), decide (config.fullSeq (k + config.size) = config.fullSeq x)⟩ := by
  have ahead := full_seq_add config k
  rw [Config.sizeWord] at ahead
  simp only [pushTests, fillTest, filledTest, nextLapTest, fullTest, config.number_add, ahead, config.number_shift, config.empty_seq_tag]
  simp [(config.empty_ne_full _ _).symm, beq_eq_decide]

theorem push_tests_empty (x k : Nat) : pushTests config.size (config.number x) (config.emptySeq k) =
    ⟨decide (config.emptySeq k = config.emptySeq x), decide (config.emptySeq k = config.emptySeq (x + config.size)), false⟩ := by
  have ahead := empty_seq_add config k
  rw [Config.sizeWord] at ahead
  simp only [pushTests, fillTest, filledTest, nextLapTest, fullTest, config.number_add, ahead, config.number_shift, config.empty_seq_tag]
  simp [config.empty_ne_full, beq_eq_decide]

theorem pop_tests_full (x k : Nat) : popTests config.size (config.number x) (config.fullSeq k) =
    ⟨decide (config.fullSeq k = config.fullSeq x), decide (config.fullSeq k = config.fullSeq (x + config.size)), false⟩ := by
  simp only [popTests, takeTest, takenTest, emptyTest, config.number_add, config.number_shift, config.empty_seq_tag, config.full_seq_tag]
  simp [(config.empty_ne_full _ _).symm, beq_eq_decide]

theorem pop_tests_empty (x k : Nat) : popTests config.size (config.number x) (config.emptySeq k) =
    ⟨false, decide (config.fullSeq k = config.fullSeq (x + config.size)), decide (config.emptySeq k = config.emptySeq x)⟩ := by
  simp only [popTests, takeTest, takenTest, emptyTest, config.number_add, config.number_shift, config.empty_seq_tag]
  simp [config.empty_ne_full, beq_eq_decide]

theorem seq_cases (seq : Index config) : ∃ k, seq = config.emptySeq k ∨ seq = config.fullSeq k := by
  refine ⟨seq.toNat / 2, ?_⟩
  rw [Config.emptySeq, Config.fullSeq]
  rcases Nat.mod_two_eq_zero_or_one seq.toNat with even | odd
  · exact Or.inl (by rw [show 2 * (seq.toNat / 2) = seq.toNat by omega, config.number_toNat])
  · exact Or.inr (by rw [show 2 * (seq.toNat / 2) + 1 = seq.toNat by omega, config.number_toNat])

theorem full_seq_lap (k : Nat) : config.fullSeq (k + config.size) ≠ config.fullSeq k := by
  have fits := config.size_half
  have positive := config.size_positive
  rw [Ne, full_seq_window config _ k (by omega) (by omega)]
  omega

theorem empty_seq_lap (k : Nat) : config.emptySeq (k + config.size) ≠ config.emptySeq k := by
  have fits := config.size_half
  have positive := config.size_positive
  rw [Ne, empty_seq_window config _ k (by omega) (by omega)]
  omega

theorem push_tests_apart (wrIndex seq : Index config) : (pushTests config.size wrIndex seq).apart = true := by
  obtain ⟨k, rfl | rfl⟩ := seq_cases config seq <;> rw [← config.number_toNat wrIndex]
  · rw [push_tests_empty]
    by_cases same : config.emptySeq k = config.emptySeq wrIndex.toNat
    · simp [PushTests.apart, same, (empty_seq_lap config _).symm]
    · simp [PushTests.apart, same]
  · rw [push_tests_full]
    by_cases same : config.fullSeq k = config.fullSeq wrIndex.toNat
    · simp [PushTests.apart, ← same, full_seq_lap]
    · simp [PushTests.apart, same]

theorem pop_tests_apart (rdIndex seq : Index config) : (popTests config.size rdIndex seq).apart = true := by
  obtain ⟨k, rfl | rfl⟩ := seq_cases config seq <;> rw [← config.number_toNat rdIndex]
  · rw [pop_tests_empty]
    by_cases same : config.emptySeq k = config.emptySeq rdIndex.toNat
    · have numbers := (config.full_seq_iff _ _).mpr ((config.empty_seq_iff _ _).mp same)
      simp [PopTests.apart, numbers, (full_seq_lap config _).symm]
    · simp [PopTests.apart, same]
  · rw [pop_tests_full]
    by_cases same : config.fullSeq k = config.fullSeq rdIndex.toNat
    · simp [PopTests.apart, same, (full_seq_lap config _).symm]
    · simp [PopTests.apart, same]

theorem push_tests_full_window (x k : Nat) (lap : config.size ≤ x) (lower : x - config.size ≤ k)
    (upper : k < x - config.size + config.half) :
    pushTests config.size (config.number x) (config.fullSeq k) = ⟨false, decide (k = x), decide (k = x - config.size)⟩ := by
  have fits := config.size_half
  rw [push_tests_full]
  simp only [full_seq_window config k x (by omega) (by omega), full_seq_window config (k + config.size) x (by omega) (by omega),
    PushTests.mk.injEq, decide_eq_decide]
  refine ⟨trivial, trivial, ?_⟩
  omega

theorem push_tests_empty_window (x k : Nat) (lower : x ≤ k) (upper : k < x - config.size + config.half) :
    pushTests config.size (config.number x) (config.emptySeq k) =
      ⟨decide (k = x), decide (k = x + config.size), false⟩ := by
  have fits := config.size_half
  rw [push_tests_empty]
  simp only [empty_seq_window config k x (by omega) (by omega), empty_seq_window config k (x + config.size) (by omega) (by omega)]

theorem pop_tests_window (x k : Nat) (lower : x ≤ k) (upper : k < x + config.half) :
    popTests config.size (config.number x) (config.fullSeq k) = ⟨decide (k = x), decide (k = x + config.size), false⟩ ∧
      popTests config.size (config.number x) (config.emptySeq k) = ⟨false, decide (k = x + config.size), decide (k = x)⟩ := by
  have fits := config.size_half
  have lap := full_seq_window config k (x + config.size) (by omega) (by omega)
  rw [pop_tests_full, pop_tests_empty]
  simp only [lap, full_seq_window config k x (by omega) (by omega), empty_seq_window config k x (by omega) (by omega)]
  exact ⟨trivial, trivial⟩

end

-- The static assertion, at a power of two that its parameter holds.
theorem width_assert_iff (w log : Nat) (small : log < 32) : bitsForValue (BitVec.ofNat 32 (2 ^ log)) < w ↔ 4 * 2 ^ log ≤ 2 ^ w := by
  have value : (BitVec.ofNat 32 (2 ^ log)).toNat = 2 ^ log := by
    rw [BitVec.toNat_ofNat, Nat.mod_eq_of_lt (Nat.pow_lt_pow_right (by decide) small)]
  have laps : 4 * 2 ^ log = 2 ^ (log + 2) := by rw [Nat.pow_add]; omega
  rw [laps, Nat.pow_le_pow_iff_right (by decide)]
  cases w with
  | zero => omega
  | succ w =>
      rw [Nat.lt_succ_iff, bits_for_value_le, value, Nat.pow_lt_pow_iff_right (by decide)]
      omega

-- Four laps to a word are exactly what keeps the branches apart.
theorem apart_iff (w log : Nat) :
    (∀ wrIndex seq : BitVec w, (pushTests (2 ^ log) wrIndex seq).apart = true) ↔ 4 * 2 ^ log ≤ 2 ^ w := by
  constructor
  · intro apart
    refine Nat.not_lt.mp fun narrow => ?_
    have laps : 2 * 2 ^ log = 2 ^ (log + 1) := (Nat.pow_succ' ).symm
    have power : 4 * 2 ^ log = 2 ^ (log + 2) := by rw [Nat.pow_add]; omega
    rw [power, Nat.pow_lt_pow_iff_right (by decide)] at narrow
    have same := filled_test_full (2 ^ log) (0 : BitVec w) ((0 <<< 1) ||| 1) (by rw [laps]; exact Nat.pow_dvd_pow 2 (by omega))
    have filled : filledTest (0 : BitVec w) ((0 <<< 1) ||| 1) = true := beq_self_eq_true _
    have overlap := apart 0 ((0 <<< 1) ||| 1)
    rw [PushTests.apart, pushTests, ← same, filled] at overlap
    simp at overlap
  · intro wide
    exact push_tests_apart ⟨w, 2 ^ log, ⟨log, rfl⟩, wide, false, false⟩

theorem width_check_exact (w size : Nat) (power : ∃ log, size = 2 ^ log) :
    (4 * size ≤ 2 ^ w → ∀ x k, size ≤ x → k % size = x % size →
      (x - size ≤ k → k < x - size + 2 ^ (w - 1) →
        pushTests size (BitVec.ofNat w x) (BitVec.ofNat w (2 * k + 1)) = ⟨false, decide (k = x), decide (k = x - size)⟩ ∧
        (x ≤ k → pushTests size (BitVec.ofNat w x) (BitVec.ofNat w (2 * k)) = ⟨decide (k = x), decide (k = x + size), false⟩)) ∧
      (x ≤ k → k < x + 2 ^ (w - 1) →
        popTests size (BitVec.ofNat w x) (BitVec.ofNat w (2 * k + 1)) = ⟨decide (k = x), decide (k = x + size), false⟩ ∧
        popTests size (BitVec.ofNat w x) (BitVec.ofNat w (2 * k)) = ⟨false, decide (k = x + size), decide (k = x)⟩)) ∧
    (4 * size ≤ 2 ^ w → ∀ index seq : BitVec w, (pushTests size index seq).apart = true ∧ (popTests size index seq).apart = true) ∧
    (size = 2 ^ (w - 1) → ∀ wrIndex seq : BitVec w, filledTest wrIndex seq = fullTest size wrIndex seq) := by
  have parameters : 4 * size ≤ 2 ^ w → ∃ config : Config, config.bits = w ∧ config.size = size :=
    fun wide => ⟨⟨w, size, power, wide, false, false⟩, rfl, rfl⟩
  refine ⟨fun wide x k lap _ => ?_, fun wide index seq => ?_, fun half wrIndex seq => ?_⟩
  · obtain ⟨config, rfl, rfl⟩ := parameters wide
    refine ⟨fun lower upper => ⟨?_, fun above => ?_⟩, fun lower upper => ?_⟩
    · exact push_tests_full_window config x k lap lower upper
    · exact push_tests_empty_window config x k above upper
    · exact pop_tests_window config x k lower upper
  · obtain ⟨config, rfl, rfl⟩ := parameters wide
    exact ⟨push_tests_apart config index seq, pop_tests_apart config index seq⟩
  · refine filled_test_full size wrIndex seq ?_
    rw [half]
    cases w with
    | zero => exact Nat.one_dvd _
    | succ w => exact dvd_of_eq Nat.pow_succ'

-- The narrowest words for four slots, and words one bit too narrow for them.
theorem width_check_four :
    pushTests 4 (BitVec.ofNat 4 5) (BitVec.ofNat 4 (2 * 1 + 1)) = ⟨false, false, true⟩ ∧
      popTests 4 (BitVec.ofNat 4 5) (BitVec.ofNat 4 (2 * 9)) = ⟨false, true, false⟩ ∧
      filledTest (BitVec.ofNat 3 5) (BitVec.ofNat 3 3) = fullTest 4 (BitVec.ofNat 3 5) (BitVec.ofNat 3 3) := by
  have wide := (width_check_exact 4 4 ⟨2, rfl⟩).1 (by decide)
  refine ⟨?_, ?_, (width_check_exact 3 4 ⟨2, rfl⟩).2.2 (by decide) _ _⟩
  · exact ((wide 5 1 (by decide) (by decide)).1 (by decide) (by decide)).1
  · exact ((wide 5 9 (by decide) (by decide)).2 (by decide) (by decide)).2

end LockfreeQueue
