import LockfreeQueue.Memory

set_option autoImplicit false

namespace LockfreeQueue

-- What one look at a slot tells a thread. `retry` is falling through every test of the chain.
inductive PushBranch where
  | fill
  | advance
  | full
  | retry
deriving DecidableEq, Repr

inductive PopBranch where
  | take
  | advance
  | empty
  | retry
deriving DecidableEq, Repr

def Config.sizeWord (config : Config) : Index config := BitVec.ofNat config.bits config.size

-- The if/else chain of push, in the order of the source.
def pushBranch (config : Config) (wrIndex seq : Index config) : PushBranch :=
  if seq = wrIndex <<< 1 then .fill
  else if seq = (wrIndex <<< 1) ||| 1 ∨ seq = (wrIndex + config.sizeWord) <<< 1 then .advance
  else if seq + (config.sizeWord <<< 1) = (wrIndex <<< 1) ||| 1 then .full
  else .retry

def popBranch (config : Config) (rdIndex seq : Index config) : PopBranch :=
  if seq = (rdIndex <<< 1) ||| 1 then .take
  else if seq ||| (1 : Index config) = ((rdIndex + config.sizeWord) <<< 1) ||| (1 : Index config) then .advance
  else if seq = rdIndex <<< 1 then .empty
  else .retry

-- peek and pop_if test for an empty queue first, and look for the next lap by shifting the
-- sequence right where pop shifts the index left.
def peekBranch (config : Config) (rdIndex seq : Index config) : PopBranch :=
  if seq = rdIndex <<< 1 then .empty
  else if seq = (rdIndex <<< 1) ||| 1 then .take
  else if seq >>> 1 = rdIndex + config.sizeWord then .advance
  else .retry

theorem number_add_size (config : Config) (x : Nat) :
    config.number x + config.sizeWord = config.number (x + config.size) :=
  config.number_add x config.size

theorem full_seq_add (config : Config) (k : Nat) :
    config.fullSeq k + (config.sizeWord <<< 1) = config.fullSeq (k + config.size) := by
  have shifted : config.sizeWord <<< 1 = BitVec.ofNat config.bits (2 * config.size) := Word.of_nat_shift _ _
  rw [shifted, Config.fullSeq, config.number_add, Config.fullSeq, Nat.mul_add, Nat.add_right_comm]

theorem empty_seq_add (config : Config) (k : Nat) :
    config.emptySeq k + (config.sizeWord <<< 1) = config.emptySeq (k + config.size) := by
  have shifted : config.sizeWord <<< 1 = BitVec.ofNat config.bits (2 * config.size) := Word.of_nat_shift _ _
  rw [shifted, Config.emptySeq, config.number_add, Config.emptySeq, Nat.mul_add]

theorem empty_seq_window (config : Config) (a b : Nat) (below : a < b + config.half) (above : b < a + config.half) :
    config.emptySeq a = config.emptySeq b ↔ a = b := by
  rw [config.empty_seq_iff]
  exact ⟨fun same => Word.window_unique config.half a b same below above, fun same => by rw [same]⟩

theorem full_seq_window (config : Config) (a b : Nat) (below : a < b + config.half) (above : b < a + config.half) :
    config.fullSeq a = config.fullSeq b ↔ a = b := by
  rw [config.full_seq_iff]
  exact ⟨fun same => Word.window_unique config.half a b same below above, fun same => by rw [same]⟩

-- Seen through a local index x, an empty slot of a number in the window from x on is decided:
-- its number is x, or x plus one lap, or the chain falls through.
theorem push_branch_empty (config : Config) (x k : Nat) (lower : x ≤ k) (upper : k < x + config.half) :
    pushBranch config (config.number x) (config.emptySeq k) =
      if k = x then .fill else if k = x + config.size then .advance else .retry := by
  have fits := config.size_half
  have positive := config.size_positive
  have here := empty_seq_window config k x (by omega) (by omega)
  have lap := empty_seq_window config k (x + config.size) (by omega) (by omega)
  simp only [pushBranch, config.number_shift, number_add_size, config.empty_seq_tag, empty_seq_add,
    here, lap, config.empty_ne_full, false_or, if_false]

theorem push_branch_full (config : Config) (x k : Nat) (lower : x ≤ k + config.size)
    (upper : k + config.size < x + config.half) :
    pushBranch config (config.number x) (config.fullSeq k) =
      if k = x then .advance else if k + config.size = x then .full else .retry := by
  have fits := config.size_half
  have positive := config.size_positive
  have here := full_seq_window config k x (by omega) (by omega)
  have lap := full_seq_window config (k + config.size) x (by omega) (by omega)
  simp only [pushBranch, config.number_shift, number_add_size, config.empty_seq_tag, full_seq_add,
    here, lap, (config.empty_ne_full _ _).symm, or_false, if_false]

theorem pop_branch_empty (config : Config) (x k : Nat) (lower : x ≤ k) (upper : k < x + config.half) :
    popBranch config (config.number x) (config.emptySeq k) =
      if k = x + config.size then .advance else if k = x then .empty else .retry := by
  have fits := config.size_half
  have positive := config.size_positive
  have here := empty_seq_window config k x (by omega) (by omega)
  have lap := full_seq_window config k (x + config.size) (by omega) (by omega)
  simp only [popBranch, config.number_shift, number_add_size, config.empty_seq_tag, here, lap,
    config.empty_ne_full, if_false]

theorem pop_branch_full (config : Config) (x k : Nat) (lower : x ≤ k) (upper : k < x + config.half) :
    popBranch config (config.number x) (config.fullSeq k) =
      if k = x then .take else if k = x + config.size then .advance else .retry := by
  have fits := config.size_half
  have positive := config.size_positive
  have here := full_seq_window config k x (by omega) (by omega)
  have lap := full_seq_window config k (x + config.size) (by omega) (by omega)
  simp only [popBranch, config.number_shift, number_add_size, config.empty_seq_tag, config.full_seq_tag,
    here, lap, (config.empty_ne_full _ _).symm, if_false]

theorem empty_seq_untag (config : Config) (k : Nat) : config.emptySeq k >>> 1 = config.number (k % config.half) := by
  apply BitVec.eq_of_toNat_eq
  have small := Nat.mod_lt k config.half_positive
  have whole : k % config.half % (2 * config.half) = k % config.half := Nat.mod_eq_of_lt (by omega)
  rw [Config.emptySeq, Config.number, Config.number, BitVec.toNat_ushiftRight, BitVec.toNat_ofNat, BitVec.toNat_ofNat,
    config.modulus_half, Nat.mul_mod_mul_left, Nat.shiftRight_eq_div_pow, whole]
  omega

theorem full_seq_untag (config : Config) (k : Nat) : config.fullSeq k >>> 1 = config.number (k % config.half) := by
  apply BitVec.eq_of_toNat_eq
  have small := Nat.mod_lt k config.half_positive
  have whole : k % config.half % (2 * config.half) = k % config.half := Nat.mod_eq_of_lt (by omega)
  have digits : (2 * k + 1) % (2 * config.half) = 2 * (k % config.half) + 1 := by
    have same : (2 * k + 1) % (2 * config.half) = (2 * (k % config.half) + 1) % (2 * config.half) := by
      rw [Word.odd_mod_iff, Nat.mod_mod]
    rw [same, Nat.mod_eq_of_lt (by omega)]
  rw [Config.fullSeq, Config.number, Config.number, BitVec.toNat_ushiftRight, BitVec.toNat_ofNat, BitVec.toNat_ofNat,
    config.modulus_half, digits, Nat.shiftRight_eq_div_pow, whole]
  omega

-- The shifted test compares the residue of the slot's number with the whole index. It never
-- accepts anything but the next lap, and it accepts that while the index has its top bit clear.
theorem shifted_lap (config : Config) (x k : Nat) (lower : x ≤ k) (upper : k < x + config.half)
    (same : config.number (k % config.half) = config.number (x + config.size)) : k = x + config.size := by
  have fits := config.size_half
  have positive := config.size_positive
  have residue := Word.mod_of_dvd _ config.half _ _ (Nat.dvd_mul_left config.half 2) ((config.number_eq_iff _ _).mp same)
  rw [Nat.mod_mod] at residue
  exact Word.window_unique config.half k _ residue (by omega) (by omega)

theorem shifted_lap_iff (config : Config) (x : Nat) :
    config.number (x % config.half) = config.number x ↔ (config.number x).msb = false := by
  have small := Nat.mod_lt x config.half_positive
  have split : x % (config.half * 2) = x % config.half + config.half * (x / config.half % 2) := Nat.mod_mul
  rw [Nat.mul_comm config.half 2] at split
  have whole : x % config.half % (2 * config.half) = x % config.half := Nat.mod_eq_of_lt (by omega)
  rw [config.number_eq_iff, config.number_low_iff, whole]
  rcases Nat.mod_two_eq_zero_or_one (x / config.half) with even | odd
  · rw [even] at split
    omega
  · rw [odd] at split
    omega

theorem peek_branch_empty (config : Config) (x k : Nat) (lower : x ≤ k) (upper : k < x + config.half) :
    peekBranch config (config.number x) (config.emptySeq k) =
      if k = x then .empty
      else if config.number (k % config.half) = config.number (x + config.size) then .advance else .retry := by
  have here := empty_seq_window config k x (by omega) (by omega)
  simp only [peekBranch, config.number_shift, number_add_size, config.empty_seq_tag, here, empty_seq_untag,
    config.empty_ne_full, if_false]

theorem peek_branch_full (config : Config) (x k : Nat) (lower : x ≤ k) (upper : k < x + config.half) :
    peekBranch config (config.number x) (config.fullSeq k) =
      if k = x then .take
      else if config.number (k % config.half) = config.number (x + config.size) then .advance else .retry := by
  have here := full_seq_window config k x (by omega) (by omega)
  simp only [peekBranch, config.number_shift, number_add_size, config.empty_seq_tag, here, full_seq_untag,
    (config.empty_ne_full _ _).symm, if_false]

theorem peek_branch_empty_iff (config : Config) (rdIndex seq : Index config) : peekBranch config rdIndex seq = .empty ↔ seq = rdIndex <<< 1 := by
  rw [peekBranch]
  by_cases same : seq = rdIndex <<< 1
  · rw [if_pos same]
    exact ⟨fun _ => same, fun _ => rfl⟩
  · rw [if_neg same]
    constructor
    · intro decided
      split at decided
      · cases decided
      · split at decided <;> cases decided
    · exact fun equal => absurd equal same

end LockfreeQueue
