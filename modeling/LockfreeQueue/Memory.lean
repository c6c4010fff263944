import Mathlib.Data.Nat.Bitwise
import Mathlib.Logic.Function.Basic
import LockfreeQueue.Library.Word

set_option autoImplicit false

namespace LockfreeQueue

-- The template parameters of mpmc_queue with the size it was built for. `power` and `wide` are
-- what the static assertions and the constructor check: a power of two, four laps to a word.
structure Config where
  bits : Nat
  size : Nat
  power : ∃ log, size = 2 ^ log
  wide : 4 * size ≤ 2 ^ bits
  lazyPush : Bool
  lazyPop : Bool

-- index_type. The source mixes it with size_t and casts the result back to index_type; as
-- size_t is at least as wide, that is the arithmetic of the narrow word.
abbrev Index (config : Config) := BitVec config.bits

-- The sixteen (or eight) bytes of a slot: value_type with its bytes compared as they are, and
-- the sequence word. Padding is cleared by every constructor and never written.
structure Entry (config : Config) (Data : Type) where
  data : Data
  seq : Index config
deriving DecidableEq

structure Memory (config : Config) (Data : Type) where
  writeIndex : Index config
  readIndex : Index config
  array : Fin config.size → Entry config Data

namespace Config

theorem size_positive (config : Config) : 0 < config.size := by
  obtain ⟨log, size⟩ := config.power
  rw [size]
  exact Nat.two_pow_pos log

-- operator[] of both array types masks the index with the size less one.
def slot (config : Config) (index : Index config) : Fin config.size :=
  ⟨index.toNat &&& (config.size - 1),
    Nat.lt_of_le_of_lt Nat.and_le_right (Nat.sub_lt config.size_positive Nat.zero_lt_one)⟩

-- A sequence word spends one bit on the full flag, so it tells `half` operations apart.
def half (config : Config) : Nat := 2 ^ (config.bits - 1)

def number (config : Config) (operation : Nat) : Index config := BitVec.ofNat config.bits operation

def emptySeq (config : Config) (operation : Nat) : Index config := config.number (2 * operation)

def fullSeq (config : Config) (operation : Nat) : Index config := config.number (2 * operation + 1)

theorem bits_positive (config : Config) : 2 ≤ config.bits := by
  have size := config.size_positive
  have wide := config.wide
  rcases lt_or_ge config.bits 2 with small | large
  · have bound : 2 ^ config.bits ≤ 2 ^ 1 := Nat.pow_le_pow_right (by decide) (by omega)
    omega
  · exact large

theorem modulus_half (config : Config) : 2 ^ config.bits = 2 * config.half := by
  have positive := config.bits_positive
  have bits : (config.bits - 1).succ = config.bits := by omega
  rw [half, ← Nat.pow_succ', bits]

theorem size_half (config : Config) : 2 * config.size ≤ config.half := by
  have wide := config.wide
  rw [config.modulus_half] at wide
  omega

theorem half_positive (config : Config) : 0 < config.half := Nat.two_pow_pos _

theorem size_dvd_half (config : Config) : config.size ∣ config.half := by
  obtain ⟨log, size⟩ := config.power
  have fits := config.size_half
  have less : config.size ≤ config.half := by omega
  rw [size, half] at less ⊢
  exact Nat.pow_dvd_pow 2 ((Nat.pow_le_pow_iff_right (by decide)).mp less)

theorem number_eq_iff (config : Config) (a b : Nat) :
    config.number a = config.number b ↔ a % (2 * config.half) = b % (2 * config.half) := by
  rw [number, number, Word.of_nat_eq_iff, config.modulus_half]

theorem number_injective (config : Config) (a b : Nat) (same : config.number a = config.number b)
    (lower : b ≤ a) (upper : a < b + 2 * config.half) : a = b :=
  Word.window_unique _ a b ((config.number_eq_iff a b).mp same) upper (by have := config.half_positive; omega)

theorem empty_seq_iff (config : Config) (a b : Nat) :
    config.emptySeq a = config.emptySeq b ↔ a % config.half = b % config.half := by
  rw [emptySeq, emptySeq, config.number_eq_iff, Word.double_mod_iff]

theorem full_seq_iff (config : Config) (a b : Nat) :
    config.fullSeq a = config.fullSeq b ↔ a % config.half = b % config.half := by
  rw [fullSeq, fullSeq, config.number_eq_iff, Word.odd_mod_iff]

theorem empty_ne_full (config : Config) (a b : Nat) : config.emptySeq a ≠ config.fullSeq b := by
  rw [emptySeq, fullSeq, Ne, config.number_eq_iff]
  exact Word.even_ne_odd config.half a b

theorem number_toNat (config : Config) (index : Index config) : config.number index.toNat = index := by
  rw [number, BitVec.ofNat_toNat, BitVec.setWidth_eq]

theorem number_succ (config : Config) (a : Nat) : config.number a + 1 = config.number (a + 1) := by
  rw [number, number, BitVec.ofNat_add]
  rfl

theorem number_add (config : Config) (a b : Nat) :
    config.number a + BitVec.ofNat config.bits b = config.number (a + b) := by
  rw [number, number, BitVec.ofNat_add]

theorem number_low_iff (config : Config) (a : Nat) :
    (config.number a).msb = false ↔ a % (2 * config.half) < config.half := by
  rw [number, BitVec.msb_eq_false_iff_two_mul_lt, BitVec.toNat_ofNat, config.modulus_half]
  omega

theorem number_shift (config : Config) (a : Nat) : config.number a <<< 1 = config.emptySeq a := by
  rw [number, emptySeq, number, Word.of_nat_shift]

theorem empty_seq_tag (config : Config) (a : Nat) : config.emptySeq a ||| 1 = config.fullSeq a := by
  rw [emptySeq, fullSeq, number, number, Word.of_nat_tag]

theorem full_seq_tag (config : Config) (a : Nat) : config.fullSeq a ||| 1 = config.fullSeq a := by
  rw [fullSeq, number, Word.of_nat_tagged]

theorem slot_number (config : Config) (a : Nat) : (config.slot (config.number a)).val = a % config.size := by
  obtain ⟨log, size⟩ := config.power
  have wide := config.wide
  have fits : log ≤ config.bits := by
    rw [size] at wide
    exact (Nat.pow_le_pow_iff_right (by decide : 1 < 2)).mp (by omega)
  rw [slot, number]
  simp only [BitVec.toNat_ofNat, size]
  rw [Nat.and_two_pow_sub_one_eq_mod, Nat.mod_mod_of_dvd _ (Nat.pow_dvd_pow 2 fits)]

theorem slot_number_iff (config : Config) (a b : Nat) :
    config.slot (config.number a) = config.slot (config.number b) ↔ a % config.size = b % config.size := by
  rw [← Fin.val_inj, config.slot_number, config.slot_number]

end Config

-- Two slots and 32 bit indices, neither push nor pop lazy.
def smallQueue : Config := ⟨32, 2, ⟨1, rfl⟩, by decide, false, false⟩

namespace Memory

section

variable {config : Config} {Data : Type}

def entry (memory : Memory config Data) (index : Index config) : Entry config Data :=
  memory.array (config.slot index)

def setEntry (memory : Memory config Data) (index : Index config) (value : Entry config Data) : Memory config Data :=
  { memory with array := Function.update memory.array (config.slot index) value }

-- entry::compare_exchange: one atomic step over the whole slot.
def compareExchange [DecidableEq Data] (memory : Memory config Data) (index : Index config)
    (expected desired : Entry config Data) : Memory config Data × Bool :=
  if memory.entry index = expected then (memory.setEntry index desired, true) else (memory, false)

def compareExchangeWrite (memory : Memory config Data) (expected desired : Index config) : Memory config Data × Bool :=
  if memory.writeIndex = expected then ({ memory with writeIndex := desired }, true) else (memory, false)

def compareExchangeRead (memory : Memory config Data) (expected desired : Index config) : Memory config Data × Bool :=
  if memory.readIndex = expected then ({ memory with readIndex := desired }, true) else (memory, false)

-- What the constructor leaves: every slot empty for the first lap, both indices zero.
def initial (config : Config) (Data : Type) [Zero Data] : Memory config Data :=
  ⟨0, 0, fun i => ⟨0, BitVec.ofNat config.bits i.val <<< 1⟩⟩

theorem entry_set_same (memory : Memory config Data) (index : Index config) (value : Entry config Data) :
    (memory.setEntry index value).entry index = value := by
  simp [entry, setEntry]

theorem entry_set_other (memory : Memory config Data) (index other : Index config) (value : Entry config Data)
    (different : config.slot other ≠ config.slot index) :
    (memory.setEntry index value).entry other = memory.entry other := by
  simp [entry, setEntry, different]

@[simp] theorem set_entry_write (memory : Memory config Data) (index : Index config) (value : Entry config Data) :
    (memory.setEntry index value).writeIndex = memory.writeIndex := rfl

@[simp] theorem set_entry_read (memory : Memory config Data) (index : Index config) (value : Entry config Data) :
    (memory.setEntry index value).readIndex = memory.readIndex := rfl

end

end Memory

end LockfreeQueue
