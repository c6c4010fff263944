import Mathlib.Data.BitVec
import LockfreeQueue.Library.Bytes
import LockfreeQueue.Construct
import LockfreeQueue.Represents

set_option autoImplicit false

namespace LockfreeQueue

open Bytes

-- Rounding up to an alignment, as sizeof and the offsets of members do.
def roundUp (size alignment : Nat) : Nat := (size + (alignment - 1)) / alignment * alignment

-- sizeof(helper_entry): the sequence is aligned to its size behind the data, and the whole to 8.
def seqPlace (dataSize indexBytes : Nat) : Nat := roundUp dataSize indexBytes

def entryBytes (dataSize indexBytes : Nat) : Nat := roundUp (seqPlace dataSize indexBytes + indexBytes) 8

-- mpmc_queue<DataT, N, IndexT, lazy_push, lazy_pop> with N > 0: what the static assertions let
-- through. unit_value, and with it the entry, exists for 8 and 16 bytes only, which leaves no
-- data aligned to more than 8.
structure Instantiation where
  dataSize : Nat
  indexBytes : Nat
  N : Nat
  lazyPush : Bool
  lazyPop : Bool
  filled : 0 < dataSize
  indexWidth : indexBytes = 4 ∨ indexBytes = 8
  unitValue : entryBytes dataSize indexBytes = 8 ∨ entryBytes dataSize indexBytes = 16
  power : ∃ log, N = 2 ^ log
  unsigned : N < 2 ^ 32
  wideEnough : bitsForValue (BitVec.ofNat 32 N) < 8 * indexBytes

namespace Instantiation

section

variable (q : Instantiation)

theorem laps : 4 * q.N ≤ 2 ^ (8 * q.indexBytes) := by
  obtain ⟨log, power⟩ := q.power
  have small := q.unsigned
  have width := q.indexWidth
  have wide := q.wideEnough
  have count := bits_for_value_le (BitVec.ofNat 32 q.N) log
  rw [BitVec.toNat_ofNat, Nat.mod_eq_of_lt small] at count
  have more : ¬ bitsForValue (BitVec.ofNat 32 q.N) ≤ log := fun few => absurd power (Nat.ne_of_lt (count.mp few))
  have fits : log + 2 ≤ 8 * q.indexBytes := by omega
  have grown := Nat.pow_le_pow_right (show 0 < 2 by decide) fits
  rw [Nat.pow_add] at grown
  omega

def config : Config := ⟨8 * q.indexBytes, q.N, q.power, q.laps, q.lazyPush, q.lazyPop⟩

-- value_type is trivial: its bytes are its value.
abbrev Data : Type := BitVec (8 * q.dataSize)

def seqOffset : Nat := seqPlace q.dataSize q.indexBytes

def entrySize : Nat := entryBytes q.dataSize q.indexBytes

-- The members are aligned to two cache lines, and so is each entry of the array.
def readIndexOffset : Nat := roundUp q.indexBytes 128

def arrayOffset : Nat := roundUp (q.readIndexOffset + q.indexBytes) 128

def stride : Nat := roundUp q.entrySize 128

def slotOffset (slot : Nat) : Nat := q.arrayOffset + q.stride * slot

-- sizeof(Q).
def size : Nat := roundUp (q.arrayOffset + q.stride * q.N) 128

def index (store : Nat → Byte) (place : Nat) : Index q.config := BitVec.ofNat _ (join (slice store place q.indexBytes))

-- The queue that a process sees in the bytes from `base` on.
def decode (store : Nat → Byte) (base : Nat) : Memory q.config q.Data where
  writeIndex := q.index store base
  readIndex := q.index store (base + q.readIndexOffset)
  array := fun slot =>
    ⟨BitVec.ofNat _ (join (slice store (base + q.slotOffset slot) q.dataSize)), q.index store (base + q.slotOffset slot + q.seqOffset)⟩

theorem read_index_offset : q.readIndexOffset = 128 := by
  rw [readIndexOffset, roundUp]
  rcases q.indexWidth with width | width <;> rw [width]

theorem array_offset : q.arrayOffset = 256 := by
  rw [arrayOffset, read_index_offset, roundUp]
  rcases q.indexWidth with width | width <;> rw [width]

theorem stride_bytes : q.stride = 128 := by
  rw [stride, entrySize, roundUp]
  rcases q.unitValue with small | large
  · rw [small]
  · rw [large]

-- The alignment hides everything but the number of slots.
theorem size_slots : q.size = 128 * (q.N + 2) := by
  rw [size, array_offset, stride_bytes, roundUp]
  omega

theorem seq_after_data : q.dataSize ≤ q.seqOffset := by
  rw [seqOffset, seqPlace, roundUp]
  rcases q.indexWidth with width | width <;> rw [width] <;> omega

theorem seq_inside : q.seqOffset + q.indexBytes ≤ q.entrySize := by
  rw [entrySize, entryBytes, roundUp, ← seqOffset]
  omega

theorem entry_inside : q.entrySize ≤ 128 := by
  rcases q.unitValue with small | large
  · rw [entrySize, small]
    decide
  · rw [entrySize, large]
    decide

end

end Instantiation

end LockfreeQueue
