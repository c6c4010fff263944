import LockfreeQueue.Layout

set_option autoImplicit false

namespace LockfreeQueue

open Bytes

-- sizeof(shared_file_header): the five words that describe the queue, the two counts, and the
-- arrays of producers and consumers, which nothing reads or writes.
def headerSize : Nat := 168

def queueStart : Nat := 4096

def word (header : List Byte) (place count : Nat) : Nat := join ((header.drop place).take count)

namespace Instantiation

variable (q : Instantiation)

def described : List Byte := split 4 0x0BADBADB ++ (split 4 headerSize ++ (split 8 queueStart ++ (split 8 q.N ++ split 8 q.size)))

-- What a constructor that creates puts over the first members of its header.
def fields : List Byte := q.described ++ (split 4 0 ++ split 4 0)

-- The check of a constructor that attaches.
def Accepts (header : List Byte) : Prop :=
  word header 0 4 = 0x0BADBADB ∧ word header 4 4 = headerSize ∧ word header 8 8 = queueStart ∧
    word header 16 8 = q.N ∧ word header 24 8 = q.size

instance (header : List Byte) : Decidable (q.Accepts header) := inferInstanceAs (Decidable (_ ∧ _))

theorem described_length : q.described.length = 32 := by simp [described]

theorem fields_length : q.fields.length = 40 := by simp [fields, described_length]

end Instantiation

theorem word_here (bytes rest : List Byte) : word (bytes ++ rest) 0 bytes.length = join bytes := by
  rw [word, List.drop_zero, List.take_left]

theorem word_later (bytes rest : List Byte) (place count : Nat) : word (bytes ++ rest) (bytes.length + place) count = word rest place count := by
  rw [word, word, List.drop_append, List.drop_eq_nil_of_le (Nat.le_add_right _ _), Nat.add_sub_cancel_left, List.nil_append]

theorem word_split (count value : Nat) (rest : List Byte) (fits : value < 256 ^ count) : word (split count value ++ rest) 0 count = value := by
  have here := word_here (split count value) rest
  rw [split_length] at here
  rw [here, join_split, Nat.mod_eq_of_lt fits]

theorem word_after (count value place width : Nat) (rest : List Byte) :
    word (split count value ++ rest) (count + place) width = word rest place width := by
  have later := word_later (split count value) rest place width
  rwa [split_length] at later

namespace Instantiation

theorem size_fits (q : Instantiation) : q.N < 256 ^ 8 ∧ q.size < 256 ^ 8 := by
  have small := q.unsigned
  rw [q.size_slots]
  omega

-- What the header tells a reader is the number of slots, once and again in sizeof(Q).
theorem accepts_described (q other : Instantiation) (rest : List Byte) : q.Accepts (other.described ++ rest) ↔ other.N = q.N := by
  obtain ⟨count, bytes⟩ := other.size_fits
  have signature : word (other.described ++ rest) 0 4 = 0x0BADBADB := by
    rw [described, List.append_assoc]
    exact word_split 4 _ _ (by decide)
  have header : word (other.described ++ rest) 4 4 = headerSize := by
    rw [described, List.append_assoc, List.append_assoc, word_after 4 _ 0]
    exact word_split 4 _ _ (by decide)
  have start : word (other.described ++ rest) 8 8 = queueStart := by
    rw [described, List.append_assoc, List.append_assoc, List.append_assoc, word_after 4 _ 4, word_after 4 _ 0]
    exact word_split 8 _ _ (by decide)
  have elements : word (other.described ++ rest) 16 8 = other.N := by
    rw [described, List.append_assoc, List.append_assoc, List.append_assoc, List.append_assoc, word_after 4 _ 12, word_after 4 _ 8,
      word_after 8 _ 0]
    exact word_split 8 _ _ count
  have size : word (other.described ++ rest) 24 8 = other.size := by
    rw [described, List.append_assoc, List.append_assoc, List.append_assoc, List.append_assoc, word_after 4 _ 20, word_after 4 _ 16,
      word_after 8 _ 8, word_after 8 _ 0]
    exact word_split 8 _ _ bytes
  rw [Accepts, signature, header, start, elements, size, other.size_slots, q.size_slots]
  omega

end Instantiation

end LockfreeQueue
