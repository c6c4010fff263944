import Mathlib.Data.List.Basic
import Mathlib.Data.Nat.ModEq

set_option autoImplicit false

-- Bytes in a flat store, little-endian words in them, and files as a store with a length.
namespace Bytes

abbrev Byte := BitVec 8

def split (count value : Nat) : List Byte := (List.range count).map fun place => BitVec.ofNat 8 (value / 256 ^ place)

def join (bytes : List Byte) : Nat := bytes.foldr (fun byte rest => byte.toNat + 256 * rest) 0

def slice (store : Nat → Byte) (offset count : Nat) : List Byte := (List.range count).map fun place => store (offset + place)

def patch (store : Nat → Byte) (offset : Nat) (bytes : List Byte) (place : Nat) : Byte :=
  if offset ≤ place then (bytes[place - offset]?).getD (store place) else store place

-- Writes one after the other, each with its place.
def patches (store : Nat → Byte) : List (Nat × List Byte) → Nat → Byte
  | [] => store
  | change :: rest => patches (patch store change.1 change.2) rest

@[simp] theorem split_length (count value : Nat) : (split count value).length = count := by
  rw [split, List.length_map, List.length_range]

@[simp] theorem slice_length (store : Nat → Byte) (offset count : Nat) : (slice store offset count).length = count := by
  rw [slice, List.length_map, List.length_range]

theorem split_succ (count value : Nat) : split (count + 1) value = BitVec.ofNat 8 value :: split count (value / 256) := by
  rw [split, split, List.range_succ_eq_map, List.map_cons, List.map_map, Nat.pow_zero, Nat.div_one]
  congr 1
  refine List.map_congr_left fun place _ => ?_
  rw [Function.comp_apply, Nat.pow_succ', Nat.div_div_eq_div_mul]

theorem join_cons (byte : Byte) (rest : List Byte) : join (byte :: rest) = byte.toNat + 256 * join rest := rfl

theorem join_split (count value : Nat) : join (split count value) = value % 256 ^ count := by
  induction count generalizing value with
  | zero => rw [Nat.pow_zero, Nat.mod_one]; rfl
  | succ count ih => rw [split_succ, join_cons, ih, Nat.pow_succ', Nat.mod_mul, BitVec.toNat_ofNat]

theorem join_zeros (bytes : List Byte) (zeros : ∀ byte ∈ bytes, byte = 0) : join bytes = 0 := by
  induction bytes with
  | nil => rfl
  | cons byte rest ih =>
      rw [join_cons, ih fun later member => zeros later (List.mem_cons_of_mem _ member), zeros byte List.mem_cons_self]
      rfl

theorem split_zero (count : Nat) (byte : Byte) (member : byte ∈ split count 0) : byte = 0 := by
  obtain ⟨place, _, same⟩ := List.mem_map.mp member
  rw [← same, Nat.zero_div]
  rfl

section

variable (store : Nat → Byte) (offset : Nat) (bytes : List Byte)

theorem patch_inside (place : Nat) (below : offset ≤ place) (within : place - offset < bytes.length) :
    patch store offset bytes place = bytes[place - offset] := by
  rw [patch, if_pos below, List.getElem?_eq_getElem within, Option.getD_some]

theorem patch_outside (place : Nat) (apart : place < offset ∨ offset + bytes.length ≤ place) :
    patch store offset bytes place = store place := by
  rw [patch]
  split
  · rw [List.getElem?_eq_none (by omega), Option.getD_none]
  · rfl

theorem slice_patch_within (start count : Nat) (within : start + count ≤ bytes.length) :
    slice (patch store offset bytes) (offset + start) count = (bytes.drop start).take count := by
  refine List.ext_getElem (by rw [slice_length, List.length_take, List.length_drop]; omega) fun place inside _ => ?_
  rw [slice_length] at inside
  simp only [slice, List.getElem_map, List.getElem_range, List.getElem_take, List.getElem_drop]
  rw [patch_inside store offset bytes _ (by omega) (by omega)]
  congr 1
  omega

theorem slice_patch : slice (patch store offset bytes) offset bytes.length = bytes := by
  refine List.ext_getElem (slice_length _ _ _) fun place _ within => ?_
  simp only [slice, List.getElem_map, List.getElem_range]
  rw [patch_inside store offset bytes _ (Nat.le_add_right _ _) (by omega)]
  simp only [Nat.add_sub_cancel_left]

theorem slice_patch_split (count value : Nat) : slice (patch store offset (split count value)) offset count = split count value := by
  have same := slice_patch store offset (split count value)
  rwa [split_length] at same

theorem slice_patch_apart (other count : Nat) (apart : other + count ≤ offset ∨ offset + bytes.length ≤ other) :
    slice (patch store offset bytes) other count = slice store other count := by
  refine List.map_congr_left fun place member => ?_
  have small := List.mem_range.mp member
  exact patch_outside store offset bytes _ (by omega)

theorem patches_append (first second : List (Nat × List Byte)) :
    patches store (first ++ second) = patches (patches store first) second := by
  induction first generalizing store with
  | nil => rfl
  | cons change rest ih => exact ih (patch store change.1 change.2)

theorem slice_patches_apart (changes : List (Nat × List Byte)) (other count : Nat)
    (apart : ∀ change ∈ changes, other + count ≤ change.1 ∨ change.1 + change.2.length ≤ other) :
    slice (patches store changes) other count = slice store other count := by
  induction changes generalizing store with
  | nil => rfl
  | cons change rest ih =>
      rw [patches, ih _ fun later member => apart later (List.mem_cons_of_mem _ member),
        slice_patch_apart store change.1 change.2 other count (apart change List.mem_cons_self)]

theorem slice_append (first second : Nat) :
    slice store offset (first + second) = slice store offset first ++ slice store (offset + first) second := by
  rw [slice, List.range_add, List.map_append, List.map_map]
  congr 1
  exact List.map_congr_left fun place _ => congrArg store (Nat.add_assoc offset first place).symm

theorem slice_congr (other : Nat → Byte) (start count : Nat) (same : ∀ place < count, store (offset + place) = other (start + place)) :
    slice store offset count = slice other start count :=
  List.map_congr_left fun place member => same place (List.mem_range.mp member)

theorem slice_within (count start width : Nat) (within : start + width ≤ count) :
    ((slice store offset count).drop start).take width = slice store (offset + start) width := by
  refine List.ext_getElem (by simp only [List.length_take, List.length_drop, slice_length]; omega) fun place _ _ => ?_
  simp only [slice, List.getElem_take, List.getElem_drop, List.getElem_map, List.getElem_range, Nat.add_assoc]

theorem slice_get (count place : Nat) (inside : place < count) : (slice store offset count)[place]? = some (store (offset + place)) := by
  rw [slice, List.getElem?_map, List.getElem?_range inside, Option.map_some]

end

end Bytes

-- A regular file: bytes beyond its length read as nothing and appear as zeros when it grows.
structure File where
  length : Nat
  byte : Nat → Bytes.Byte
  beyond : ∀ place, length ≤ place → byte place = 0

namespace File

open Bytes

def created : File := ⟨0, fun _ => 0, fun _ _ => rfl⟩

def read (file : File) (offset count : Nat) : List Byte := slice file.byte offset (min count (file.length - offset))

def write (file : File) (offset : Nat) (bytes : List Byte) : File :=
  ⟨max file.length (offset + bytes.length), patch file.byte offset bytes, fun place past => by
    rw [patch_outside file.byte offset bytes place (by omega), file.beyond place (by omega)]⟩

def truncate (file : File) (length : Nat) : File :=
  ⟨length, fun place => if place < length then file.byte place else 0, fun _ past => if_neg (Nat.not_lt.mpr past)⟩

-- A store through a shared mapping: it reaches the bytes that the file has.
def store (file : File) (offset : Nat) (bytes : List Byte) : File :=
  ⟨file.length, fun place => if place < file.length then patch file.byte offset bytes place else 0,
    fun _ past => if_neg (Nat.not_lt.mpr past)⟩

theorem store_byte (file : File) (offset : Nat) (bytes : List Byte) (within : offset + bytes.length ≤ file.length) :
    (file.store offset bytes).byte = patch file.byte offset bytes := by
  funext place
  by_cases inside : place < file.length
  · exact if_pos inside
  · change (if place < file.length then _ else _) = _
    rw [if_neg inside, patch_outside file.byte offset bytes place (by omega), file.beyond place (by omega)]

def stores (file : File) : List (Nat × List Byte) → File
  | [] => file
  | change :: rest => stores (file.store change.1 change.2) rest

theorem stores_length (file : File) (changes : List (Nat × List Byte)) : (file.stores changes).length = file.length := by
  induction changes generalizing file with
  | nil => rfl
  | cons change rest ih => exact ih (file.store change.1 change.2)

theorem stores_byte (file : File) (changes : List (Nat × List Byte))
    (within : ∀ change ∈ changes, change.1 + change.2.length ≤ file.length) :
    (file.stores changes).byte = patches file.byte changes := by
  induction changes generalizing file with
  | nil => rfl
  | cons change rest ih =>
      rw [stores, patches, ← store_byte file change.1 change.2 (within change List.mem_cons_self)]
      exact ih (file.store change.1 change.2) fun later member => within later (List.mem_cons_of_mem _ member)

theorem read_all (file : File) (offset count : Nat) (within : offset + count ≤ file.length) :
    file.read offset count = slice file.byte offset count := by
  rw [read, Nat.min_eq_left (by omega)]

theorem read_length (file : File) (offset count : Nat) : (file.read offset count).length = min count (file.length - offset) :=
  slice_length _ _ _

theorem read_empty (file : File) (offset count : Nat) (empty : file.length = 0) : file.read offset count = [] := by
  apply List.eq_nil_of_length_eq_zero
  rw [read_length, empty]
  omega

end File
