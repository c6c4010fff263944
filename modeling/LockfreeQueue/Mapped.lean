import LockfreeQueue.Layout

set_option autoImplicit false

namespace LockfreeQueue

open Bytes

namespace Instantiation

section

variable (q : Instantiation) (base : Nat)

-- entry::clear and entry::set_seq of a slot of the queue at `base`.
def clear (slot : Nat) : Nat × List Byte := (base + q.slotOffset slot, split q.entrySize 0)

def setSeq (slot : Nat) (seq : Index q.config) : List (Nat × List Byte) :=
  [q.clear base slot, (base + q.slotOffset slot + q.seqOffset, split q.indexBytes seq.toNat)]

-- The constructor of the queue, store by store: the members in their order, with an array whose
-- entries clear themselves, and then the loop.
def construction : List (Nat × List Byte) :=
  [(base, split q.indexBytes 0), (base + q.readIndexOffset, split q.indexBytes 0)] ++ (List.range q.N).map (q.clear base) ++
    (List.range q.N).flatMap fun i => q.setSeq base i (BitVec.ofNat q.config.bits i <<< 1)

def writeEntry (slot : Nat) (entry : Entry q.config q.Data) : List (Nat × List Byte) :=
  [(base + q.slotOffset slot, split q.dataSize entry.data.toNat), (base + q.slotOffset slot + q.seqOffset, split q.indexBytes entry.seq.toNat)]

-- The bytes of a whole queue. A step of a call changes one of these places and leaves the
-- others as they were.
def image (memory : Memory q.config q.Data) : List (Nat × List Byte) :=
  [(base, split q.indexBytes memory.writeIndex.toNat), (base + q.readIndexOffset, split q.indexBytes memory.readIndex.toNat)] ++
    (List.range q.N).flatMap fun i => q.writeEntry base i (memory.entry (q.config.number i))

def entryAt (store : Nat → Byte) (slot : Nat) : Entry q.config q.Data :=
  ⟨BitVec.ofNat _ (join (slice store (base + q.slotOffset slot) q.dataSize)), q.index store (base + q.slotOffset slot + q.seqOffset)⟩

def InSlot (slot : Nat) (change : Nat × List Byte) : Prop :=
  base + q.slotOffset slot ≤ change.1 ∧ change.1 + change.2.length ≤ base + q.slotOffset slot + q.entrySize

theorem slot_offset (slot : Nat) : q.slotOffset slot = 256 + 128 * slot := by
  rw [slotOffset, array_offset, stride_bytes]

theorem clear_in_slot (slot : Nat) : q.InSlot base slot (q.clear base slot) :=
  ⟨Nat.le_refl _, by rw [clear, split_length]⟩

theorem set_seq_in_slot (slot : Nat) (seq : Index q.config) : ∀ change ∈ q.setSeq base slot seq, q.InSlot base slot change := by
  have inside := q.seq_inside
  intro change member
  simp only [setSeq, List.mem_cons, List.not_mem_nil, or_false] at member
  rcases member with rfl | rfl
  · exact q.clear_in_slot base slot
  · refine ⟨Nat.le_add_right _ _, ?_⟩
    rw [split_length]
    omega

-- Slots do not overlap, so what is written slot by slot stays as its own writes have left it.
theorem slots_apart (slots : List Nat) (writes : Nat → List (Nat × List Byte))
    (inside : ∀ slot, ∀ change ∈ writes slot, q.InSlot base slot change) (store : Nat → Byte) (slot place count : Nat) (other : slot ∉ slots) (lower : base + q.slotOffset slot ≤ place)
    (upper : place + count ≤ base + q.slotOffset slot + q.entrySize) :
    slice (patches store (slots.flatMap writes)) place count = slice store place count := by
  have narrow := q.entry_inside
  refine slice_patches_apart store _ place count fun change member => ?_
  obtain ⟨another, listed, wrote⟩ := List.mem_flatMap.mp member
  have different : another ≠ slot := fun same => other (same ▸ listed)
  have bounds := inside another change wrote
  rw [InSlot, slot_offset] at bounds
  rw [slot_offset] at lower upper
  omega

theorem slots_written (count : Nat) (writes : Nat → List (Nat × List Byte))
    (inside : ∀ slot, ∀ change ∈ writes slot, q.InSlot base slot change) (store : Nat → Byte) (slot : Nat) (below : slot < count) :
    ∃ earlier, q.entryAt base (patches store ((List.range count).flatMap writes)) slot =
      q.entryAt base (patches earlier (writes slot)) slot := by
  have behind := q.seq_after_data
  have within := q.seq_inside
  induction count with
  | zero => exact absurd below (Nat.not_lt_zero slot)
  | succ count ih =>
      rw [List.range_succ, List.flatMap_append, patches_append]
      by_cases last : slot = count
      · subst last
        refine ⟨patches store ((List.range slot).flatMap writes), ?_⟩
        rw [List.flatMap_singleton]
      · obtain ⟨earlier, kept⟩ := ih (by omega)
        refine ⟨earlier, ?_⟩
        have other : slot ∉ [count] := fun member => last (List.mem_singleton.mp member)
        rw [← kept, entryAt, entryAt, index, index,
          q.slots_apart base [count] writes inside _ slot _ _ other (Nat.le_refl _) (by omega),
          q.slots_apart base [count] writes inside _ slot _ _ other (Nat.le_add_right _ _) (by omega)]

theorem index_split (value : Index q.config) : BitVec.ofNat q.config.bits (join (split q.indexBytes value.toNat)) = value := by
  have modulus : 256 ^ q.indexBytes = 2 ^ q.config.bits := by
    rw [show 256 = 2 ^ 8 by decide, ← Nat.pow_mul]
    rfl
  rw [join_split, modulus, Nat.mod_eq_of_lt value.isLt]
  exact q.config.number_toNat value

theorem data_split (value : q.Data) : BitVec.ofNat (8 * q.dataSize) (join (split q.dataSize value.toNat)) = value := by
  have modulus : 256 ^ q.dataSize = 2 ^ (8 * q.dataSize) := by rw [show 256 = 2 ^ 8 by decide, ← Nat.pow_mul]
  rw [join_split, modulus, Nat.mod_eq_of_lt value.isLt, BitVec.ofNat_toNat, BitVec.setWidth_eq]

theorem set_seq_entry (store : Nat → Byte) (slot : Nat) (seq : Index q.config) :
    q.entryAt base (patches store (q.setSeq base slot seq)) slot = ⟨0, seq⟩ := by
  have behind := q.seq_after_data
  have inside := q.seq_inside
  have cleared := slice_patch_within store (base + q.slotOffset slot) (split q.entrySize 0) 0 q.dataSize (by rw [split_length]; omega)
  rw [Nat.add_zero] at cleared
  have zeros := join_zeros (((split q.entrySize 0).drop 0).take q.dataSize) fun byte member =>
    split_zero q.entrySize byte (List.mem_of_mem_drop (List.mem_of_mem_take member))
  rw [setSeq, clear, patches, patches, patches, entryAt, index, slice_patch_split, q.index_split,
    slice_patch_apart _ _ _ _ _ (.inl (by omega)), cleared, zeros]
  rfl

theorem write_entry_in_slot (slot : Nat) (entry : Entry q.config q.Data) :
    ∀ change ∈ q.writeEntry base slot entry, q.InSlot base slot change := by
  have behind := q.seq_after_data
  have inside := q.seq_inside
  intro change member
  simp only [writeEntry, List.mem_cons, List.not_mem_nil, or_false] at member
  rcases member with rfl | rfl
  · exact ⟨Nat.le_refl _, by rw [split_length]; omega⟩
  · exact ⟨Nat.le_add_right _ _, by rw [split_length]; omega⟩

theorem write_entry_entry (store : Nat → Byte) (slot : Nat) (entry : Entry q.config q.Data) :
    q.entryAt base (patches store (q.writeEntry base slot entry)) slot = entry := by
  have behind := q.seq_after_data
  rw [writeEntry, patches, patches, patches, entryAt, index, slice_patch_split, q.index_split,
    slice_patch_apart _ _ _ _ _ (.inl (by omega)), slice_patch_split, q.data_split]

-- The two indices lie below the array.
theorem indices_written (write read : Index q.config) (store : Nat → Byte) (rest : List (Nat × List Byte))
    (above : ∀ change ∈ rest, base + q.arrayOffset ≤ change.1) :
    let after := patches store ([(base, split q.indexBytes write.toNat), (base + q.readIndexOffset, split q.indexBytes read.toNat)] ++ rest)
    q.index after base = write ∧ q.index after (base + q.readIndexOffset) = read := by
  have narrow : q.indexBytes ≤ 8 := by
    rcases q.indexWidth with width | width <;> omega
  have place := q.read_index_offset
  have array := q.array_offset
  intro after
  refine ⟨?_, ?_⟩
  · change BitVec.ofNat _ (join (slice (patches store (_ ++ rest)) _ _)) = write
    rw [patches_append, slice_patches_apart _ rest _ _ fun change member => .inl (by have low := above change member; omega)]
    change BitVec.ofNat _ (join (slice (patch (patch store _ _) _ _) _ _)) = write
    rw [slice_patch_apart _ _ _ _ _ (.inl (by omega)), slice_patch_split]
    exact q.index_split write
  · change BitVec.ofNat _ (join (slice (patches store (_ ++ rest)) _ _)) = read
    rw [patches_append, slice_patches_apart _ rest _ _ fun change member => .inl (by have low := above change member; omega)]
    change BitVec.ofNat _ (join (slice (patch (patch store _ _) _ _) _ _)) = read
    rw [slice_patch_split]
    exact q.index_split read

theorem in_slot_above (slot : Nat) (change : Nat × List Byte) (inside : q.InSlot base slot change) : base + q.arrayOffset ≤ change.1 := by
  obtain ⟨lower, _⟩ := inside
  rw [slotOffset] at lower
  omega

theorem memory_eq (memory other : Memory q.config q.Data) (write : memory.writeIndex = other.writeIndex)
    (read : memory.readIndex = other.readIndex) (array : ∀ slot, memory.array slot = other.array slot) : memory = other := by
  cases memory
  cases other
  cases write
  cases read
  cases funext array
  rfl

-- The constructor leaves the initial queue, whatever bytes it finds.
theorem construction_initial (store : Nat → Byte) :
    q.decode (patches store (q.construction base)) base = Memory.initial q.config q.Data := by
  have inside : ∀ slot, ∀ change ∈ q.setSeq base slot (BitVec.ofNat q.config.bits slot <<< 1), q.InSlot base slot change :=
    fun slot => q.set_seq_in_slot base slot _
  have above : ∀ change ∈ (List.range q.N).map (q.clear base) ++
      (List.range q.N).flatMap fun i => q.setSeq base i (BitVec.ofNat q.config.bits i <<< 1), base + q.arrayOffset ≤ change.1 := by
    intro change member
    rcases List.mem_append.mp member with cleared | looped
    · obtain ⟨slot, _, same⟩ := List.mem_map.mp cleared
      rw [← same]
      exact q.in_slot_above base slot _ (q.clear_in_slot base slot)
    · obtain ⟨slot, _, wrote⟩ := List.mem_flatMap.mp looped
      exact q.in_slot_above base slot change (inside slot change wrote)
  have indices := q.indices_written base 0 0 store _ above
  have zero : (0 : Index q.config).toNat = 0 := rfl
  rw [zero, ← List.append_assoc] at indices
  refine q.memory_eq _ _ indices.1 indices.2 fun slot => ?_
  obtain ⟨earlier, written⟩ := q.slots_written base q.N _ inside
    (patches store ([(base, split q.indexBytes 0), (base + q.readIndexOffset, split q.indexBytes 0)] ++ (List.range q.N).map (q.clear base)))
    slot.val slot.isLt
  rw [← patches_append, q.set_seq_entry] at written
  exact written

theorem image_decode (memory : Memory q.config q.Data) (store : Nat → Byte) :
    q.decode (patches store (q.image base memory)) base = memory := by
  have inside : ∀ slot, ∀ change ∈ q.writeEntry base slot (memory.entry (q.config.number slot)), q.InSlot base slot change :=
    fun slot => q.write_entry_in_slot base slot _
  have above : ∀ change ∈ (List.range q.N).flatMap fun i => q.writeEntry base i (memory.entry (q.config.number i)),
      base + q.arrayOffset ≤ change.1 := by
    intro change member
    obtain ⟨slot, _, wrote⟩ := List.mem_flatMap.mp member
    exact q.in_slot_above base slot change (inside slot change wrote)
  have indices := q.indices_written base memory.writeIndex memory.readIndex store _ above
  refine q.memory_eq _ _ indices.1 indices.2 fun slot => ?_
  obtain ⟨earlier, written⟩ := q.slots_written base q.N _ inside
    (patches store [(base, split q.indexBytes memory.writeIndex.toNat), (base + q.readIndexOffset, split q.indexBytes memory.readIndex.toNat)])
    slot.val slot.isLt
  have here : q.config.slot (q.config.number slot.val) = slot := Fin.ext (by rw [q.config.slot_number, Nat.mod_eq_of_lt slot.isLt])
  rw [← patches_append, q.write_entry_entry, Memory.entry, here] at written
  exact written

-- Everything is written between the two ends of the queue.
def InQueue (change : Nat × List Byte) : Prop := base ≤ change.1 ∧ change.1 + change.2.length ≤ base + q.size

theorem in_slot_queue (slot : Nat) (below : slot < q.N) (change : Nat × List Byte) (inside : q.InSlot base slot change) :
    q.InQueue base change := by
  have narrow := q.entry_inside
  obtain ⟨lower, upper⟩ := inside
  rw [slot_offset] at lower upper
  rw [InQueue, size_slots]
  omega

theorem indices_in_queue (write read : Nat) :
    ∀ change ∈ [(base, split q.indexBytes write), (base + q.readIndexOffset, split q.indexBytes read)], q.InQueue base change := by
  have narrow : q.indexBytes ≤ 8 := by
    rcases q.indexWidth with width | width <;> omega
  intro change member
  simp only [List.mem_cons, List.not_mem_nil, or_false] at member
  rw [InQueue, size_slots]
  rcases member with rfl | rfl
  · rw [split_length]
    omega
  · rw [split_length, read_index_offset]
    omega

theorem construction_in_queue : ∀ change ∈ q.construction base, q.InQueue base change := by
  intro change member
  rcases List.mem_append.mp member with early | looped
  · rcases List.mem_append.mp early with indices | cleared
    · exact q.indices_in_queue base 0 0 change indices
    · obtain ⟨slot, listed, same⟩ := List.mem_map.mp cleared
      rw [← same]
      exact q.in_slot_queue base slot (List.mem_range.mp listed) _ (q.clear_in_slot base slot)
  · obtain ⟨slot, listed, wrote⟩ := List.mem_flatMap.mp looped
    exact q.in_slot_queue base slot (List.mem_range.mp listed) change (q.set_seq_in_slot base slot _ change wrote)

theorem image_in_queue (memory : Memory q.config q.Data) : ∀ change ∈ q.image base memory, q.InQueue base change := by
  intro change member
  rcases List.mem_append.mp member with indices | slots
  · exact q.indices_in_queue base _ _ change indices
  · obtain ⟨slot, listed, wrote⟩ := List.mem_flatMap.mp slots
    exact q.in_slot_queue base slot (List.mem_range.mp listed) change (q.write_entry_in_slot base slot _ change wrote)

end

end Instantiation

end LockfreeQueue
