import LockfreeQueue.Create
import LockfreeQueue.System

set_option autoImplicit false

namespace LockfreeQueue

open Bytes

-- The accesses of a queue to the bytes of its mapping.
structure MappedEffect (config : Config) (Data : Type) where
  bytes : Nat → Byte
  register : List Byte
  act : Option (Act config Data)
  next : Next config Data

namespace Instantiation

section

variable (q : Instantiation) (base : Nat)

-- entry(s), entry(s, d), get_seq and get_data on the whole value of an entry, padding included.
def emptyWord (seq : Index q.config) : List Byte :=
  slice (patches (fun _ => 0) [(q.seqOffset, split q.indexBytes seq.toNat)]) 0 q.entrySize

def fullWord (seq : Index q.config) (d : q.Data) : List Byte :=
  slice (patches (fun _ => 0) [(0, split q.dataSize d.toNat), (q.seqOffset, split q.indexBytes seq.toNat)]) 0 q.entrySize

def getSeq (word : List Byte) : Index q.config := BitVec.ofNat _ (join ((word.drop q.seqOffset).take q.indexBytes))

def getData (word : List Byte) : q.Data := BitVec.ofNat _ (join (word.take q.dataSize))

def view (word : List Byte) : Entry q.config q.Data := ⟨q.getData word, q.getSeq word⟩

def place (index : Index q.config) : Nat := base + q.slotOffset (q.config.slot index)

def load (bytes : Nat → Byte) (index : Index q.config) : List Byte := slice bytes (q.place base index) q.entrySize

-- compare_exchange of the whole value of an entry, and of one of the indices.
def compareExchange (bytes : Nat → Byte) (index : Index q.config) (expected desired : List Byte) : (Nat → Byte) × Bool :=
  if q.load base bytes index = expected then (patch bytes (q.place base index) desired, true) else (bytes, false)

def compareExchangeIndex (bytes : Nat → Byte) (spot : Nat) (expected desired : Index q.config) : (Nat → Byte) × Bool :=
  if q.index bytes spot = expected then (patch bytes spot (split q.indexBytes desired.toNat), true) else (bytes, false)

-- The register is the local variable e of the loops over the read index.
def execMapped (bytes : Nat → Byte) (register : List Byte) : Pc q.config q.Data → MappedEffect q.config q.Data
  | .pushLoad d => ⟨bytes, register, none, .goto (.pushRead d (q.index bytes base))⟩
  | .pushRead d wrIndex => ⟨bytes, register, none, pushSlot d wrIndex (q.index bytes (q.place base wrIndex + q.seqOffset))⟩
  | .pushFill d wrIndex =>
      match q.compareExchange base bytes wrIndex (q.emptyWord (wrIndex <<< 1)) (q.fullWord ((wrIndex <<< 1) ||| 1) d) with
      | (after, true) =>
          ⟨after, register, some (.stored d), if q.config.lazyPush then .pushed (some wrIndex) else .goto (.pushDone d wrIndex)⟩
      | (after, false) => ⟨after, register, none, .goto (.pushLoad d)⟩
  | .pushDone _ wrIndex =>
      match q.compareExchangeIndex bytes base wrIndex (wrIndex + 1) with
      | (after, moved) => ⟨after, register, if moved then some .wrote else none, .pushed (some wrIndex)⟩
  | .pushAdvance d wrIndex =>
      match q.compareExchangeIndex bytes base wrIndex (wrIndex + 1) with
      | (after, moved) => ⟨after, register, if moved then some .wrote else none, .goto (.pushLoad d)⟩
  | .readLoad loop => ⟨bytes, register, none, .goto (.readSlot loop (q.index bytes (base + q.readIndexOffset)))⟩
  | .readSlot loop rdIndex =>
      let e := q.load base bytes rdIndex
      ⟨bytes, e, none, readSlot loop rdIndex (q.view e)⟩
  | .take loop rdIndex _ =>
      match q.compareExchange base bytes rdIndex register (q.emptyWord ((rdIndex + q.config.sizeWord) <<< 1)) with
      | (after, true) =>
          ⟨after, register, some (.took (q.getData register)),
            if q.config.lazyPop then taken loop rdIndex (q.view register) else .goto (.takeDone loop rdIndex (q.view register))⟩
      | (after, false) => ⟨after, register, none, .goto (.readLoad loop)⟩
  | .takeDone loop rdIndex _ =>
      match q.compareExchangeIndex bytes (base + q.readIndexOffset) rdIndex (rdIndex + 1) with
      | (after, moved) => ⟨after, register, if moved then some .read else none, taken loop rdIndex (q.view register)⟩
  | .readAdvance loop rdIndex =>
      match q.compareExchangeIndex bytes (base + q.readIndexOffset) rdIndex (rdIndex + 1) with
      | (after, moved) => ⟨after, register, if moved then some .read else none, .goto (.readLoad loop)⟩
  | .exchange i old new =>
      match q.compareExchange base bytes i (q.fullWord ((i <<< 1) ||| 1) old) (q.fullWord ((i <<< 1) ||| 1) new) with
      | (after, true) => ⟨after, register, some (.swapped i old new), .reply (.done none none)⟩
      | (after, false) => ⟨after, register, none, .reply .failed⟩

-- The bytes of an entry as a constructor leaves them, with zeros for padding.
def word (entry : Entry q.config q.Data) : List Byte := q.fullWord entry.seq entry.data

theorem word_length (entry : Entry q.config q.Data) : (q.word entry).length = q.entrySize := slice_length _ _ _

theorem empty_word (seq : Index q.config) : q.emptyWord seq = q.word ⟨0, seq⟩ := by
  have cleared : patch (fun _ => 0) 0 (split q.dataSize (0 : q.Data).toNat) = fun _ => 0 := by
    funext spot
    rw [patch, if_pos (Nat.zero_le spot)]
    cases held : (split q.dataSize (0 : q.Data).toNat)[spot - 0]? with
    | none => rfl
    | some byte => exact split_zero q.dataSize byte (List.mem_of_getElem? held)
  rw [word, fullWord, emptyWord, patches, patches, patches, patches, cleared, patches]

theorem view_word (entry : Entry q.config q.Data) : q.view (q.word entry) = entry := by
  have behind := q.seq_after_data
  have inside := q.seq_inside
  have bytes : q.word entry = slice (patch (patch (fun _ => 0) 0 (split q.dataSize entry.data.toNat)) q.seqOffset
      (split q.indexBytes entry.seq.toNat)) 0 q.entrySize := rfl
  have data := slice_within (patch (patch (fun _ => 0) 0 (split q.dataSize entry.data.toNat)) q.seqOffset
    (split q.indexBytes entry.seq.toNat)) 0 q.entrySize 0 q.dataSize (by omega)
  rw [List.drop_zero] at data
  rw [view, getData, getSeq, bytes, data, slice_within _ _ _ _ _ inside, Nat.zero_add q.seqOffset, slice_patch_split, q.index_split, Nat.add_zero,
    slice_patch_apart _ _ _ _ _ (.inl (by omega)), slice_patch_split, q.data_split]

theorem word_inj (entry other : Entry q.config q.Data) : q.word entry = q.word other ↔ entry = other := by
  constructor
  · intro same
    rw [← q.view_word entry, same, q.view_word]
  · intro same
    rw [same]

-- The bytes hold the queue, and between the members of an entry nothing else.
structure Maps (bytes : Nat → Byte) (memory : Memory q.config q.Data) : Prop where
  write : q.index bytes base = memory.writeIndex
  read : q.index bytes (base + q.readIndexOffset) = memory.readIndex
  slots : ∀ slot : Fin q.config.size, slice bytes (base + q.slotOffset slot) q.entrySize = q.word (memory.array slot)

variable (bytes : Nat → Byte) (memory : Memory q.config q.Data)

theorem maps_load (maps : q.Maps base bytes memory) (index : Index q.config) : q.load base bytes index = q.word (memory.entry index) :=
  maps.slots (q.config.slot index)

theorem maps_seq (maps : q.Maps base bytes memory) (index : Index q.config) :
    q.index bytes (q.place base index + q.seqOffset) = (memory.entry index).seq := by
  have loaded := congrArg q.getSeq (q.maps_load base bytes memory maps index)
  rw [getSeq, load, slice_within _ _ _ _ _ q.seq_inside] at loaded
  exact loaded.trans (congrArg Entry.seq (q.view_word (memory.entry index)))

theorem maps_decode (maps : q.Maps base bytes memory) : q.decode bytes base = memory := by
  have behind := q.seq_after_data
  have inside := q.seq_inside
  refine q.memory_eq _ _ maps.write maps.read fun slot => ?_
  have held := congrArg q.view (maps.slots slot)
  have data := slice_within bytes (base + q.slotOffset slot) q.entrySize 0 q.dataSize (by omega)
  rw [List.drop_zero] at data
  rw [q.view_word, view, getData, getSeq, data, slice_within _ _ _ _ _ inside, Nat.add_zero] at held
  exact held

theorem narrow_index : q.indexBytes ≤ 8 := by
  rcases q.indexWidth with width | width <;> omega

theorem maps_write (maps : q.Maps base bytes memory) (value : Index q.config) :
    q.Maps base (patch bytes base (split q.indexBytes value.toNat)) { memory with writeIndex := value } := by
  have narrow := q.narrow_index
  refine ⟨?_, ?_, fun slot => ?_⟩
  · rw [index, slice_patch_split, q.index_split]
  · rw [index, slice_patch_apart _ _ _ _ _ (.inr (by rw [split_length, read_index_offset]; omega))]
    exact maps.read
  · rw [slice_patch_apart _ _ _ _ _ (.inr (by rw [split_length, slot_offset]; omega))]
    exact maps.slots slot

theorem maps_read (maps : q.Maps base bytes memory) (value : Index q.config) :
    q.Maps base (patch bytes (base + q.readIndexOffset) (split q.indexBytes value.toNat)) { memory with readIndex := value } := by
  have narrow := q.narrow_index
  refine ⟨?_, ?_, fun slot => ?_⟩
  · rw [index, slice_patch_apart _ _ _ _ _ (.inl (by rw [read_index_offset]; omega))]
    exact maps.write
  · rw [index, slice_patch_split, q.index_split]
  · rw [slice_patch_apart _ _ _ _ _ (.inr (by rw [split_length, read_index_offset, slot_offset]; omega))]
    exact maps.slots slot

theorem maps_entry (maps : q.Maps base bytes memory) (index : Index q.config) (entry : Entry q.config q.Data) :
    q.Maps base (patch bytes (q.place base index) (q.word entry)) (memory.setEntry index entry) := by
  have narrow := q.narrow_index
  have low := q.slot_offset (q.config.slot index)
  have small := q.entry_inside
  refine ⟨?_, ?_, fun (slot : Fin q.config.size) => ?_⟩
  · rw [Instantiation.index, slice_patch_apart _ _ _ _ _ (.inl (by rw [place]; omega))]
    exact maps.write
  · rw [Instantiation.index, slice_patch_apart _ _ _ _ _ (.inl (by rw [place, read_index_offset]; omega))]
    exact maps.read
  · change _ = q.word (Function.update memory.array (q.config.slot index) entry slot)
    by_cases same : slot = q.config.slot index
    · have here := slice_patch bytes (q.place base index) (q.word entry)
      rw [word_length] at here
      rw [same, Function.update_self]
      exact here
    · have other : slot.val ≠ (q.config.slot index).val := fun equal => same (Fin.ext equal)
      rw [slice_patch_apart _ _ _ _ _ (by rw [place, word_length, slot_offset, slot_offset]; omega),
        Function.update_of_ne same]
      exact maps.slots slot

theorem exchange_entry_hit (maps : q.Maps base bytes memory) (index : Index q.config) (expected desired : Entry q.config q.Data)
    (hit : memory.entry index = expected) :
    q.compareExchange base bytes index (q.word expected) (q.word desired) = (patch bytes (q.place base index) (q.word desired), true) := by
  rw [compareExchange, q.maps_load base bytes memory maps index, hit, if_pos rfl]

theorem exchange_entry_miss (maps : q.Maps base bytes memory) (index : Index q.config) (expected desired : Entry q.config q.Data)
    (miss : memory.entry index ≠ expected) :
    q.compareExchange base bytes index (q.word expected) (q.word desired) = (bytes, false) := by
  rw [compareExchange, q.maps_load base bytes memory maps index, if_neg (fun same => miss ((q.word_inj _ _).mp same))]

-- Between the load of an entry and its CAS the register holds that entry.
def Holding (register : List Byte) : Pc q.config q.Data → Prop
  | .take _ _ e | .takeDone _ _ e => register = q.word e
  | _ => True

theorem look_holding (loop : ReadLoop q.config q.Data) (rdIndex : Index q.config) (e : Entry q.config q.Data)
    (after : Pc q.config q.Data) (goes : readSlot loop rdIndex e = .goto after) : q.Holding (q.word e) after := by
  cases loop with
  | pop =>
      simp only [readSlot, popSlot] at goes
      split at goes <;> cases goes
      · rfl
      · trivial
      · trivial
  | popIf f =>
      simp only [readSlot, popIfSlot] at goes
      split at goes
      · cases goes
      · split at goes <;> cases goes
        rfl
      · cases goes
        trivial
      · cases goes
        trivial
  | peek =>
      simp only [readSlot, peekSlot] at goes
      split at goes <;> cases goes
      · trivial
      · trivial
  | empty =>
      simp only [readSlot, emptySlot] at goes
      split at goes <;> cases goes

-- What an access to the bytes has in common with the access to the queue they hold.
structure Follows (after : MappedEffect q.config q.Data) (effect : Effect q.config q.Data) : Prop where
  maps : q.Maps base after.bytes effect.memory
  act : after.act = effect.act
  next : after.next = effect.next
  holding : ∀ pc, effect.next = .goto pc → q.Holding after.register pc

theorem push_index_follows (maps : q.Maps base bytes memory) (register : List Byte) (wrIndex : Index q.config)
    (next : Next q.config q.Data) (plain : ∀ pc, next = .goto pc → q.Holding register pc) :
    q.Follows base
      (match q.compareExchangeIndex bytes base wrIndex (wrIndex + 1) with
        | (after, moved) => ⟨after, register, if moved then some .wrote else none, next⟩)
      (match memory.compareExchangeWrite wrIndex (wrIndex + 1) with
        | (after, moved) => ⟨after, if moved then some .wrote else none, next⟩) := by
  rw [compareExchangeIndex, Memory.compareExchangeWrite, maps.write]
  by_cases hit : memory.writeIndex = wrIndex
  · rw [if_pos hit, if_pos hit]
    exact ⟨q.maps_write base bytes memory maps (wrIndex + 1), rfl, rfl, plain⟩
  · rw [if_neg hit, if_neg hit]
    exact ⟨maps, rfl, rfl, plain⟩

theorem read_index_follows (maps : q.Maps base bytes memory) (register : List Byte) (rdIndex : Index q.config)
    (next : Next q.config q.Data) (plain : ∀ pc, next = .goto pc → q.Holding register pc) :
    q.Follows base
      (match q.compareExchangeIndex bytes (base + q.readIndexOffset) rdIndex (rdIndex + 1) with
        | (after, moved) => ⟨after, register, if moved then some .read else none, next⟩)
      (match memory.compareExchangeRead rdIndex (rdIndex + 1) with
        | (after, moved) => ⟨after, if moved then some .read else none, next⟩) := by
  rw [compareExchangeIndex, Memory.compareExchangeRead, maps.read]
  by_cases hit : memory.readIndex = rdIndex
  · rw [if_pos hit, if_pos hit]
    exact ⟨q.maps_read base bytes memory maps (rdIndex + 1), rfl, rfl, plain⟩
  · rw [if_neg hit, if_neg hit]
    exact ⟨maps, rfl, rfl, plain⟩

-- One case for each access of a loop.
theorem exec_mapped_follows (maps : q.Maps base bytes memory) (register : List Byte) (pc : Pc q.config q.Data)
    (holding : q.Holding register pc) : q.Follows base (q.execMapped base bytes register pc) (exec memory pc) := by
  cases pc with
  | pushLoad d =>
      rw [execMapped, exec, maps.write]
      refine ⟨maps, rfl, rfl, fun pc goes => ?_⟩
      cases goes
      trivial
  | pushRead d wrIndex =>
      rw [execMapped, exec, q.maps_seq base bytes memory maps wrIndex]
      refine ⟨maps, rfl, rfl, fun pc goes => ?_⟩
      simp only [pushSlot] at goes
      split at goes <;> cases goes
      all_goals trivial
  | pushFill d wrIndex =>
      rw [execMapped, empty_word, ← word.eq_def q ⟨d, (wrIndex <<< 1) ||| 1⟩]
      by_cases hit : memory.entry wrIndex = ⟨0, wrIndex <<< 1⟩
      · rw [q.exchange_entry_hit base bytes memory maps wrIndex _ _ hit, exec_fill_hit memory d wrIndex hit]
        refine ⟨q.maps_entry base bytes memory maps wrIndex _, rfl, rfl, fun pc goes => ?_⟩
        simp only at goes
        split at goes <;> cases goes
        trivial
      · rw [q.exchange_entry_miss base bytes memory maps wrIndex _ _ hit, exec_fill_miss memory d wrIndex hit]
        refine ⟨maps, rfl, rfl, fun pc goes => ?_⟩
        cases goes
        trivial
  | pushDone d wrIndex => exact q.push_index_follows base bytes memory maps register wrIndex _ (by simp)
  | pushAdvance d wrIndex =>
      refine q.push_index_follows base bytes memory maps register wrIndex _ fun pc goes => ?_
      cases goes
      trivial
  | readLoad loop =>
      rw [execMapped, exec, maps.read]
      refine ⟨maps, rfl, rfl, fun pc goes => ?_⟩
      cases goes
      trivial
  | readSlot loop rdIndex =>
      rw [execMapped, exec]
      simp only [q.maps_load base bytes memory maps rdIndex, view_word]
      exact ⟨maps, rfl, rfl, fun pc goes => q.look_holding loop rdIndex _ pc goes⟩
  | take loop rdIndex e =>
      have held : register = q.word e := holding
      subst held
      rw [execMapped, empty_word, view_word]
      by_cases hit : memory.entry rdIndex = e
      · rw [q.exchange_entry_hit base bytes memory maps rdIndex _ _ hit, exec_take_hit memory loop rdIndex e hit]
        refine ⟨q.maps_entry base bytes memory maps rdIndex _, ?_, rfl, fun pc goes => ?_⟩
        · exact congrArg (fun entry => some (Act.took entry.data)) (q.view_word e)
        · simp only at goes
          split at goes
          · exact absurd goes (taken_no_goto loop rdIndex e pc)
          · cases goes
            rfl
      · rw [q.exchange_entry_miss base bytes memory maps rdIndex _ _ hit, exec_take_miss memory loop rdIndex e hit]
        refine ⟨maps, rfl, rfl, fun pc goes => ?_⟩
        cases goes
        trivial
  | takeDone loop rdIndex e =>
      have held : register = q.word e := holding
      subst held
      have follows := q.read_index_follows base bytes memory maps (q.word e) rdIndex (taken loop rdIndex e)
        fun pc goes => absurd goes (taken_no_goto loop rdIndex e pc)
      rw [execMapped, view_word]
      exact follows
  | readAdvance loop rdIndex =>
      refine q.read_index_follows base bytes memory maps register rdIndex _ fun pc goes => ?_
      cases goes
      trivial
  | exchange i old new =>
      rw [execMapped, ← word.eq_def q ⟨old, (i <<< 1) ||| 1⟩, ← word.eq_def q ⟨new, (i <<< 1) ||| 1⟩]
      by_cases hit : memory.entry i = ⟨old, (i <<< 1) ||| 1⟩
      · rw [q.exchange_entry_hit base bytes memory maps i _ _ hit, exec_exchange_hit memory i old new hit]
        exact ⟨q.maps_entry base bytes memory maps i _, rfl, rfl, by simp⟩
      · rw [q.exchange_entry_miss base bytes memory maps i _ _ hit, exec_exchange_miss memory i old new hit]
        exact ⟨maps, rfl, rfl, by simp⟩

-- What lies below the queue is out of its reach, and it out of the reach of what is stored there.
theorem exec_mapped_front (register : List Byte) (pc : Pc q.config q.Data) (spot : Nat) (front : spot < base) :
    (q.execMapped base bytes register pc).bytes spot = bytes spot := by
  have entry (index : Index q.config) (expected desired : List Byte) :
      (q.compareExchange base bytes index expected desired).1 spot = bytes spot := by
    rw [compareExchange]
    split
    · exact patch_outside bytes _ desired spot (.inl (by rw [place]; omega))
    · rfl
  have index (start : Nat) (behind : base ≤ start) (expected desired : Index q.config) :
      (q.compareExchangeIndex bytes start expected desired).1 spot = bytes spot := by
    rw [compareExchangeIndex]
    split
    · exact patch_outside bytes start _ spot (.inl (by omega))
    · rfl
  cases pc with
  | pushFill d wrIndex =>
      rw [← entry wrIndex (q.emptyWord (wrIndex <<< 1)) (q.fullWord ((wrIndex <<< 1) ||| 1) d), execMapped]
      split <;> rename_i same <;> rw [same]
  | take loop rdIndex e =>
      rw [← entry rdIndex register (q.emptyWord ((rdIndex + q.config.sizeWord) <<< 1)), execMapped]
      split <;> rename_i same <;> rw [same]
  | exchange i old new =>
      rw [← entry i (q.fullWord ((i <<< 1) ||| 1) old) (q.fullWord ((i <<< 1) ||| 1) new), execMapped]
      split <;> rename_i same <;> rw [same]
  | pushDone d wrIndex => exact index base (Nat.le_refl _) wrIndex (wrIndex + 1)
  | pushAdvance d wrIndex => exact index base (Nat.le_refl _) wrIndex (wrIndex + 1)
  | takeDone loop rdIndex e => exact index (base + q.readIndexOffset) (Nat.le_add_right _ _) rdIndex (rdIndex + 1)
  | readAdvance loop rdIndex => exact index (base + q.readIndexOffset) (Nat.le_add_right _ _) rdIndex (rdIndex + 1)
  | _ => rfl

theorem maps_behind (other : Nat → Byte) (maps : q.Maps base bytes memory) (same : ∀ spot, base ≤ spot → other spot = bytes spot) :
    q.Maps base other memory := by
  have kept (start count : Nat) (behind : base ≤ start) : slice other start count = slice bytes start count :=
    slice_congr other start bytes start count fun spot _ => same _ (by omega)
  refine ⟨?_, ?_, fun slot => ?_⟩
  · rw [index, kept _ _ (Nat.le_refl _)]
    exact maps.write
  · rw [index, kept _ _ (Nat.le_add_right _ _)]
    exact maps.read
  · rw [kept _ _ (Nat.le_add_right _ _)]
    exact maps.slots slot

theorem set_seq_word (store : Nat → Byte) (slot : Nat) (seq : Index q.config) :
    slice (patches store (q.setSeq base slot seq)) (base + q.slotOffset slot) q.entrySize = q.emptyWord seq := by
  change slice (patch (patch store (base + q.slotOffset slot) (split q.entrySize 0)) (base + q.slotOffset slot + q.seqOffset)
    (split q.indexBytes seq.toNat)) _ _ = slice (patch (fun _ => 0) q.seqOffset (split q.indexBytes seq.toNat)) 0 q.entrySize
  refine slice_congr _ _ _ _ _ fun spot below => ?_
  by_cases inside : q.seqOffset ≤ spot ∧ spot - q.seqOffset < (split q.indexBytes seq.toNat).length
  · rw [patch_inside _ _ _ _ (by omega) (by omega), patch_inside _ _ _ _ (by omega) (by omega)]
    congr 1
    omega
  · rw [patch_outside (fun _ => 0) q.seqOffset _ _ (by omega),
      patch_outside _ (base + q.slotOffset slot + q.seqOffset) _ _ (by omega),
      patch_inside _ _ _ _ (by omega) (by rw [split_length]; omega)]
    exact split_zero q.entrySize _ (List.getElem_mem _)

-- The constructor of the queue leaves zeros for padding in every slot.
theorem construction_maps (store : Nat → Byte) :
    q.Maps base (patches store (q.construction base)) (Memory.initial q.config q.Data) := by
  have initial := q.construction_initial base store
  refine ⟨congrArg Memory.writeIndex initial, congrArg Memory.readIndex initial, fun slot => ?_⟩
  have narrow := q.entry_inside
  have inside : ∀ slot, ∀ change ∈ q.setSeq base slot (BitVec.ofNat q.config.bits slot <<< 1), q.InSlot base slot change :=
    fun slot => q.set_seq_in_slot base slot _
  rw [construction, patches_append]
  generalize patches store _ = earlier
  have built (count : Nat) (below : slot.val < count) :
      slice (patches earlier ((List.range count).flatMap fun i => q.setSeq base i (BitVec.ofNat q.config.bits i <<< 1)))
        (base + q.slotOffset slot) q.entrySize = q.emptyWord (BitVec.ofNat q.config.bits slot.val <<< 1) := by
    induction count with
    | zero => exact absurd below (Nat.not_lt_zero _)
    | succ count ih =>
        rw [List.range_succ, List.flatMap_append, patches_append]
        by_cases last : slot.val = count
        · rw [← last, List.flatMap_singleton]
          exact q.set_seq_word base _ slot.val _
        · rw [← ih (by omega)]
          exact q.slots_apart base [count] _ inside _ slot.val _ _ (fun member => last (List.mem_singleton.mp member))
            (Nat.le_refl _) (Nat.le_refl _)
  exact (built q.N slot.isLt).trans (q.empty_word _)

end

end Instantiation

end LockfreeQueue
