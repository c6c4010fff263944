import Mathlib.Order.Interval.Finset.Nat
import LockfreeQueue.Reached

set_option autoImplicit false

namespace LockfreeQueue

-- A line of show_entry: the number that the sequence word stands for, as it is and as lap_place.
structure Shown (Data : Type) where
  seqIndex : BitVec 64
  lap : BitVec 64
  place : BitVec 64
  full : Bool
  data : Data

section

variable {config : Config} {Data : Type}

def Entry.showEntry (e : Entry config Data) : Shown Data :=
  let seqIndex := (e.seq >>> 1).setWidth 64
  ⟨seqIndex, seqIndex / BitVec.ofNat 64 config.size, seqIndex % BitVec.ofNat 64 config.size, e.seq &&& 1 != 0, e.data⟩

namespace Memory

-- An unsigned counts the entries with data.
def dataEntriesCount (memory : Memory config Data) : BitVec 32 :=
  (List.finRange config.size).foldl (fun count i => count + ((memory.array i).seq &&& 1).setWidth 32) 0

def effective (index : Index config) : Index config := index &&& ~~~((1 : Index config) <<< (config.bits - 1))

-- The second difference is taken as size_t and stored in an index_type.
def indexDiff (memory : Memory config Data) : Index config :=
  if effective memory.writeIndex ≥ effective memory.readIndex then effective memory.writeIndex - effective memory.readIndex
  else effective memory.writeIndex + BitVec.ofNat config.bits config.size - effective memory.readIndex

end Memory

theorem effective_toNat (index : Index config) : (Memory.effective index).toNat = index.toNat % config.half := by
  have positive := config.bits_positive
  apply Nat.eq_of_testBit_eq
  intro i
  rw [Config.half, Nat.testBit_mod_two_pow, BitVec.testBit_toNat, BitVec.testBit_toNat, Memory.effective, BitVec.getLsbD_and,
    BitVec.getLsbD_not, BitVec.getLsbD_shiftLeft]
  by_cases inside : i < config.bits
  · by_cases below : i < config.bits - 1
    · simp [inside, below]
    · have top : i - (config.bits - 1) = 0 := by omega
      have one : (1 : Index config).getLsbD 0 = true := by
        change (BitVec.ofNat config.bits 1).getLsbD 0 = true
        rw [BitVec.getLsbD_one, decide_eq_true (by omega)]
        rfl
      rw [top, one]
      simp [inside, below]
  · rw [BitVec.getLsbD_of_ge index i (Nat.le_of_not_lt inside)]
    simp

theorem one_toNat (config : Config) : (1 : Index config).toNat = 1 := BitVec.toNat_one (Nat.lt_of_lt_of_le Nat.two_pos config.bits_positive)

theorem tag_even (k : Nat) : config.emptySeq k &&& 1 = 0 := by
  have positive := config.bits_positive
  apply BitVec.eq_of_toNat_eq
  rw [BitVec.toNat_and, Config.emptySeq, Config.number, BitVec.toNat_ofNat, one_toNat, Nat.and_one_is_mod,
    Nat.mod_mod_of_dvd _ (dvd_pow_self 2 (by omega)), Nat.mul_mod_right]
  rfl

theorem tag_odd (k : Nat) : config.fullSeq k &&& 1 = 1 := by
  have positive := config.bits_positive
  apply BitVec.eq_of_toNat_eq
  rw [BitVec.toNat_and, Config.fullSeq, Config.number, BitVec.toNat_ofNat, one_toNat, Nat.and_one_is_mod,
    Nat.mod_mod_of_dvd _ (dvd_pow_self 2 (by omega))]
  omega

-- Either tag gone, what is left is the number of the operation in one bit less.
theorem seq_index (k : Nat) (seq : Index config) (shows : seq = config.emptySeq k ∨ seq = config.fullSeq k) :
    (seq >>> 1).toNat = k % config.half := by
  have modulus := config.modulus_half
  rw [BitVec.toNat_ushiftRight, Nat.shiftRight_eq_div_pow, Nat.pow_one]
  rcases shows with rfl | rfl
  · rw [Config.emptySeq, Config.number, BitVec.toNat_ofNat, modulus, Nat.mul_mod_mul_left]
    omega
  · have positive := config.half_positive
    have below := Nat.mod_lt k positive
    have split : 2 * k + 1 = 2 * (k % config.half) + 1 + 2 * config.half * (k / config.half) := by
      have whole := Nat.mod_add_div k config.half
      rw [Nat.mul_assoc]
      omega
    rw [Config.fullSeq, Config.number, BitVec.toNat_ofNat, modulus, split, Nat.add_mul_mod_self_left, Nat.mod_eq_of_lt (by omega)]
    omega

-- The slots whose number in the window from `base` is below a bound.
theorem window_count (size base bound : Nat) (positive : 0 < size) (upper : bound ≤ base + size) :
    (List.finRange size).countP (fun i => decide (Word.atLeast size base i.val < bound)) = bound - base := by
  have members : (List.finRange size).countP (fun i => decide (Word.atLeast size base i.val < bound)) =
      (Finset.univ.filter fun i : Fin size => Word.atLeast size base i.val < bound).card := by
    rw [List.countP_eq_length_filter]
    rfl
  rw [members, ← Nat.card_Ico]
  refine Finset.card_bij (fun i _ => Word.atLeast size base i.val) ?_ ?_ ?_
  · intro i member
    have below := (Finset.mem_filter.mp member).2
    exact Finset.mem_Ico.mpr ⟨Word.at_least_lower size base i.val, below⟩
  · intro i _ j _ same
    have left := Word.at_least_mod size base i.val positive
    have right := Word.at_least_mod size base j.val positive
    rw [same, right, Nat.mod_eq_of_lt i.isLt, Nat.mod_eq_of_lt j.isLt] at left
    exact Fin.ext left.symm
  · intro k member
    obtain ⟨from_, below⟩ := Finset.mem_Ico.mp member
    have same : Word.atLeast size base (k % size) = k := by
      obtain ⟨first, last, residue⟩ := Word.at_least_spec size base (k % size) positive
      exact Word.window_unique size _ k (residue.trans (Nat.mod_mod k size)) (by omega) (by omega)
    exact ⟨⟨k % size, Nat.mod_lt k positive⟩, Finset.mem_filter.mpr ⟨Finset.mem_univ _, by rw [same]; exact below⟩, same⟩

theorem fold_count {α : Type} (weigh : α → BitVec 32) (counted : α → Bool) (items : List α)
    (each : ∀ item ∈ items, weigh item = if counted item then 1 else 0) (start : BitVec 32) :
    items.foldl (fun count item => count + weigh item) start = start + BitVec.ofNat 32 (items.countP counted) := by
  induction items generalizing start with
  | nil => exact (BitVec.add_zero start).symm
  | cons item rest ih =>
      have others : ∀ other ∈ rest, weigh other = if counted other then 1 else 0 :=
        fun other member => each other (List.mem_cons_of_mem item member)
      rw [List.foldl_cons, ih others, each item (List.mem_cons_self ..), List.countP_cons]
      cases counted item with
      | true => rw [if_pos rfl, if_pos rfl, Nat.add_comm, BitVec.ofNat_add, BitVec.add_assoc]; rfl
      | false =>
          rw [if_neg Bool.false_ne_true, if_neg Bool.false_ne_true]
          exact congrArg (fun sum => sum + BitVec.ofNat 32 (rest.countP counted)) (BitVec.add_zero start)

theorem seq_shows (e : Entry config Data) (width : config.bits ≤ 64) (k : Nat) (shows : e.seq = config.emptySeq k ∨ e.seq = config.fullSeq k) :
    e.showEntry.seqIndex.toNat = k % config.half ∧ e.showEntry.place.toNat = k % config.size := by
  have fits : 2 ^ config.bits ≤ 2 ^ 64 := Nat.pow_le_pow_right (by decide) width
  have wide := config.wide
  have positive := config.size_positive
  have index : e.showEntry.seqIndex.toNat = k % config.half := by
    have bound := (e.seq >>> 1).isLt
    rw [Entry.showEntry, BitVec.toNat_setWidth, Nat.mod_eq_of_lt (by omega)]
    exact seq_index k e.seq shows
  refine ⟨index, ?_⟩
  change (e.showEntry.seqIndex % BitVec.ofNat 64 config.size).toNat = _
  have small : config.size % 2 ^ 64 = config.size := Nat.mod_eq_of_lt (by omega)
  rw [BitVec.toNat_umod, index, BitVec.toNat_ofNat, small, Nat.mod_mod_of_dvd k config.size_dvd_half]

theorem full_shows (e : Entry config Data) (k : Nat) (full : e.seq = config.fullSeq k) : e.showEntry.full = true := by
  have different : (1 : Index config) ≠ 0 := fun same => absurd (congrArg BitVec.toNat same) (by rw [one_toNat]; simp)
  rw [Entry.showEntry, full, tag_odd]
  simpa using different

theorem empty_shows (e : Entry config Data) (k : Nat) (empty : e.seq = config.emptySeq k) : e.showEntry.full = false := by
  rw [Entry.showEntry, empty, tag_even]
  simp

variable [Zero Data] (memory : Memory config Data) (queue : Fifo Data config.size) (written consumed : Nat)

-- What the slot of operation k shows: its element, or that it waits for the push of that number.
theorem slot_shows (represents : Represents memory queue written consumed) (k : Nat) (lower : queue.first ≤ k)
    (upper : k < queue.first + config.size) (place : Fin config.size) (slot : place.val = k % config.size) :
    ((memory.array place).seq = config.emptySeq k ∨ (memory.array place).seq = config.fullSeq k) ∧
      ((memory.array place).showEntry.full = true ↔ k < queue.total) ∧
      queue.get? k = if (memory.array place).showEntry.full then some (memory.array place).showEntry.data else none := by
  rw [entry_place memory k place slot]
  by_cases held : k < queue.total
  · obtain ⟨v, value⟩ := Fifo.get_of_bounds queue k lower held
    have stored := represents.full k v value
    have full := full_shows (memory.entry (config.number k)) k (by rw [stored])
    refine ⟨.inr (by rw [stored]), iff_of_true full held, ?_⟩
    rw [full, value, if_pos rfl, stored]
    rfl
  · have stored := represents.empty k (Nat.le_of_not_lt held) upper
    have empty := empty_shows (memory.entry (config.number k)) k (by rw [stored])
    refine ⟨.inl (by rw [stored]), iff_of_false (by rw [empty]; exact Bool.false_ne_true) held, ?_⟩
    rw [empty, if_neg Bool.false_ne_true]
    cases value : queue.get? k with
    | none => rfl
    | some v => exact absurd (Fifo.get_bounds queue k v value).2 held

theorem data_entries_count (represents : Represents memory queue written consumed) (short : config.size < 2 ^ 32) :
    memory.dataEntriesCount.toNat = queue.items.length := by
  have positive := config.size_positive
  have bounded := queue.bounded
  have each : ∀ i ∈ List.finRange config.size, ((memory.array i).seq &&& 1).setWidth 32 =
      if decide (Word.atLeast config.size queue.first i.val < queue.total) then 1 else 0 := by
    intro i _
    obtain ⟨lower, upper, residue⟩ := Word.at_least_spec config.size queue.first i.val positive
    have slot : i.val = Word.atLeast config.size queue.first i.val % config.size := by rw [residue, Nat.mod_eq_of_lt i.isLt]
    obtain ⟨shows, full, _⟩ := slot_shows memory queue written consumed represents _ lower upper i slot
    rcases shows with empty | filled
    · have free := empty_shows (memory.array i) _ empty
      have beyond : ¬ Word.atLeast config.size queue.first i.val < queue.total := fun held => by rw [full.mpr held] at free; cases free
      rw [empty, tag_even, decide_eq_false beyond]
      exact BitVec.eq_of_toNat_eq (BitVec.toNat_setWidth ..)
    · have held := full.mp (full_shows (memory.array i) _ filled)
      rw [filled, tag_odd, decide_eq_true held]
      exact BitVec.eq_of_toNat_eq (by rw [BitVec.toNat_setWidth, one_toNat]; rfl)
  have window := window_count config.size queue.first queue.total positive (Fifo.total_bound queue).2
  rw [Memory.dataEntriesCount, fold_count _ _ _ each, window, Fifo.total, Nat.add_sub_cancel_left]
  change (0#32 + _).toNat = _
  rw [BitVec.zero_add, BitVec.toNat_ofNat, Nat.mod_eq_of_lt (by omega)]

end

section

variable {config : Config} {Data : Type} (memory : Memory config Data)

-- The difference of the two indices is right where both have lost the same multiple of `half`, and
-- nowhere else: the second one adds the size of the array for the `half` that the write index has
-- lost.
theorem index_diff_exact (written consumed : Nat) (write : memory.writeIndex = config.number written)
    (read : memory.readIndex = config.number consumed) (lower : consumed ≤ written) (near : written - consumed < config.half) :
    memory.indexDiff.toNat + consumed = written ↔ consumed % config.half ≤ written % config.half := by
  have modulus := config.modulus_half
  have fits := config.size_half
  have size := config.size_positive
  have effective (k : Nat) : (Memory.effective (config.number k)).toNat = k % config.half := by
    rw [effective_toNat, Config.number, BitVec.toNat_ofNat, modulus, Nat.mod_mul_left_mod]
  have wraps := Word.add_mod_cases config.half consumed (written - consumed) near
  rw [Nat.add_sub_cancel' lower] at wraps
  have writeBound := Nat.mod_lt written config.half_positive
  have readBound := Nat.mod_lt consumed config.half_positive
  rw [Memory.indexDiff, write, read]
  by_cases ordered : Memory.effective (config.number written) ≥ Memory.effective (config.number consumed)
  · have order : consumed % config.half ≤ written % config.half := by
      rw [← effective, ← effective]
      exact BitVec.le_def.mp ordered
    rw [if_pos ordered, BitVec.toNat_sub_of_le ordered, effective, effective]
    omega
  · have order : written % config.half < consumed % config.half := by
      rw [← effective, ← effective]
      exact Nat.lt_of_not_le fun least => ordered (BitVec.le_def.mpr least)
    have word : config.size % 2 ^ config.bits = config.size := Nat.mod_eq_of_lt (by omega)
    have sum : (written % config.half + config.size) % 2 ^ config.bits = written % config.half + config.size := Nat.mod_eq_of_lt (by omega)
    rw [if_neg ordered, BitVec.toNat_sub, BitVec.toNat_add, effective, effective, BitVec.toNat_ofNat, word, sum]
    refine iff_of_false (fun same => ?_) (Nat.not_le_of_lt order)
    by_cases borrow : written % config.half + config.size < consumed % config.half
    · rw [Nat.mod_eq_of_lt (by omega)] at same
      omega
    · rw [Nat.mod_eq_sub_mod (by omega), Nat.mod_eq_of_lt (by omega)] at same
      omega

variable [DecidableEq Data] [Zero Data]

-- dump_state in any reachable state: it counts the elements, and shows each of them in its slot
-- and every other slot as waiting for the push of its next number. The size is less than 2 ^ 32,
-- as otherwise its loops, which count in an unsigned, do not end.
theorem dump_exact (system : System config Data) (reached : System.Reached Unrestricted system) (width : 8 ≤ config.bits ∧ config.bits ≤ 64)
    (short : config.size < 2 ^ 32) :
    ∃ queue, contents system.log = some queue ∧ system.memory.dataEntriesCount.toNat = queue.items.length ∧
      (∀ k, queue.first ≤ k → k < queue.first + config.size → ∀ place : Fin config.size, place.val = k % config.size →
        (system.memory.array place).showEntry.seqIndex.toNat = k % config.half ∧
        (system.memory.array place).showEntry.place.toNat = place.val ∧
        queue.get? k =
          if (system.memory.array place).showEntry.full then some (system.memory.array place).showEntry.data else none) ∧
      (reads system.log ≤ writes system.log → (system.memory.indexDiff.toNat + reads system.log = writes system.log ↔
        reads system.log % config.half ≤ writes system.log % config.half)) := by
  obtain ⟨queue, legal, represents⟩ := (invariant_reached Unrestricted system reached).holds
  refine ⟨queue, legal, data_entries_count system.memory queue _ _ represents short, fun k lower upper place slot => ?_, fun ordered => ?_⟩
  · obtain ⟨shows, _, value⟩ := slot_shows system.memory queue _ _ represents k lower upper place slot
    obtain ⟨index, shown⟩ := seq_shows (system.memory.array place) width.2 k shows
    exact ⟨index, shown.trans slot.symm, value⟩
  · have bound := Fifo.total_bound queue
    have write := represents.writeLag
    have read := represents.readLag
    have fits := config.size_half
    have wide : 2 ^ 8 ≤ 2 ^ config.bits := Nat.pow_le_pow_right Nat.two_pos width.1
    rw [config.modulus_half] at wide
    exact index_diff_exact system.memory _ _ represents.write represents.read ordered (by omega)

end

-- Two slots with an element that the write index has not been moved on for.
theorem dump_exact_stored :
    let system := (System.checked Unrestricted storedThenExchanged).get stored_then_exchanged_runs
    system.memory.dataEntriesCount.toNat = 1 ∧ (system.memory.array ⟨1, Nat.one_lt_two⟩).showEntry.seqIndex.toNat = 1 := by
  intro system
  have reached : System.Reached Unrestricted system := reached_checked Unrestricted storedThenExchanged stored_then_exchanged_runs
  have counts : (contents system.log).map Fifo.items = some [9] ∧ takes system.log = 0 := by decide +kernel
  clear_value system
  obtain ⟨queue, legal, count, shown, _⟩ := dump_exact system reached (by decide) (by decide)
  rw [legal] at counts
  have items : queue.items = [9] := Option.some.inj counts.1
  have first : queue.first = 0 := (contents_counts system.log queue legal).2.trans counts.2
  rw [items] at count
  refine ⟨count, (shown 1 (by omega) (by rw [first]; exact Nat.one_lt_two) _ rfl).1⟩

end LockfreeQueue
