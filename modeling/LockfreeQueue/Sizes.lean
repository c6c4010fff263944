import LockfreeQueue.Histories

set_option autoImplicit false

namespace LockfreeQueue

namespace Memory

variable {config : Config} {Data : Type} (memory : Memory config Data)

def isEmpty : Bool := (memory.entry memory.readIndex).seq == memory.readIndex <<< 1

-- size_t has 64 bits: the first difference is taken in the narrower index_type, the second one
-- after the index has been widened by adding the size_t of the array.
def size : BitVec 64 :=
  if memory.isEmpty then 0
  else if memory.writeIndex ≥ memory.readIndex then (memory.writeIndex - memory.readIndex).setWidth 64
  else memory.writeIndex.setWidth 64 + BitVec.ofNat 64 config.size - memory.readIndex.setWidth 64

end Memory

section

variable {config : Config} {Data : Type}

theorem size_ordered (memory : Memory config Data) (held : memory.isEmpty = false) (width : config.bits ≤ 64)
    (ordered : memory.readIndex ≤ memory.writeIndex) :
    memory.size.toNat = memory.writeIndex.toNat - memory.readIndex.toNat := by
  have fits : 2 ^ config.bits ≤ 2 ^ 64 := Nat.pow_le_pow_right (by decide) width
  have bound := memory.writeIndex.isLt
  rw [Memory.size, held, if_neg Bool.false_ne_true, if_pos ordered, BitVec.toNat_setWidth, BitVec.toNat_sub_of_le ordered]
  exact Nat.mod_eq_of_lt (by omega)

theorem size_wrapped (memory : Memory config Data) (held : memory.isEmpty = false) (width : config.bits ≤ 64)
    (wrapped : ¬ memory.readIndex ≤ memory.writeIndex) :
    memory.size.toNat = (memory.writeIndex.toNat + config.size + 2 ^ 64 - memory.readIndex.toNat) % 2 ^ 64 := by
  have fits : 2 ^ config.bits ≤ 2 ^ 64 := Nat.pow_le_pow_right (by decide) width
  have high := memory.readIndex.isLt
  have low := memory.writeIndex.isLt
  have wide := config.wide
  have positive := config.size_positive
  rw [Memory.size, held, if_neg Bool.false_ne_true, if_neg wrapped]
  simp only [BitVec.toNat_sub, BitVec.toNat_add, BitVec.toNat_setWidth, BitVec.toNat_ofNat]
  omega

-- The elements pushed less those popped, and never more than the capacity.
def SizeExact (memory : Memory config Data) (pushed popped : Nat) : Prop :=
  memory.size.toNat + popped = pushed ∧ memory.size.toNat ≤ config.size

variable [Zero Data] (memory : Memory config Data) (queue : Fifo Data config.size)

theorem empty_head (settled : Settled memory queue) (current : memory.readIndex = config.number queue.first) :
    memory.isEmpty = true ↔ queue.total = queue.first := by
  obtain ⟨written, consumed, represents, _, _⟩ := settled
  have here := (read_current_iff memory queue written consumed represents).mp current
  rw [Memory.isEmpty, beq_iff_eq, represents.read, config.number_shift]
  rcases head_entry memory queue written consumed represents here with ⟨v, next, popped, entry⟩ | ⟨popped, entry⟩
  · have held : queue.total ≠ queue.first := fun emptied => by rw [(Fifo.pop_none queue).mpr emptied] at popped; cases popped
    rw [entry]
    exact ⟨fun hit => absurd hit (config.empty_ne_full _ _).symm, fun emptied => absurd emptied held⟩
  · rw [entry]
    exact ⟨fun _ => (Fifo.pop_none queue).mp popped, fun _ => rfl⟩

-- The second difference adds the size of the array where the index has lost a whole 2 ^ bits, so
-- it is wrong wherever it is taken.
theorem size_eager (settled : Settled memory queue) (width : config.bits ≤ 64) (pushEager : config.lazyPush = false)
    (popEager : config.lazyPop = false) : memory.size.toNat = queue.items.length ↔ memory.readIndex ≤ memory.writeIndex := by
  have read := settled_read memory queue settled popEager
  have write := settled_write memory queue settled pushEager
  have head := empty_head memory queue settled read
  have positive := config.size_positive
  have wide := config.wide
  have bound := queue.bounded
  have fits : 2 ^ config.bits ≤ 2 ^ 64 := Nat.pow_le_pow_right (by decide) width
  have wraps := Word.add_mod_cases (2 ^ config.bits) queue.first queue.items.length (by omega)
  have readNat : memory.readIndex.toNat = queue.first % 2 ^ config.bits := by rw [read, Config.number, BitVec.toNat_ofNat]
  have writeNat : memory.writeIndex.toNat = (queue.first + queue.items.length) % 2 ^ config.bits := by
    rw [write, Config.number, BitVec.toNat_ofNat, Fifo.total]
  rw [Fifo.total] at head
  rw [← readNat, ← writeNat] at wraps
  cases emptied : memory.isEmpty with
  | true =>
      have none := head.mp emptied
      have ordered : memory.readIndex ≤ memory.writeIndex := by rw [BitVec.le_def]; omega
      rw [Memory.size, emptied, if_pos rfl]
      exact ⟨fun _ => ordered, fun _ => by change 0 = _; omega⟩
  | false =>
      have held : queue.items.length ≠ 0 := fun none => by rw [head.mpr (by omega)] at emptied; cases emptied
      by_cases ordered : memory.readIndex ≤ memory.writeIndex
      · rw [size_ordered memory emptied width ordered]
        rw [BitVec.le_def] at ordered
        exact ⟨fun _ => ordered, fun _ => by omega⟩
      · rw [size_wrapped memory emptied width ordered]
        have high := memory.readIndex.isLt
        refine ⟨fun same => ?_, fun same => absurd same ordered⟩
        rw [BitVec.le_def] at ordered
        omega

theorem size_exact_settled (settled : Settled memory queue) (width : config.bits = 32 ∨ config.bits = 64)
    (pushEager : config.lazyPush = false) (popEager : config.lazyPop = false) :
    SizeExact memory queue.total queue.first ↔ memory.readIndex ≤ memory.writeIndex := by
  have bound := queue.bounded
  rw [← size_eager memory queue settled (by omega) pushEager popEager, SizeExact, Fifo.total]
  omega

variable [DecidableEq Data]

theorem size_exact_iff (calls : List (Call config Data)) (replies : List (Reply config Data))
    (run : History (Memory.initial config Data) calls replies memory) (single : ∀ call ∈ calls, call.single = true)
    (width : config.bits = 32 ∨ config.bits = 64) (pushEager : config.lazyPush = false) (popEager : config.lazyPop = false) :
    SizeExact memory (pushes calls replies) (pops calls replies) ↔ memory.readIndex ≤ memory.writeIndex := by
  obtain ⟨total, first⟩ := reached_counts memory calls replies run
  rw [← total, ← first single]
  exact size_exact_settled memory (after calls) (reached_settled memory calls replies run) width pushEager popEager

end

theorem size_exact_two : ∃ replies memory, History (Memory.initial smallQueue Nat) [.push 1, .push 2] replies memory ∧
    SizeExact memory (pushes [.push 1, .push 2] replies) (pops [.push 1, .push 2] replies) := by
  obtain ⟨first, middle, one⟩ := reached_call (Memory.initial smallQueue Nat) [] [] (.push 1) (.done _) rfl
  obtain ⟨second, memory, two⟩ := reached_call middle _ _ (.push 2) one rfl
  have settled := reached_settled memory _ _ two
  refine ⟨_, memory, two, (size_exact_iff memory _ _ two (by decide) (.inl rfl) rfl rfl).mpr ?_⟩
  rw [settled_read memory _ settled rfl, settled_write memory _ settled rfl]
  decide

-- n elements pushed and popped again, and two more pushed.
def agedCalls (n : Nat) : List (Call smallQueue Nat) := pairs 0 n ++ [.push 1] ++ [.push 2]

theorem aged_after (n : Nat) : (after (agedCalls n)).first = n ∧ (after (agedCalls n)).items = [1, 2] := by
  obtain ⟨first, emptied⟩ := @pairs_after smallQueue Nat _ 0 n
  rw [agedCalls, after, afterwards_append, afterwards_append, ← after]
  generalize after (pairs 0 n) = queue at first emptied
  obtain ⟨same, items⟩ := push_effect queue 1 (by rw [emptied]; decide)
  rw [emptied, List.nil_append] at items
  obtain ⟨again, both⟩ := @push_effect smallQueue Nat _ ((Call.push 1).effect queue) 2 (by rw [items]; decide)
  rw [items] at both
  exact ⟨(again.trans same).trans first, both⟩

theorem aged_reached (n : Nat) : ∃ replies memory, History (Memory.initial smallQueue Nat) (agedCalls n) replies memory ∧
    memory.readIndex = smallQueue.number n ∧ memory.writeIndex = smallQueue.number (n + 2) := by
  obtain ⟨replies, before, aged, _⟩ := @pairs_run smallQueue Nat _ _ 0 n
  obtain ⟨first, middle, one⟩ := reached_call before _ replies (.push 1) aged rfl
  obtain ⟨second, memory, two⟩ := reached_call middle _ _ (.push 2) one rfl
  have settled := reached_settled memory (agedCalls n) _ two
  obtain ⟨head, items⟩ := aged_after n
  have read := settled_read memory _ settled rfl
  have write := settled_write memory _ settled rfl
  rw [head] at read
  rw [Fifo.total, head, items] at write
  exact ⟨_, memory, two, read, write⟩

-- 2 ^ 32 + 1 pushes: the write index has wrapped and the read index has not, and the two elements
-- held are counted as 2 ^ 64 - 2 ^ 32 + 4.
theorem size_exact_wrapped : ∃ replies memory, History (Memory.initial smallQueue Nat) (agedCalls (2 ^ 32 - 1)) replies memory ∧
    (after (agedCalls (2 ^ 32 - 1))).items = [1, 2] ∧
      memory.size.toNat = 2 ^ 64 - 2 ^ 32 + 4 ∧
      ¬ SizeExact memory (pushes (agedCalls (2 ^ 32 - 1)) replies) (pops (agedCalls (2 ^ 32 - 1)) replies) := by
  obtain ⟨replies, memory, run, read, write⟩ := aged_reached (2 ^ 32 - 1)
  have settled := reached_settled memory _ replies run
  obtain ⟨first, items⟩ := aged_after (2 ^ 32 - 1)
  have wrapped : ¬ memory.readIndex ≤ memory.writeIndex := by rw [read, write]; decide
  have held : memory.isEmpty = false := by
    have head := empty_head memory _ settled (settled_read memory _ settled rfl)
    rw [← Bool.not_eq_true, head, Fifo.total, items]
    exact Nat.ne_of_gt (Nat.lt_add_of_pos_right (by decide))
  have value : memory.size.toNat = 2 ^ 64 - 2 ^ 32 + 4 := by
    rw [size_wrapped memory held (by decide) wrapped, read, write]
    decide
  refine ⟨replies, memory, run, items, value, fun exact => ?_⟩
  have bounded : memory.size.toNat ≤ 2 := exact.2
  omega

end LockfreeQueue
