import LockfreeQueue.Library.Fifo
import LockfreeQueue.Branches

set_option autoImplicit false

namespace LockfreeQueue

-- The memory holds the abstract queue: the element of operation k lies in slot k mod size under
-- the full sequence of k, every other slot is zero under the empty sequence of its next push,
-- and each shared index is at most one operation behind its end of the queue.
structure Represents {config : Config} {Data : Type} [Zero Data] (memory : Memory config Data)
    (queue : Fifo Data config.size) (written consumed : Nat) : Prop where
  full : ∀ k v, queue.get? k = some v → memory.entry (config.number k) = ⟨v, config.fullSeq k⟩
  empty : ∀ k, queue.total ≤ k → k < queue.first + config.size →
    memory.entry (config.number k) = ⟨0, config.emptySeq k⟩
  write : memory.writeIndex = config.number written
  writeLag : written ≤ queue.total ∧ queue.total ≤ written + 1
  read : memory.readIndex = config.number consumed
  readLag : consumed ≤ queue.first ∧ queue.first ≤ consumed + 1

section

variable {config : Config} {Data : Type} (memory : Memory config Data) (queue next : Fifo Data config.size)
variable (written consumed x : Nat)

theorem entry_congr (a b : Nat) (same : a % config.size = b % config.size) :
    memory.entry (config.number a) = memory.entry (config.number b) := by
  rw [Memory.entry, Memory.entry, (config.slot_number_iff a b).mpr same]

theorem entry_place (k : Nat) (place : Fin config.size) (slot : place.val = k % config.size) :
    memory.array place = memory.entry (config.number k) := by
  rw [Memory.entry]
  congr 1
  exact Fin.ext (slot.trans (config.slot_number k).symm)

theorem entry_number_set (a b : Nat) (value : Entry config Data) :
    (memory.setEntry (config.number a) value).entry (config.number b) =
      if b % config.size = a % config.size then value else memory.entry (config.number b) := by
  by_cases same : b % config.size = a % config.size
  · rw [if_pos same, entry_congr _ b a same, Memory.entry_set_same]
  · rw [if_neg same, Memory.entry_set_other]
    exact fun slots => same ((config.slot_number_iff b a).mp slots)

theorem exchange_entry (i : Index config) (v : Data) :
    (⟨v, (i <<< 1) ||| 1⟩ : Entry config Data) = ⟨v, config.fullSeq i.toNat⟩ := by
  rw [← config.empty_seq_tag, ← config.number_shift, config.number_toNat]

variable [Zero Data]

theorem represents_initial : Represents (Memory.initial config Data) Fifo.empty 0 0 := by
  refine ⟨by simp, ?_, rfl, ⟨Nat.le_refl 0, Nat.zero_le 1⟩, rfl, ⟨Nat.le_refl 0, Nat.zero_le 1⟩⟩
  intro k _ small
  have slot : (config.slot (config.number k)).val = k := by
    rw [config.slot_number, Nat.mod_eq_of_lt (by simpa using small)]
  simp only [Memory.entry, Memory.initial, slot]
  rw [← config.number_shift, Config.number]

theorem slot_cases (represents : Represents memory queue written consumed) :
    ∃ k, queue.first ≤ k ∧ k < queue.first + config.size ∧ k % config.size = x % config.size ∧
      ((k < queue.total ∧ ∃ v, queue.get? k = some v ∧ memory.entry (config.number x) = ⟨v, config.fullSeq k⟩) ∨
        (queue.total ≤ k ∧ memory.entry (config.number x) = ⟨0, config.emptySeq k⟩)) := by
  obtain ⟨lower, upper, slot⟩ := Word.at_least_spec config.size queue.first x config.size_positive
  generalize Word.atLeast config.size queue.first x = k at slot lower upper
  refine ⟨k, lower, upper, slot, ?_⟩
  rw [← entry_congr memory k x slot]
  rcases Nat.lt_or_ge k queue.total with held | free
  · obtain ⟨v, value⟩ := Fifo.get_of_bounds queue k lower held
    exact .inl ⟨held, v, value, represents.full k v value⟩
  · exact .inr ⟨free, represents.empty k free upper⟩

theorem fill_sound (represents : Represents memory queue written consumed) (behind : x ≤ queue.total)
    (fresh : queue.total + config.size ≤ x + config.half)
    (hit : memory.entry (config.number x) = ⟨0, config.number x <<< 1⟩) :
    x = queue.total ∧ queue.total < queue.first + config.size := by
  have bound := Fifo.total_bound queue
  obtain ⟨k, lower, upper, _, ⟨held, v, _, stored⟩ | ⟨free, stored⟩⟩ := slot_cases memory queue written consumed x represents
  · rw [stored, config.number_shift] at hit
    exact absurd (congrArg Entry.seq hit).symm (config.empty_ne_full x k)
  · rw [stored, config.number_shift] at hit
    have same := (empty_seq_window config k x (by omega) (by omega)).mp (congrArg Entry.seq hit)
    omega

theorem fill_complete (represents : Represents memory queue written consumed)
    (room : queue.total < queue.first + config.size) :
    memory.entry (config.number queue.total) = ⟨0, config.number queue.total <<< 1⟩ := by
  rw [represents.empty queue.total (Nat.le_refl _) room, config.number_shift]

theorem store_represents (d : Data) (represents : Represents memory queue written consumed) (current : written = queue.total)
    (pushed : queue.push? d = some next) :
    Represents (memory.setEntry (config.number queue.total) ⟨d, (config.number queue.total <<< 1) ||| 1⟩) next written consumed := by
  obtain ⟨room, first, _⟩ := Fifo.push_items queue next d pushed
  have total := Fifo.push_total queue next d pushed
  have get := Fifo.push_get queue next d pushed
  have bound := Fifo.total_bound queue
  have capacity := Fifo.total_bound next
  have lag := represents.readLag
  refine ⟨?_, ?_, represents.write, by omega, represents.read, by omega⟩
  · intro k v held
    rw [entry_number_set]
    rw [get] at held
    by_cases last : k = queue.total
    · rw [if_pos last] at held
      rw [last, if_pos rfl, config.number_shift, config.empty_seq_tag, Option.some.inj held]
    · rw [if_neg last] at held
      have inside := Fifo.get_bounds queue k v held
      rw [if_neg, represents.full k v held]
      exact fun slots => last (Word.window_unique config.size k _ slots (by omega) (by omega))
  · intro k lower upper
    rw [entry_number_set, if_neg, represents.empty k (by omega) (by omega)]
    intro slots
    have same := Word.window_unique config.size k queue.total slots (by omega) (by omega)
    omega

theorem take_sound (e : Entry config Data) (represents : Represents memory queue written consumed) (behind : x ≤ queue.first)
    (fresh : queue.first + config.size ≤ x + config.half) (full : e.seq = config.fullSeq x)
    (hit : memory.entry (config.number x) = e) : x = queue.first ∧ queue.get? queue.first = some e.data := by
  obtain ⟨k, lower, upper, _, ⟨held, v, value, stored⟩ | ⟨free, stored⟩⟩ := slot_cases memory queue written consumed x represents
  · rw [stored] at hit
    subst hit
    have same := (full_seq_window config k x (by omega) (by omega)).mp full
    have head : k = queue.first := by omega
    exact ⟨by omega, by rw [← head]; exact value⟩
  · rw [stored] at hit
    subst hit
    exact absurd full (config.empty_ne_full k x)

theorem take_represents (v : Data) (represents : Represents memory queue written consumed) (current : consumed = queue.first)
    (popped : queue.pop? = some (v, next)) :
    Represents (memory.setEntry (config.number queue.first) ⟨0, (config.number queue.first + config.sizeWord) <<< 1⟩)
      next written consumed := by
  obtain ⟨_, first⟩ := Fifo.pop_items queue next v popped
  have total := Fifo.pop_total queue next v popped
  have get := Fifo.pop_get queue next v popped
  have bound := Fifo.total_bound queue
  have rest := Fifo.total_bound next
  have lag := represents.writeLag
  refine ⟨?_, ?_, represents.write, by omega, represents.read, by omega⟩
  · intro k v held
    have inside := Fifo.get_bounds next k v held
    have elsewhere : k ≠ queue.first := by omega
    rw [get, if_neg elsewhere] at held
    rw [entry_number_set, if_neg, represents.full k v held]
    exact fun slots => elsewhere (Word.window_unique config.size k queue.first slots (by omega) (by omega))
  · intro k lower upper
    rw [entry_number_set]
    by_cases lap : k = queue.first + config.size
    · rw [lap, if_pos (Nat.add_mod_right _ _), number_add_size, config.number_shift]
    · rw [if_neg, represents.empty k (by omega) (by omega)]
      intro slots
      have same := Word.window_unique config.size k queue.first slots (by omega) (by omega)
      omega

theorem exchange_iff (i : Index config) (k : Nat) (old : Data) (represents : Represents memory queue written consumed)
    (residue : k % config.half = i.toNat % config.half) (lower : queue.first ≤ k) (upper : k < queue.first + config.half) :
    memory.entry i = ⟨old, (i <<< 1) ||| 1⟩ ↔ queue.get? k = some old := by
  have slots := Word.mod_of_dvd config.half config.size k i.toNat config.size_dvd_half residue
  have here : memory.entry (config.number k) = memory.entry i := by
    rw [entry_congr memory k i.toNat slots, config.number_toNat]
  have fits := config.size_half
  rw [exchange_entry, ← (config.full_seq_iff k i.toNat).mpr residue, ← here]
  constructor
  · intro hit
    obtain ⟨j, low, high, _, ⟨held, v, value, stored⟩ | ⟨free, stored⟩⟩ := slot_cases memory queue written consumed k represents
    · rw [stored] at hit
      have same := (full_seq_window config j k (by omega) (by omega)).mp (congrArg Entry.seq hit)
      have data : v = old := congrArg Entry.data hit
      rw [← same, value, data]
    · rw [stored] at hit
      exact absurd (congrArg Entry.seq hit) (config.empty_ne_full j k)
  · exact represents.full k old

theorem swap_represents [DecidableEq Data] (i : Index config) (k : Nat) (old new : Data)
    (represents : Represents memory queue written consumed) (residue : k % config.half = i.toNat % config.half)
    (replaced : queue.replace? k old new = some next) :
    Represents (memory.setEntry i ⟨new, (i <<< 1) ||| 1⟩) next written consumed := by
  obtain ⟨held, first, _⟩ := Fifo.replace_fields queue next k old new replaced
  have total := Fifo.replace_total queue next k old new replaced
  have get := Fifo.replace_get queue next k old new replaced
  have inside := Fifo.get_bounds queue k old held
  have bound := Fifo.total_bound queue
  have slots := Word.mod_of_dvd config.half config.size k i.toNat config.size_dvd_half residue
  have write := represents.writeLag
  have read := represents.readLag
  rw [exchange_entry, ← (config.full_seq_iff k i.toNat).mpr residue]
  have same : memory.setEntry i = memory.setEntry (config.number k) := by
    funext value
    rw [Memory.setEntry, Memory.setEntry, (config.slot_number_iff k i.toNat).mpr slots, config.number_toNat]
  rw [same]
  refine ⟨?_, ?_, represents.write, by omega, represents.read, by omega⟩
  · intro j v present
    rw [get] at present
    rw [entry_number_set]
    by_cases here : j = k
    · rw [if_pos here] at present
      rw [here, if_pos rfl, Option.some.inj present]
    · rw [if_neg here] at present
      have window := Fifo.get_bounds queue j v present
      rw [if_neg, represents.full j v present]
      exact fun meets => here (Word.window_unique config.size j k meets (by omega) (by omega))
  · intro j lower upper
    rw [entry_number_set, if_neg, represents.empty j (by omega) (by omega)]
    intro meets
    have equal := Word.window_unique config.size j k meets (by omega) (by omega)
    omega

-- The slot that the read index addresses holds the head, or the read index is one behind and the
-- slot is already a lap ahead of it.
theorem head_entry (represents : Represents memory queue written consumed) (current : consumed = queue.first) :
    (∃ v next, queue.pop? = some (v, next) ∧ memory.entry (config.number consumed) = ⟨v, config.fullSeq consumed⟩) ∨
      (queue.pop? = none ∧ memory.entry (config.number consumed) = ⟨0, config.emptySeq consumed⟩) := by
  have positive := config.size_positive
  cases popped : queue.pop? with
  | none =>
      have emptied := (Fifo.pop_none queue).mp popped
      exact .inr ⟨rfl, represents.empty consumed (by omega) (by omega)⟩
  | some pair =>
      obtain ⟨v, next⟩ := pair
      refine .inl ⟨v, next, rfl, represents.full consumed v ?_⟩
      rw [current]
      exact Fifo.pop_head queue next v popped

theorem lap_entry (represents : Represents memory queue written consumed) (behind : consumed < queue.first) :
    (memory.entry (config.number consumed)).seq = config.fullSeq (consumed + config.size) ∨
      (memory.entry (config.number consumed)).seq = config.emptySeq (consumed + config.size) := by
  have lag := represents.readLag
  have positive := config.size_positive
  obtain ⟨k, lower, upper, slot, held⟩ := slot_cases memory queue written consumed consumed represents
  have lap : k = consumed + config.size :=
    Word.window_unique config.size k _ (by rw [Nat.add_mod_right, slot]) (by omega) (by omega)
  subst lap
  rcases held with ⟨_, v, _, stored⟩ | ⟨_, stored⟩
  · exact .inl (by rw [stored])
  · exact .inr (by rw [stored])

theorem read_current_iff (represents : Represents memory queue written consumed) :
    memory.readIndex = config.number queue.first ↔ consumed = queue.first := by
  have lag := represents.readLag
  have positive := config.half_positive
  rw [represents.read]
  constructor
  · intro same
    exact (config.number_injective queue.first consumed same.symm lag.1 (by omega)).symm
  · intro current
    rw [current]

-- Where peek and pop_if can leave their loop: the read index is at the head of the queue, or the
-- lap that it is behind has a number whose top bit is clear.
def Memory.Visible {config : Config} {Data : Type} (memory : Memory config Data) (first : Nat) : Prop :=
  memory.readIndex = config.number first ∨ (memory.readIndex + config.sizeWord).msb = false

theorem peek_behind (represents : Represents memory queue written consumed) (behind : consumed < queue.first) :
    memory.Visible queue.first ∧
        peekBranch config (config.number consumed) (memory.entry (config.number consumed)).seq = .advance ∨
      ¬ memory.Visible queue.first ∧
        peekBranch config (config.number consumed) (memory.entry (config.number consumed)).seq = .retry := by
  have positive := config.size_positive
  have fits := config.size_half
  have shifted := shifted_lap_iff config (consumed + config.size)
  have clear : memory.Visible queue.first ↔ (config.number (consumed + config.size)).msb = false := by
    rw [Memory.Visible, read_current_iff memory queue written consumed represents, represents.read, number_add_size]
    exact or_iff_right (Nat.ne_of_lt behind)
  have branch : peekBranch config (config.number consumed) (memory.entry (config.number consumed)).seq =
      if (config.number (consumed + config.size)).msb = false then .advance else .retry := by
    rcases lap_entry memory queue written consumed represents behind with entry | entry
    · rw [entry, peek_branch_full config consumed _ (by omega) (by omega), if_neg (by omega)]
      simp only [shifted]
    · rw [entry, peek_branch_empty config consumed _ (by omega) (by omega), if_neg (by omega)]
      simp only [shifted]
  rw [branch, clear]
  by_cases top : (config.number (consumed + config.size)).msb = false
  · exact .inl ⟨top, if_pos top⟩
  · exact .inr ⟨top, if_neg top⟩

theorem peek_lap (represents : Represents memory queue written consumed) (behind : consumed < queue.first)
    (visible : memory.Visible queue.first) :
    peekBranch config (config.number consumed) (memory.entry (config.number consumed)).seq = .advance := by
  rcases peek_behind memory queue written consumed represents behind with ⟨_, branch⟩ | ⟨hidden, _⟩
  · exact branch
  · exact absurd visible hidden

theorem peek_lost (represents : Represents memory queue written consumed) (hidden : ¬ memory.Visible queue.first) :
    peekBranch config (config.number consumed) (memory.entry (config.number consumed)).seq = .retry := by
  have lag := represents.readLag
  have behind : consumed ≠ queue.first := fun current =>
    hidden (.inl ((read_current_iff memory queue written consumed represents).mpr current))
  rcases peek_behind memory queue written consumed represents (by omega) with ⟨visible, _⟩ | ⟨_, branch⟩
  · exact absurd visible hidden
  · exact branch

theorem low_visible (represents : Represents memory queue written consumed) (low : queue.first + config.size ≤ config.half) :
    memory.Visible queue.first := by
  have lag := represents.readLag
  by_cases current : consumed = queue.first
  · exact .inl ((read_current_iff memory queue written consumed represents).mpr current)
  · refine .inr ?_
    rw [represents.read, number_add_size, config.number_low_iff, Nat.mod_eq_of_lt (by omega)]
    omega

theorem peek_head (represents : Represents memory queue written consumed) (current : consumed = queue.first) :
    (∃ v next, queue.pop? = some (v, next) ∧ memory.entry (config.number consumed) = ⟨v, config.fullSeq consumed⟩ ∧
      peekBranch config (config.number consumed) (memory.entry (config.number consumed)).seq = .take) ∨
    (queue.pop? = none ∧ peekBranch config (config.number consumed) (memory.entry (config.number consumed)).seq = .empty) := by
  have positive := config.half_positive
  rcases head_entry memory queue written consumed represents current with ⟨v, next, popped, entry⟩ | ⟨popped, entry⟩
  · refine .inl ⟨v, next, popped, entry, ?_⟩
    rw [entry, peek_branch_full config consumed consumed (Nat.le_refl _) (by omega), if_pos rfl]
  · refine .inr ⟨popped, ?_⟩
    rw [entry, peek_branch_empty config consumed consumed (Nat.le_refl _) (by omega), if_pos rfl]

-- What each branch tells about the queue, for a local index that is not too old. A thread falls
-- through only when the shared index has moved on since it was loaded.
def PushSound (queue : Fifo Data config.size) (written x : Nat) : PushBranch → Prop
  | .fill => x = queue.total ∧ queue.total < queue.first + config.size
  | .advance => x < queue.total
  | .full => queue.total = queue.first + config.size
  | .retry => x < written

theorem push_branch_sound (represents : Represents memory queue written consumed) (behind : x ≤ written)
    (fresh : queue.total + config.size ≤ x + config.half) :
    PushSound queue written x (pushBranch config (config.number x) (memory.entry (config.number x)).seq) := by
  have bound := Fifo.total_bound queue
  have lag := represents.writeLag
  obtain ⟨k, lower, upper, slot, ⟨held, v, _, stored⟩ | ⟨free, stored⟩⟩ := slot_cases memory queue written consumed x represents
  · rw [stored, push_branch_full config x k (by omega) (by omega)]
    by_cases here : k = x
    · rw [if_pos here]
      exact here ▸ held
    · rw [if_neg here]
      by_cases lap : k + config.size = x
      · rw [if_pos lap]
        change queue.total = queue.first + config.size
        omega
      · rw [if_neg lap]
        by_contra current
        have latest : x = written := by rw [PushSound] at current; omega
        exact lap (Word.window_unique config.size (k + config.size) x (by rw [Nat.add_mod_right, slot]) (by omega) (by omega))
  · rw [stored, push_branch_empty config x k (by omega) (by omega)]
    by_cases here : k = x
    · rw [if_pos here]
      change x = queue.total ∧ queue.total < queue.first + config.size
      omega
    · rw [if_neg here]
      by_cases lap : k = x + config.size
      · rw [if_pos lap]
        change x < queue.total
        omega
      · rw [if_neg lap]
        by_contra current
        have latest : x = written := by rw [PushSound] at current; omega
        exact lap (Word.window_unique config.size k (x + config.size) (by rw [Nat.add_mod_right, slot]) (by omega) (by omega))

theorem push_branch_behind (represents : Represents memory queue written consumed) (behind : written < queue.total) :
    pushBranch config (config.number written) (memory.entry (config.number written)).seq = .advance := by
  have bound := Fifo.total_bound queue
  have lag := represents.writeLag
  have fits := config.size_half
  have positive := config.size_positive
  obtain ⟨k, lower, upper, slot, ⟨held, v, _, stored⟩ | ⟨free, stored⟩⟩ :=
    slot_cases memory queue written consumed written represents
  · have here : k = written := Word.window_unique config.size k written slot (by omega) (by omega)
    rw [stored, push_branch_full config written k (by omega) (by omega), if_pos here]
  · have lap : k = written + config.size :=
      Word.window_unique config.size k _ (by rw [Nat.add_mod_right, slot]) (by omega) (by omega)
    rw [stored, push_branch_empty config written k (by omega) (by omega), if_neg (by omega), if_pos lap]

def PopSound (memory : Memory config Data) (queue : Fifo Data config.size) (consumed x : Nat) : PopBranch → Prop
  | .take => x = queue.first ∧ ∃ v, queue.get? queue.first = some v ∧ memory.entry (config.number x) = ⟨v, config.fullSeq x⟩
  | .advance => x < queue.first
  | .empty => queue.total = queue.first
  | .retry => x < consumed

theorem pop_branch_sound (represents : Represents memory queue written consumed) (behind : x ≤ consumed)
    (fresh : queue.first + config.size ≤ x + config.half) :
    PopSound memory queue consumed x (popBranch config (config.number x) (memory.entry (config.number x)).seq) := by
  have bound := Fifo.total_bound queue
  have lag := represents.readLag
  obtain ⟨k, lower, upper, slot, ⟨held, v, value, stored⟩ | ⟨free, stored⟩⟩ := slot_cases memory queue written consumed x represents
  · rw [stored, pop_branch_full config x k (by omega) (by omega)]
    by_cases here : k = x
    · rw [if_pos here]
      have head : x = queue.first := by omega
      exact ⟨head, v, by rw [← head, ← here]; exact value, by rw [stored, here]⟩
    · rw [if_neg here]
      by_cases lap : k = x + config.size
      · rw [if_pos lap]
        change x < queue.first
        omega
      · rw [if_neg lap]
        by_contra current
        have latest : x = consumed := by rw [PopSound] at current; omega
        exact lap (Word.window_unique config.size k (x + config.size) (by rw [Nat.add_mod_right, slot]) (by omega) (by omega))
  · rw [stored, pop_branch_empty config x k (by omega) (by omega)]
    by_cases lap : k = x + config.size
    · rw [if_pos lap]
      change x < queue.first
      omega
    · rw [if_neg lap]
      by_cases here : k = x
      · rw [if_pos here]
        change queue.total = queue.first
        omega
      · rw [if_neg here]
        by_contra current
        have latest : x = consumed := by rw [PopSound] at current; omega
        exact lap (Word.window_unique config.size k (x + config.size) (by rw [Nat.add_mod_right, slot]) (by omega) (by omega))

-- The branches of peek and pop_if are as sound as those of pop; falling through says nothing
-- there, because the shifted test misses a next lap whose number has passed the top bit.
theorem peek_branch_sound (represents : Represents memory queue written consumed) (behind : x ≤ consumed)
    (fresh : queue.first + config.size ≤ x + config.half)
    (decided : peekBranch config (config.number x) (memory.entry (config.number x)).seq ≠ .retry) :
    PopSound memory queue consumed x (peekBranch config (config.number x) (memory.entry (config.number x)).seq) := by
  have bound := Fifo.total_bound queue
  have lag := represents.readLag
  obtain ⟨k, lower, upper, slot, ⟨held, v, value, stored⟩ | ⟨free, stored⟩⟩ := slot_cases memory queue written consumed x represents
  · rw [stored, peek_branch_full config x k (by omega) (by omega)] at decided ⊢
    by_cases here : k = x
    · rw [if_pos here]
      have head : x = queue.first := by omega
      exact ⟨head, v, by rw [← head, ← here]; exact value, by rw [stored, here]⟩
    · rw [if_neg here] at decided ⊢
      by_cases lap : config.number (k % config.half) = config.number (x + config.size)
      · rw [if_pos lap]
        have next := shifted_lap config x k (by omega) (by omega) lap
        change x < queue.first
        omega
      · exact absurd (if_neg lap) decided
  · rw [stored, peek_branch_empty config x k (by omega) (by omega)] at decided ⊢
    by_cases here : k = x
    · rw [if_pos here]
      change queue.total = queue.first
      omega
    · rw [if_neg here] at decided ⊢
      by_cases lap : config.number (k % config.half) = config.number (x + config.size)
      · rw [if_pos lap]
        have next := shifted_lap config x k (by omega) (by omega) lap
        change x < queue.first
        omega
      · exact absurd (if_neg lap) decided

theorem index_current (config : Config) (current x : Nat) (behind : x ≤ current) (fresh : current < x + 2 * config.half)
    (hit : config.number current = config.number x) : current = x :=
  config.number_injective current x hit behind fresh

theorem write_represents (represents : Represents memory queue written consumed) (behind : written < queue.total) :
    Represents { memory with writeIndex := config.number written + 1 } queue (written + 1) consumed := by
  have lag := represents.writeLag
  exact ⟨represents.full, represents.empty, config.number_succ written, by omega, represents.read, represents.readLag⟩

theorem read_represents (represents : Represents memory queue written consumed) (behind : consumed < queue.first) :
    Represents { memory with readIndex := config.number consumed + 1 } queue written (consumed + 1) := by
  have lag := represents.readLag
  exact ⟨represents.full, represents.empty, represents.write, represents.writeLag, config.number_succ consumed, by omega⟩

-- Where a call leaves the index of the operation it did: in the lazy mode one behind.
def Config.pushedIndex (config : Config) (number : Nat) : Nat := if config.lazyPush then number else number + 1

def Config.poppedIndex (config : Config) (number : Nat) : Nat := if config.lazyPop then number else number + 1

-- A memory between two calls of a sequential history: an index lags in its lazy mode only.
def Settled : Prop :=
  ∃ written consumed, Represents memory queue written consumed ∧
    (config.lazyPush = false → written = queue.total) ∧ (config.lazyPop = false → consumed = queue.first)

theorem settled_initial : Settled (Memory.initial config Data) Fifo.empty :=
  ⟨0, 0, represents_initial, fun _ => rfl, fun _ => rfl⟩

theorem settled_pushed (d : Data) (represents : Represents memory next (config.pushedIndex queue.total) consumed)
    (pushed : queue.push? d = some next) (read : config.lazyPop = false → consumed = queue.first) : Settled memory next := by
  obtain ⟨_, first, _⟩ := Fifo.push_items queue next d pushed
  refine ⟨_, _, represents, ?_, fun eager => (read eager).trans first.symm⟩
  intro eager
  rw [Config.pushedIndex, eager, Fifo.push_total queue next d pushed]
  rfl

theorem settled_popped (v : Data) (represents : Represents memory next written (config.poppedIndex queue.first))
    (popped : queue.pop? = some (v, next)) (write : config.lazyPush = false → written = queue.total) : Settled memory next := by
  refine ⟨_, _, represents, fun eager => (write eager).trans (Fifo.pop_total queue next v popped).symm, ?_⟩
  intro eager
  rw [Config.poppedIndex, eager, (Fifo.pop_items queue next v popped).2]
  rfl

theorem settled_read (settled : Settled memory queue) (eager : config.lazyPop = false) :
    memory.readIndex = config.number queue.first := by
  obtain ⟨written, consumed, represents, _, read⟩ := settled
  rw [represents.read, read eager]

theorem settled_write (settled : Settled memory queue) (eager : config.lazyPush = false) :
    memory.writeIndex = config.number queue.total := by
  obtain ⟨written, consumed, represents, write, _⟩ := settled
  rw [represents.write, write eager]

theorem settled_data (k : Nat) (v : Data) (settled : Settled memory queue) (held : queue.get? k = some v) :
    (memory.entry (config.number k)).data = v := by
  obtain ⟨written, consumed, represents, _, _⟩ := settled
  rw [represents.full k v held]

end

end LockfreeQueue
