import Mathlib.Data.List.Induction
import LockfreeQueue.Library.Transition

set_option autoImplicit false

-- A bounded first-in first-out queue whose elements keep the number of the push that stored
-- them. The bound is a field, so a queue holding more than its capacity cannot be built.
structure Fifo (α : Type) (cap : Nat) where
  first : Nat
  items : List α
  bounded : items.length ≤ cap

namespace Fifo

section

variable {α : Type} {cap : Nat}

def empty : Fifo α cap := ⟨0, [], Nat.zero_le cap⟩

def total (queue : Fifo α cap) : Nat := queue.first + queue.items.length

def get? (queue : Fifo α cap) (number : Nat) : Option α :=
  if queue.first ≤ number then queue.items[number - queue.first]? else none

def push? (queue : Fifo α cap) (value : α) : Option (Fifo α cap) :=
  if room : queue.items.length < cap then
    some ⟨queue.first, queue.items ++ [value], by rw [List.length_append]; exact room⟩
  else none

def pop? (queue : Fifo α cap) : Option (α × Fifo α cap) :=
  match stored : queue.items with
  | [] => none
  | value :: rest =>
      some (value, ⟨queue.first + 1, rest, by
        have bound := queue.bounded
        rw [stored, List.length_cons] at bound
        omega⟩)

def replace? [DecidableEq α] (queue : Fifo α cap) (number : Nat) (old new : α) : Option (Fifo α cap) :=
  if queue.get? number = some old then
    some ⟨queue.first, queue.items.set (number - queue.first) new, by rw [List.length_set]; exact queue.bounded⟩
  else none

-- Removing from the head: a count of elements, or up to the first that a test accepts.
def drop (queue : Fifo α cap) (count : Nat) : Fifo α cap :=
  ⟨queue.first + count, queue.items.drop count, by
    have bound := queue.bounded
    rw [List.length_drop]
    omega⟩

def drained (test : α → Nat → Bool) (number : Nat) : List α → Nat
  | [] => 0
  | value :: rest => if test value number then 1 else drained test (number + 1) rest + 1

-- Appending to a queue that gives up its oldest element when it is full.
def pushDropping (queue : Fifo α cap) (positive : 0 < cap) (value : α) : Fifo α cap :=
  if room : queue.items.length < cap then
    ⟨queue.first, queue.items ++ [value], by rw [List.length_append]; exact room⟩
  else
    ⟨queue.first + 1, queue.items.tail ++ [value], by
      have bound := queue.bounded
      rw [List.length_append, List.length_tail, List.length_singleton]
      omega⟩

theorem get_bounds (queue : Fifo α cap) (number : Nat) (value : α) (held : queue.get? number = some value) :
    queue.first ≤ number ∧ number < queue.total := by
  by_cases lower : queue.first ≤ number
  · rw [get?, if_pos lower] at held
    have bound := (List.getElem?_eq_some_iff.mp held).1
    exact ⟨lower, by rw [total]; omega⟩
  · rw [get?, if_neg lower] at held
    cases held

theorem get_of_bounds (queue : Fifo α cap) (number : Nat) (lower : queue.first ≤ number)
    (upper : number < queue.total) : ∃ value, queue.get? number = some value := by
  rw [total] at upper
  rw [get?, if_pos lower]
  exact ⟨queue.items[number - queue.first], List.getElem?_eq_getElem (by omega)⟩

theorem get_total (queue : Fifo α cap) : queue.get? queue.total = none := by
  cases held : queue.get? queue.total with
  | none => rfl
  | some value => exact absurd (get_bounds queue queue.total value held).2 (Nat.lt_irrefl _)

theorem total_bound (queue : Fifo α cap) : queue.first ≤ queue.total ∧ queue.total ≤ queue.first + cap :=
  ⟨Nat.le_add_right _ _, Nat.add_le_add_left queue.bounded _⟩

@[simp] theorem empty_first : (empty : Fifo α cap).first = 0 := rfl

@[simp] theorem empty_total : (empty : Fifo α cap).total = 0 := rfl

@[simp] theorem empty_get (number : Nat) : (empty : Fifo α cap).get? number = none := by
  simp [get?, empty]

theorem push_room (queue : Fifo α cap) (value : α) (room : queue.total < queue.first + cap) :
    ∃ next, queue.push? value = some next := by
  rw [total] at room
  rw [push?, dif_pos (by omega)]
  exact ⟨_, rfl⟩

theorem push_full (queue : Fifo α cap) (value : α) : queue.push? value = none ↔ queue.total = queue.first + cap := by
  have bound := queue.bounded
  rw [push?, total]
  split
  · simp only [reduceCtorEq, false_iff]
    omega
  · simp only [true_iff]
    omega

theorem push_items (queue next : Fifo α cap) (value : α) (pushed : queue.push? value = some next) :
    queue.items.length < cap ∧ next.first = queue.first ∧ next.items = queue.items ++ [value] := by
  by_cases room : queue.items.length < cap
  · rw [push?, dif_pos room] at pushed
    cases Option.some.inj pushed
    exact ⟨room, rfl, rfl⟩
  · rw [push?, dif_neg room] at pushed
    cases pushed

theorem push_total (queue next : Fifo α cap) (value : α) (pushed : queue.push? value = some next) :
    next.total = queue.total + 1 := by
  obtain ⟨_, first, items⟩ := push_items queue next value pushed
  rw [total, total, first, items, List.length_append, List.length_singleton, Nat.add_assoc]

theorem push_get (queue next : Fifo α cap) (value : α) (pushed : queue.push? value = some next) (number : Nat) :
    next.get? number = if number = queue.total then some value else queue.get? number := by
  obtain ⟨_, first, items⟩ := push_items queue next value pushed
  rw [get?, get?, first, items, total]
  by_cases lower : queue.first ≤ number
  · rw [if_pos lower, if_pos lower]
    by_cases last : number = queue.first + queue.items.length
    · simp [last]
    · rw [if_neg last]
      by_cases inside : number - queue.first < queue.items.length
      · rw [List.getElem?_append_left inside]
      · rw [List.getElem?_eq_none (by rw [List.length_append, List.length_singleton]; omega),
          List.getElem?_eq_none (by omega)]
  · rw [if_neg lower, if_neg lower, if_neg (by omega)]

theorem pop_items (queue next : Fifo α cap) (value : α) (popped : queue.pop? = some (value, next)) :
    queue.items = value :: next.items ∧ next.first = queue.first + 1 := by
  rw [pop?] at popped
  split at popped
  · cases popped
  · rename_i head rest stored
    cases Option.some.inj popped
    exact ⟨stored, rfl⟩

theorem pop_none (queue : Fifo α cap) : queue.pop? = none ↔ queue.total = queue.first := by
  rw [pop?, total]
  split
  · rename_i stored
    simp [stored]
  · rename_i head rest stored
    simp [stored]

theorem pop_held (queue : Fifo α cap) (held : queue.items ≠ []) : ∃ value next, queue.pop? = some (value, next) := by
  rw [pop?]
  split
  · contradiction
  · exact ⟨_, _, rfl⟩

theorem pop_total (queue next : Fifo α cap) (value : α) (popped : queue.pop? = some (value, next)) :
    next.total = queue.total := by
  obtain ⟨items, first⟩ := pop_items queue next value popped
  rw [total, total, items, first, List.length_cons]
  omega

theorem pop_head (queue next : Fifo α cap) (value : α) (popped : queue.pop? = some (value, next)) :
    queue.get? queue.first = some value := by
  obtain ⟨items, _⟩ := pop_items queue next value popped
  simp [get?, items]

theorem pop_get (queue next : Fifo α cap) (value : α) (popped : queue.pop? = some (value, next)) (number : Nat) :
    next.get? number = if number = queue.first then none else queue.get? number := by
  obtain ⟨items, first⟩ := pop_items queue next value popped
  rw [get?, get?, items, first]
  by_cases later : queue.first + 1 ≤ number
  · have place : number - queue.first = number - (queue.first + 1) + 1 := by omega
    rw [if_pos later, if_neg (by omega), if_pos (by omega), place, List.getElem?_cons_succ]
  · rw [if_neg later]
    by_cases same : number = queue.first
    · rw [if_pos same]
    · rw [if_neg same, if_neg (by omega)]

theorem pop_of_get (queue : Fifo α cap) (value : α) (held : queue.get? queue.first = some value) :
    ∃ next, queue.pop? = some (value, next) := by
  cases popped : queue.pop? with
  | none =>
      have bounds := get_bounds queue queue.first value held
      have emptied := (pop_none queue).mp popped
      omega
  | some pair =>
      obtain ⟨head, next⟩ := pair
      have same := (pop_head queue next head popped).symm.trans held
      exact ⟨next, by rw [Option.some.inj same]⟩

theorem drop_zero (queue : Fifo α cap) : queue.drop 0 = queue := rfl

theorem pop_drop (queue next : Fifo α cap) (value : α) (popped : queue.pop? = some (value, next)) (count : Nat) :
    queue.drop (count + 1) = next.drop count := by
  obtain ⟨items, first⟩ := pop_items queue next value popped
  simp only [drop, items, first, List.drop_succ_cons, Nat.add_assoc, Nat.add_comm 1 count]

theorem drained_some (test : α → Nat → Bool) (queue next : Fifo α cap) (value : α) (popped : queue.pop? = some (value, next)) :
    drained test queue.first queue.items =
      if test value queue.first then 1 else drained test next.first next.items + 1 := by
  obtain ⟨items, first⟩ := pop_items queue next value popped
  rw [items, first, drained]

theorem drained_bound (test : α → Nat → Bool) (number : Nat) (items : List α) : drained test number items ≤ items.length := by
  induction items generalizing number with
  | nil => exact Nat.le_refl 0
  | cons value rest ih =>
      have later := ih (number + 1)
      rw [drained, List.length_cons]
      split <;> omega

theorem drop_total (queue : Fifo α cap) (count : Nat) (held : count ≤ queue.items.length) :
    (queue.drop count).total = queue.total := by
  change queue.first + count + (queue.items.drop count).length = queue.first + queue.items.length
  rw [List.length_drop]
  omega

theorem push_dropping_room (queue next : Fifo α cap) (positive : 0 < cap) (value : α) (pushed : queue.push? value = some next) :
    queue.pushDropping positive value = next := by
  obtain ⟨room, _, _⟩ := push_items queue next value pushed
  rw [push?, dif_pos room] at pushed
  rw [pushDropping, dif_pos room]
  exact Option.some.inj pushed

theorem push_dropping_total (queue : Fifo α cap) (positive : 0 < cap) (value : α) :
    (queue.pushDropping positive value).total = queue.total + 1 := by
  have bound := queue.bounded
  rw [pushDropping]
  split
  · change queue.first + (queue.items ++ [value]).length = queue.first + queue.items.length + 1
    rw [List.length_append, List.length_singleton, Nat.add_assoc]
  · change queue.first + 1 + (queue.items.tail ++ [value]).length = queue.first + queue.items.length + 1
    rw [List.length_append, List.length_tail, List.length_singleton]
    omega

theorem push_dropping_full (queue : Fifo α cap) (positive : 0 < cap) (value : α) (full : queue.push? value = none) :
    ∃ lost rest, queue.pop? = some (lost, rest) ∧ rest.total = queue.total ∧
      rest.push? value = some (queue.pushDropping positive value) := by
  have many := (push_full queue value).mp full
  obtain ⟨lost, head⟩ := get_of_bounds queue queue.first (Nat.le_refl _) (by omega)
  obtain ⟨rest, popped⟩ := pop_of_get queue lost head
  obtain ⟨items, first⟩ := pop_items queue rest lost popped
  have same := pop_total queue rest lost popped
  rw [total, items, List.length_cons] at many
  refine ⟨lost, rest, popped, same, ?_⟩
  rw [push?, dif_pos (by omega), pushDropping, dif_neg (by rw [items, List.length_cons]; omega)]
  simp only [items, first, List.tail_cons]

-- The same queue with every element seen through f.
def map {β : Type} (f : α → β) (queue : Fifo α cap) : Fifo β cap :=
  ⟨queue.first, queue.items.map f, by rw [List.length_map]; exact queue.bounded⟩

theorem map_push {β : Type} (f : α → β) (queue : Fifo α cap) (value : α) :
    (queue.map f).push? (f value) = (queue.push? value).map (map f) := by
  by_cases room : queue.items.length < cap
  · rw [push?, push?, dif_pos room, dif_pos (by rw [map, List.length_map]; exact room)]
    simp [map]
  · rw [push?, push?, dif_neg room, dif_neg (by rw [map, List.length_map]; exact room)]
    rfl

theorem map_pop {β : Type} (f : α → β) (queue : Fifo α cap) :
    (queue.map f).pop? = (queue.pop?).map fun popped => (f popped.1, popped.2.map f) := by
  obtain ⟨first, items, bounded⟩ := queue
  cases items <;> rfl

variable [DecidableEq α]

theorem replace_iff (queue : Fifo α cap) (number : Nat) (old new : α) :
    (∃ next, queue.replace? number old new = some next) ↔ queue.get? number = some old := by
  rw [replace?]
  split <;> simp_all

theorem replace_fields (queue next : Fifo α cap) (number : Nat) (old new : α)
    (replaced : queue.replace? number old new = some next) :
    queue.get? number = some old ∧ next.first = queue.first ∧ next.items = queue.items.set (number - queue.first) new := by
  by_cases held : queue.get? number = some old
  · rw [replace?, if_pos held] at replaced
    cases Option.some.inj replaced
    exact ⟨held, rfl, rfl⟩
  · rw [replace?, if_neg held] at replaced
    cases replaced

theorem replace_total (queue next : Fifo α cap) (number : Nat) (old new : α)
    (replaced : queue.replace? number old new = some next) : next.total = queue.total := by
  obtain ⟨_, first, items⟩ := replace_fields queue next number old new replaced
  rw [total, total, first, items, List.length_set]

theorem replace_get (queue next : Fifo α cap) (number : Nat) (old new : α)
    (replaced : queue.replace? number old new = some next) (other : Nat) :
    next.get? other = if other = number then some new else queue.get? other := by
  obtain ⟨held, first, items⟩ := replace_fields queue next number old new replaced
  obtain ⟨lower, upper⟩ := get_bounds queue number old held
  rw [get?, get?, first, items]
  rw [total] at upper
  by_cases same : other = number
  · subst same
    rw [if_pos lower, if_pos rfl, List.getElem?_set_self (by omega)]
  · rw [if_neg same]
    by_cases inside : queue.first ≤ other
    · rw [if_pos inside, if_pos inside, List.getElem?_set_ne (by omega)]
    · rw [if_neg inside, if_neg inside]

end

-- The queue as a machine: an operation is refused where the queue does not allow it, so a run
-- is exactly a legal sequential history.
inductive Op (α : Type) where
  | push (value : α)
  | pop (value : α)
  | replace (number : Nat) (old new : α)
deriving DecidableEq, Repr

def perform {α : Type} [DecidableEq α] {cap : Nat} (queue : Fifo α cap) : Op α → Option (Fifo α cap)
  | .push value => queue.push? value
  | .pop value => queue.pop?.bind fun popped => if popped.1 = value then some popped.2 else none
  | .replace number old new => queue.replace? number old new

def machine (α : Type) [DecidableEq α] (cap : Nat) : Transition.Machine (Fifo α cap) (Op α) := ⟨empty, perform⟩

def pushed {α : Type} (ops : List (Op α)) : List α :=
  ops.filterMap fun | .push value => some value | _ => none

def popped {α : Type} (ops : List (Op α)) : List α :=
  ops.filterMap fun | .pop value => some value | _ => none

def Untouched {α : Type} (ops : List (Op α)) : Prop := ∀ number old new, Op.replace number old new ∉ ops

section

variable {α : Type} [DecidableEq α] {cap : Nat}

theorem perform_pop (queue next : Fifo α cap) (value : α) (done : queue.perform (.pop value) = some next) :
    queue.pop? = some (value, next) := by
  rw [perform] at done
  cases removed : queue.pop? with
  | none => simp [removed] at done
  | some pair =>
      obtain ⟨head, rest⟩ := pair
      by_cases same : head = value
      · simp_all
      · simp [removed, same] at done

theorem history_append (ops : List (Op α)) (op : Op α) (next : Fifo α cap)
    (legal : Transition.run (machine α cap) (ops ++ [op]) empty = some next) :
    ∃ queue, Transition.run (machine α cap) ops empty = some queue ∧ queue.perform op = some next := by
  rw [Transition.run_append] at legal
  obtain ⟨queue, early, late⟩ := Option.bind_eq_some_iff.mp legal
  refine ⟨queue, early, ?_⟩
  simpa [Transition.run, machine] using late

theorem history_counts (ops : List (Op α)) (queue : Fifo α cap)
    (legal : Transition.run (machine α cap) ops empty = some queue) :
    queue.total = (pushed ops).length ∧ queue.first = (popped ops).length := by
  induction ops using List.reverseRecOn generalizing queue with
  | nil =>
      cases Option.some.inj legal
      exact ⟨rfl, rfl⟩
  | append_singleton ops op ih =>
      obtain ⟨before, early, done⟩ := history_append ops op queue legal
      obtain ⟨stored, removed⟩ := ih before early
      cases op with
      | push value =>
          have total := push_total before queue value done
          obtain ⟨_, first, _⟩ := push_items before queue value done
          simp [pushed, popped] at stored removed ⊢
          omega
      | pop value =>
          have taken := perform_pop before queue value done
          have total := pop_total before queue value taken
          obtain ⟨_, first⟩ := pop_items before queue value taken
          simp [pushed, popped] at stored removed ⊢
          omega
      | replace number old new =>
          have total := replace_total before queue number old new done
          obtain ⟨_, first, _⟩ := replace_fields before queue number old new done
          simp [pushed, popped] at stored removed ⊢
          omega

-- The first-in first-out law: what was pushed is what was popped followed by what is held.
theorem history_order (ops : List (Op α)) (queue : Fifo α cap) (untouched : Untouched ops)
    (legal : Transition.run (machine α cap) ops empty = some queue) :
    pushed ops = popped ops ++ queue.items := by
  induction ops using List.reverseRecOn generalizing queue with
  | nil =>
      cases Option.some.inj legal
      rfl
  | append_singleton ops op ih =>
      obtain ⟨before, early, done⟩ := history_append ops op queue legal
      have order := ih before (fun number old new member => untouched number old new (by simp [member])) early
      cases op with
      | push value =>
          obtain ⟨_, _, items⟩ := push_items before queue value done
          simp only [pushed, popped] at order
          simp [pushed, popped, order, items]
      | pop value =>
          obtain ⟨items, _⟩ := pop_items before queue value (perform_pop before queue value done)
          simp only [pushed, popped] at order
          simp [pushed, popped, order, items]
      | replace number old new => exact absurd (by simp) (untouched number old new)

end

end Fifo
