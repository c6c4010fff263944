import LockfreeQueue.Order
import LockfreeQueue.Sizes

set_option autoImplicit false

namespace LockfreeQueue

inductive Operand where
  | write
  | read
deriving DecidableEq

-- Where a call of size() stands: the next load of empty, or the operands already loaded of the
-- comparison or of the subtraction, which the compiler may order either way. `crossed` is the
-- branch taken when the comparison saw the write index below the read index.
inductive SizePc (config : Config) where
  | emptyLoad
  | emptySlot (rdIndex : Index config)
  | compare (wrIndex rdIndex : Option (Index config))
  | subtract (crossed : Bool) (wrIndex rdIndex : Option (Index config))
deriving DecidableEq

inductive SizeNext (config : Config) where
  | goto (pc : SizePc config)
  | value (size : BitVec 64)
deriving DecidableEq

section

variable {config : Config} {Data : Type}

def difference (crossed : Bool) (wrIndex rdIndex : Index config) : BitVec 64 :=
  if crossed then wrIndex.setWidth 64 + BitVec.ofNat 64 config.size - rdIndex.setWidth 64 else (wrIndex - rdIndex).setWidth 64

def compared : Option (Index config) → Option (Index config) → SizeNext config
  | some wrIndex, some rdIndex => .goto (.subtract (!decide (wrIndex ≥ rdIndex)) none none)
  | wrIndex, rdIndex => .goto (.compare wrIndex rdIndex)

def subtracted (crossed : Bool) : Option (Index config) → Option (Index config) → SizeNext config
  | some wrIndex, some rdIndex => .value (difference crossed wrIndex rdIndex)
  | wrIndex, rdIndex => .goto (.subtract crossed wrIndex rdIndex)

def missing : Option (Index config) → Option (Index config) → Operand → Bool
  | none, _, .write | _, none, .read => true
  | _, _, _ => false

def SizePc.awaits : SizePc config → Operand → Bool
  | .emptyLoad, operand | .emptySlot _, operand => operand == .read
  | .compare wrIndex rdIndex, operand | .subtract _ wrIndex rdIndex, operand => missing wrIndex rdIndex operand

def sizeStep (memory : Memory config Data) : SizePc config → Operand → SizeNext config
  | .emptyLoad, _ => .goto (.emptySlot memory.readIndex)
  | .emptySlot rdIndex, _ => if (memory.entry rdIndex).seq = rdIndex <<< 1 then .value 0 else .goto (.compare none none)
  | .compare _ rdIndex, .write => compared (some memory.writeIndex) rdIndex
  | .compare wrIndex _, .read => compared wrIndex (some memory.readIndex)
  | .subtract crossed _ rdIndex, .write => subtracted crossed (some memory.writeIndex) rdIndex
  | .subtract crossed wrIndex _, .read => subtracted crossed wrIndex (some memory.readIndex)

def SizePc.subtracts : SizePc config → Bool
  | .subtract _ _ _ => true
  | _ => false

def SizePc.opens : SizePc config → Bool
  | .subtract _ none none => true
  | _ => false

-- The queue's threads and one thread that calls size(). `opening` is the log when the first
-- operand of the subtraction was loaded, `sizes` are the values returned, the latest first.
structure Watched (config : Config) (Data : Type) where
  system : System config Data
  observer : Option (SizePc config)
  opening : List (Event config Data)
  sizes : List (BitVec 64)

inductive WatchedAction (config : Config) (Data : Type) where
  | queue (action : Action config Data)
  | size
  | load (operand : Operand)

namespace Watched

variable [DecidableEq Data] [Zero Data]

def initial (config : Config) (Data : Type) [Zero Data] : Watched config Data := ⟨System.initial config Data, none, [], []⟩

def load (watched : Watched config Data) (pc : SizePc config) (operand : Operand) : Watched config Data :=
  let opening := if pc.opens then watched.system.log else watched.opening
  match sizeStep watched.system.memory pc operand with
  | .goto next => { watched with observer := some next, opening := opening }
  | .value size => { watched with observer := none, opening := opening, sizes := size :: watched.sizes }

def next (watched : Watched config Data) : WatchedAction config Data → Option (Watched config Data)
  | .queue action => (watched.system.next action).map fun system => { watched with system := system }
  | .size => if watched.observer.isNone then some { watched with observer := some .emptyLoad } else none
  | .load operand => (watched.observer.filter fun pc => pc.awaits operand).map fun pc => watched.load pc operand

end Watched

def watchedMachine (config : Config) (Data : Type) [DecidableEq Data] [Zero Data] :
    Transition.Machine (Watched config Data) (WatchedAction config Data) := ⟨Watched.initial config Data, Watched.next⟩

def Watched.Permits (permitted : System config Data → Action config Data → Prop) (watched : Watched config Data) :
    WatchedAction config Data → Prop
  | .queue action => permitted watched.system action
  | .size | .load _ => True

instance (permitted : System config Data → Action config Data → Prop) [∀ system action, Decidable (permitted system action)]
    (watched : Watched config Data) (action : WatchedAction config Data) : Decidable (watched.Permits permitted action) :=
  match action with
  | .queue action => inferInstanceAs (Decidable (permitted watched.system action))
  | .size | .load _ => isTrue trivial

-- In the ordered branch the write index is to be ahead of the read index by at most the size of
-- the array, in the crossed branch behind it by as much.
def InRange (config : Config) (crossed : Bool) (written consumed : Nat) : Prop :=
  ∃ k, k ≤ config.size ∧ if crossed then consumed % 2 ^ config.bits = (written % 2 ^ config.bits + k) % 2 ^ 64
    else written % 2 ^ config.bits = (consumed + k) % 2 ^ config.bits

instance (config : Config) (crossed : Bool) (written consumed : Nat) : Decidable (InRange config crossed written consumed) :=
  inferInstanceAs (Decidable (∃ k, k ≤ config.size ∧ _))

-- A subtraction of size(): its branch, how often each index had been advanced when the first
-- operand was loaded, and how often the index loaded last was advanced between the two loads.
structure Subtraction where
  crossed : Bool
  written : Nat
  consumed : Nat
  wroteSince : Nat
  readSince : Nat

def Subtraction.InRange (config : Config) (subtraction : Subtraction) : Prop :=
  LockfreeQueue.InRange config subtraction.crossed (subtraction.written + subtraction.wroteSince)
    (subtraction.consumed + subtraction.readSince)

instance (config : Config) (subtraction : Subtraction) : Decidable (subtraction.InRange config) :=
  inferInstanceAs (Decidable (InRange config _ _ _))

-- The subtraction that an action completes, if it is the load of the last operand.
def Watched.completes (watched : Watched config Data) : WatchedAction config Data → Option Subtraction
  | .load .read =>
      match watched.observer with
      | some (.subtract crossed (some _) none) =>
          some ⟨crossed, writes watched.opening, reads watched.opening, 0, reads watched.system.log - reads watched.opening⟩
      | _ => none
  | .load .write =>
      match watched.observer with
      | some (.subtract crossed none (some _)) =>
          some ⟨crossed, writes watched.opening, reads watched.opening, writes watched.system.log - writes watched.opening, 0⟩
      | _ => none
  | .queue _ | .size => none

def Watched.Coherent (watched : Watched config Data) (action : WatchedAction config Data) : Prop :=
  ∀ subtraction ∈ watched.completes action, subtraction.InRange config

instance (watched : Watched config Data) (action : WatchedAction config Data) : Decidable (watched.Coherent action) :=
  inferInstanceAs (Decidable (∀ subtraction ∈ watched.completes action, _))

-- While neither index is within one lap of wrapping, the residues are the counts themselves.
theorem in_range_unwrapped (crossed : Bool) (written consumed : Nat) (width : config.bits ≤ 64)
    (write : written + config.size < 2 ^ config.bits) (read : consumed + config.size < 2 ^ config.bits) :
    InRange config crossed written consumed ↔
      if crossed then written ≤ consumed ∧ consumed ≤ written + config.size
      else consumed ≤ written ∧ written ≤ consumed + config.size := by
  have fits : 2 ^ config.bits ≤ 2 ^ 64 := Nat.pow_le_pow_right (by decide) width
  rw [InRange, Nat.mod_eq_of_lt (show written < 2 ^ config.bits by omega), Nat.mod_eq_of_lt (show consumed < 2 ^ config.bits by omega)]
  cases crossed with
  | true =>
      simp only [if_true]
      constructor
      · rintro ⟨k, within, same⟩
        omega
      · rintro ⟨lower, upper⟩
        exact ⟨consumed - written, by omega, by omega⟩
  | false =>
      simp only [Bool.false_eq_true, if_false]
      constructor
      · rintro ⟨k, within, same⟩
        rw [Nat.mod_eq_of_lt (by omega)] at same
        omega
      · rintro ⟨lower, upper⟩
        exact ⟨written - consumed, by omega, by rw [Nat.mod_eq_of_lt (by omega)]; omega⟩

theorem difference_ordered_iff (width : config.bits ≤ 64) (written consumed : Nat) :
    (difference false (config.number written) (config.number consumed)).toNat ≤ config.size ↔
      InRange config false written consumed := by
  have fits : 2 ^ config.bits ≤ 2 ^ 64 := Nat.pow_le_pow_right (by decide) width
  have bound := (config.number written - config.number consumed).isLt
  rw [difference, if_neg Bool.false_ne_true, BitVec.toNat_setWidth, Nat.mod_eq_of_lt (by omega)]
  exact Word.sub_le_iff config.bits written consumed config.size

-- Here the size of the array is added before the difference is taken in 64 bits.
theorem difference_crossed_iff (width : config.bits ≤ 64) (written consumed : Nat) :
    (difference true (config.number written) (config.number consumed)).toNat ≤ config.size ↔
      InRange config true written consumed := by
  have fits : 2 ^ config.bits ≤ 2 ^ 64 := Nat.pow_le_pow_right (by decide) width
  have wide (count : Nat) : (config.number count).setWidth 64 = BitVec.ofNat 64 (count % 2 ^ config.bits) := by
    rw [← BitVec.ofNat_toNat, Config.number, BitVec.toNat_ofNat]
  have small : consumed % 2 ^ config.bits < 2 ^ config.bits := Nat.mod_lt _ (Nat.two_pow_pos _)
  rw [difference, if_pos rfl, wide, wide, ← BitVec.ofNat_add, Word.sub_le_iff]
  simp only [InRange, if_true]
  generalize written % 2 ^ config.bits = w, consumed % 2 ^ config.bits = r at small
  constructor
  · rintro ⟨k, within, same⟩
    exact ⟨config.size - k, by omega, by omega⟩
  · rintro ⟨k, within, same⟩
    exact ⟨config.size - k, by omega, by omega⟩

theorem difference_iff (width : config.bits ≤ 64) (crossed : Bool) (written consumed : Nat) :
    (difference crossed (config.number written) (config.number consumed)).toNat ≤ config.size ↔
      InRange config crossed written consumed := by
  cases crossed with
  | false => exact difference_ordered_iff width written consumed
  | true => exact difference_crossed_iff width written consumed

section

variable (memory : Memory config Data) (log : List (Event config Data)) (thread : Nat)

-- Whatever the schedule, each index word is the number of its advances.
def Counted (memory : Memory config Data) (log : List (Event config Data)) : Prop :=
  memory.writeIndex = config.number (writes log) ∧ memory.readIndex = config.number (reads log)

variable [DecidableEq Data] [Zero Data]

theorem exec_counted (call : Call config Data) (pc : Pc config Data) (counted : Counted memory log) :
    Counted (exec memory pc).memory (recorded log thread call (exec memory pc).act ++ log) := by
  obtain ⟨write, read⟩ := counted
  rcases exec_cases memory pc with ⟨acted, after⟩ | ⟨act, index, value, acted, wrote, moved, after⟩ | ⟨acted, after⟩ | ⟨acted, after⟩
  · rw [acted, after]
    exact ⟨write, read⟩
  · rw [acted, after, recorded_some, Counted, writes_cons, reads_cons]
    cases act with
    | wrote => exact absurd rfl wrote
    | read => exact absurd rfl moved
    | _ => exact ⟨write, read⟩
  · rw [acted, after, recorded_some, Counted, writes_cons, reads_cons]
    refine ⟨?_, read⟩
    rw [write]
    exact config.number_succ (writes log)
  · rw [acted, after, recorded_some, Counted, writes_cons, reads_cons]
    refine ⟨write, ?_⟩
    rw [read]
    exact config.number_succ (reads log)

end

namespace Watched

def Remembered (opening : List (Event config Data)) : Option (SizePc config) → Prop
  | some (.subtract _ (some wrIndex) none) => wrIndex = config.number (writes opening)
  | some (.subtract _ none (some rdIndex)) => rdIndex = config.number (reads opening)
  | _ => True

structure Aware (watched : Watched config Data) : Prop where
  counted : Counted watched.system.memory watched.system.log
  later : writes watched.opening ≤ writes watched.system.log ∧ reads watched.opening ≤ reads watched.system.log
  remembered : Remembered watched.opening watched.observer

variable (watched : Watched config Data)

theorem aware_queue [DecidableEq Data] [Zero Data] (action : Action config Data) (after : System config Data) (aware : Aware watched)
    (moved : watched.system.next action = some after) : Aware { watched with system := after } := by
  obtain ⟨counted, ⟨written, consumed⟩, remembered⟩ := aware
  cases action with
  | call thread call =>
      simp only [System.next] at moved
      split at moved
      · cases moved
        exact ⟨counted, ⟨written, consumed⟩, remembered⟩
      · cases moved
  | step thread =>
      obtain ⟨task, _, rfl⟩ := Option.map_eq_some_iff.mp moved
      have longer (kept : Event config Data → Bool) : watched.system.log.countP kept ≤
          (watched.system.stepTask thread task).log.countP kept := (List.sublist_append_right _ _).countP_le
      exact ⟨exec_counted _ _ thread task.call task.pc counted,
        ⟨Nat.le_trans written (longer Event.isWrote), Nat.le_trans consumed (longer Event.isRead)⟩, remembered⟩

def Bounded (watched : Watched config Data) : Prop := ∀ size ∈ watched.sizes, size.toNat ≤ config.size

theorem load_before (pc : SizePc config) (operand : Operand) (before : pc.subtracts = false) :
    watched.load pc operand = { watched with observer := none, sizes := 0 :: watched.sizes } ∨
      ∃ next, watched.load pc operand = { watched with observer := some next } ∧ Remembered watched.opening (some next) := by
  cases pc with
  | emptyLoad => exact Or.inr ⟨_, rfl, trivial⟩
  | emptySlot rdIndex =>
      by_cases hit : (watched.system.memory.entry rdIndex).seq = rdIndex <<< 1
      · left
        simp only [load, sizeStep, if_pos hit]
        rfl
      · right
        refine ⟨.compare none none, ?_, trivial⟩
        simp only [load, sizeStep, if_neg hit]
        rfl
  | compare wrIndex rdIndex =>
      right
      cases operand <;> cases wrIndex <;> cases rdIndex <;> exact ⟨_, rfl, trivial⟩
  | subtract crossed wrIndex rdIndex => cases before

theorem coherent_none (action : WatchedAction config Data) (none : watched.completes action = none) : watched.Coherent action := by
  intro subtraction member
  rw [none] at member
  cases member

theorem coherent_some (action : WatchedAction config Data) (subtraction : Subtraction)
    (completes : watched.completes action = some subtraction) : watched.Coherent action ↔ subtraction.InRange config := by
  rw [Coherent, completes]
  constructor
  · exact fun coherent => coherent subtraction rfl
  · rintro ranged _ ⟨⟩
    exact ranged

theorem completes_before (pc : SizePc config) (operand : Operand) (present : watched.observer = some pc) (before : pc.subtracts = false) :
    watched.completes (.load operand) = none := by
  cases operand <;> rw [completes, present] <;> cases pc <;> trivial

theorem effect_before (pc : SizePc config) (operand : Operand) (aware : Aware watched) (present : watched.observer = some pc)
    (before : pc.subtracts = false) :
    Aware (watched.load pc operand) ∧
      ((watched.load pc operand).Bounded ↔ watched.Bounded ∧ watched.Coherent (.load operand)) := by
  have coherent := coherent_none watched _ (completes_before watched pc operand present before)
  rcases load_before watched pc operand before with zero | ⟨next, goes, remembered⟩
  · rw [zero]
    refine ⟨⟨aware.counted, aware.later, trivial⟩, ?_, ?_⟩
    · intro bounded
      exact ⟨fun size member => bounded size (List.mem_cons_of_mem _ member), coherent⟩
    · rintro ⟨bounded, _⟩
      exact List.forall_mem_cons.mpr ⟨Nat.zero_le _, bounded⟩
  · rw [goes]
    exact ⟨⟨aware.counted, aware.later, remembered⟩, fun bounded => ⟨bounded, coherent⟩, fun bounded => bounded.1⟩

theorem effect_last (action : WatchedAction config Data) (subtraction : Subtraction) (width : config.bits ≤ 64)
    (after : Watched config Data) (completes : watched.completes action = some subtraction)
    (sizes : after.sizes = difference subtraction.crossed (config.number (subtraction.written + subtraction.wroteSince))
      (config.number (subtraction.consumed + subtraction.readSince)) :: watched.sizes) :
    after.Bounded ↔ watched.Bounded ∧ watched.Coherent action := by
  rw [coherent_some watched action _ completes, Bounded, sizes, List.forall_mem_cons, difference_iff width, and_comm]
  rfl

theorem effect_subtract (crossed : Bool) (wrIndex rdIndex : Option (Index config)) (operand : Operand) (width : config.bits ≤ 64)
    (aware : Aware watched) (present : watched.observer = some (.subtract crossed wrIndex rdIndex))
    (awaits : missing wrIndex rdIndex operand = true) :
    Aware (watched.load (.subtract crossed wrIndex rdIndex) operand) ∧
      ((watched.load (.subtract crossed wrIndex rdIndex) operand).Bounded ↔ watched.Bounded ∧ watched.Coherent (.load operand)) := by
  obtain ⟨counted, ⟨written, consumed⟩, known⟩ := aware
  rw [present] at known
  cases operand with
  | write =>
      cases wrIndex with
      | some _ => cases rdIndex <;> cases awaits
      | none =>
          cases rdIndex with
          | none =>
              have opening := coherent_none watched (.load .write) (by rw [completes, present])
              exact ⟨⟨counted, ⟨Nat.le_refl _, Nat.le_refl _⟩, counted.1⟩, iff_self_and.mpr fun _ => opening⟩
          | some rdIndex =>
              refine ⟨⟨counted, ⟨written, consumed⟩, trivial⟩, effect_last watched _ _ width _ (by rw [completes, present]) ?_⟩
              rw [Nat.add_sub_cancel' written, Nat.add_zero, ← counted.1, ← known]
              rfl
  | read =>
      cases rdIndex with
      | some _ => cases wrIndex <;> cases awaits
      | none =>
          cases wrIndex with
          | none =>
              have opening := coherent_none watched (.load .read) (by rw [completes, present])
              exact ⟨⟨counted, ⟨Nat.le_refl _, Nat.le_refl _⟩, counted.2⟩, iff_self_and.mpr fun _ => opening⟩
          | some wrIndex =>
              refine ⟨⟨counted, ⟨written, consumed⟩, trivial⟩, effect_last watched _ _ width _ (by rw [completes, present]) ?_⟩
              rw [Nat.add_sub_cancel' consumed, Nat.add_zero, ← counted.2, ← known]
              rfl

theorem effect_load (pc : SizePc config) (operand : Operand) (width : config.bits ≤ 64) (aware : Aware watched)
    (present : watched.observer = some pc) (awaits : pc.awaits operand = true) :
    Aware (watched.load pc operand) ∧
      ((watched.load pc operand).Bounded ↔ watched.Bounded ∧ watched.Coherent (.load operand)) := by
  cases pc with
  | subtract crossed wrIndex rdIndex => exact effect_subtract watched crossed wrIndex rdIndex operand width aware present awaits
  | _ => exact effect_before watched _ operand aware present rfl

variable [DecidableEq Data] [Zero Data]

theorem effect_next (action : WatchedAction config Data) (after : Watched config Data) (width : config.bits ≤ 64)
    (aware : Aware watched) (moved : watched.next action = some after) :
    Aware after ∧ (after.Bounded ↔ watched.Bounded ∧ watched.Coherent action) := by
  cases action with
  | queue action =>
      obtain ⟨system, stepped, rfl⟩ := Option.map_eq_some_iff.mp moved
      exact ⟨aware_queue watched action system aware stepped, iff_self_and.mpr fun _ => coherent_none watched _ rfl⟩
  | size =>
      simp only [next] at moved
      split at moved
      · cases moved
        exact ⟨⟨aware.counted, aware.later, trivial⟩, iff_self_and.mpr fun _ => coherent_none watched _ rfl⟩
      · cases moved
  | load operand =>
      obtain ⟨pc, loads, rfl⟩ := Option.map_eq_some_iff.mp moved
      obtain ⟨present, awaits⟩ := Option.filter_eq_some_iff.mp loads
      exact effect_load watched pc operand width aware present awaits

end Watched

variable [DecidableEq Data] [Zero Data]

-- A run keeps every size within the capacity exactly when each of its subtractions is coherent.
theorem size_bounded_iff (permitted : System config Data → Action config Data → Prop) (width : config.bits = 32 ∨ config.bits = 64)
    (actions : List (WatchedAction config Data)) (watched : Watched config Data)
    (run : Transition.Path (watchedMachine config Data) (Watched.Permits permitted) (Watched.initial config Data) actions watched) :
    (∀ size ∈ watched.sizes, size.toNat ≤ config.size) ↔
      Transition.Path (watchedMachine config Data) (fun watched action => watched.Permits permitted action ∧ watched.Coherent action)
        (Watched.initial config Data) actions watched := by
  have conditioned := Transition.path_condition_iff (watchedMachine config Data) (Watched.Permits permitted) Watched.Aware Watched.Bounded
    Watched.Coherent (fun state action next aware moved => (Watched.effect_next state action next (by omega) aware moved).1)
    (fun state action next aware moved => (Watched.effect_next state action next (by omega) aware moved).2)
    _ watched actions run ⟨⟨rfl, rfl⟩, ⟨Nat.le_refl _, Nat.le_refl _⟩, trivial⟩
  have none : (Watched.initial config Data).Bounded := fun size member => by cases member
  exact conditioned.trans (and_iff_right none)

-- With no step of the queue between its loads the call computes the size of the memory it finds.
theorem size_alone (watched : Watched config Data) (idle : watched.observer = none) :
    ∃ (operands : List Operand) (opening : List (Event config Data)),
      Transition.run (watchedMachine config Data) (.size :: operands.map WatchedAction.load) watched = some
        { watched with opening := opening, sizes := watched.system.memory.size :: watched.sizes } := by
  obtain ⟨system, _, opening, sizes⟩ := watched
  cases idle
  have entered (operands : List Operand) :
      Transition.run (watchedMachine config Data) (.size :: (.read :: .read :: operands).map WatchedAction.load)
          ⟨system, none, opening, sizes⟩ =
        Transition.run (watchedMachine config Data) (operands.map WatchedAction.load)
          (Watched.load ⟨system, some (.emptySlot system.memory.readIndex), opening, sizes⟩
            (.emptySlot system.memory.readIndex) .read) := rfl
  by_cases empty : (system.memory.entry system.memory.readIndex).seq = system.memory.readIndex <<< 1
  · have zero : system.memory.size = 0 := by
      rw [Memory.size, Memory.isEmpty, beq_iff_eq.mpr empty, if_pos rfl]
    refine ⟨[.read, .read], opening, ?_⟩
    rw [entered, zero]
    simp only [Watched.load, sizeStep, if_pos empty]
    rfl
  · have held : system.memory.isEmpty = false := beq_eq_false_iff_ne.mpr empty
    have value : difference (!decide (system.memory.writeIndex ≥ system.memory.readIndex)) system.memory.writeIndex
        system.memory.readIndex = system.memory.size := by
      rw [Memory.size, held, if_neg Bool.false_ne_true, difference]
      by_cases ordered : system.memory.writeIndex ≥ system.memory.readIndex <;> simp [ordered]
    refine ⟨[.read, .read, .write, .read, .write, .read], system.log, ?_⟩
    rw [entered, ← value]
    simp only [Watched.load, sizeStep, if_neg empty]
    rfl

-- The indices of one moment are at most one lap and one operation apart, so whatever exceeds that
-- has been put together from different moments.
theorem size_moment (promise : System config Data → Action config Data → Prop) (system : System config Data)
    (reached : System.Reached promise system) (width : config.bits ≤ 64) (unwrapped : stores system.log < 2 ^ config.bits) :
    system.memory.size.toNat ≤ config.size + 1 := by
  have indexed := holds_indexed system.memory system.log (invariant_reached promise system reached).holds
  have room := indexed.room
  have write := indexed.writeLag
  have read := indexed.readLag
  have positive := config.size_positive
  have fits : 2 ^ config.bits ≤ 2 ^ 64 := Nat.pow_le_pow_right (by decide) width
  have writeNat : system.memory.writeIndex.toNat = writes system.log := by
    rw [indexed.writeIndex, BitVec.toNat_ofNat, Nat.mod_eq_of_lt (by omega)]
  have readNat : system.memory.readIndex.toNat = reads system.log := by
    rw [indexed.readIndex, BitVec.toNat_ofNat, Nat.mod_eq_of_lt (by omega)]
  cases empty : system.memory.isEmpty with
  | true =>
      rw [Memory.size, empty, if_pos rfl]
      exact Nat.zero_le _
  | false =>
      by_cases ordered : system.memory.readIndex ≤ system.memory.writeIndex
      · rw [size_ordered system.memory empty width ordered]
        omega
      · rw [size_wrapped system.memory empty width ordered]
        rw [BitVec.le_def] at ordered
        omega

end

-- A queue with non-lazy indices, whose other threads only push and pop, in time.
def Timed : Watched smallQueue Nat → WatchedAction smallQueue Nat → Prop := Watched.Permits (System.Allowed PushPopOnly)

instance (watched : Watched smallQueue Nat) (action : WatchedAction smallQueue Nat) : Decidable (Timed watched action) :=
  inferInstanceAs (Decidable (watched.Permits (System.Allowed PushPopOnly) action))

def pushSteps (d : Nat) : List (WatchedAction smallQueue Nat) :=
  (.call 0 (.push d) :: List.replicate 4 (.step 0)).map WatchedAction.queue

def popSteps : List (WatchedAction smallQueue Nat) := (.call 1 .pop :: List.replicate 4 (.step 1)).map WatchedAction.queue

def sizeSteps : List (WatchedAction smallQueue Nat) := [.size, .load .read, .load .read, .load .write, .load .read, .load .write]

def watchedRun (promise : Watched smallQueue Nat → WatchedAction smallQueue Nat → Prop)
    [∀ watched action, Decidable (promise watched action)] (actions : List (WatchedAction smallQueue Nat)) : Option (Watched smallQueue Nat) :=
  Transition.checkedRun (watchedMachine smallQueue Nat) promise actions (Watched.initial smallQueue Nat)

theorem watched_run_path (promise : Watched smallQueue Nat → WatchedAction smallQueue Nat → Prop)
    [∀ watched action, Decidable (promise watched action)] (actions : List (WatchedAction smallQueue Nat))
    (done : (watchedRun promise actions).isSome = true) :
    Transition.Path (watchedMachine smallQueue Nat) promise (Watched.initial smallQueue Nat) actions
      ((watchedRun promise actions).get done) :=
  Transition.checked_run_path (watchedMachine smallQueue Nat) promise actions _ _ (Option.some_get done).symm

def poppedBetween : List (WatchedAction smallQueue Nat) := pushSteps 1 ++ pushSteps 2 ++ sizeSteps ++ popSteps ++ [.load .read]

def TimedCoherent (watched : Watched smallQueue Nat) (action : WatchedAction smallQueue Nat) : Prop :=
  Timed watched action ∧ watched.Coherent action

instance (watched : Watched smallQueue Nat) (action : WatchedAction smallQueue Nat) : Decidable (TimedCoherent watched action) :=
  inferInstanceAs (Decidable (_ ∧ _))

theorem popped_between_runs : (watchedRun TimedCoherent poppedBetween).isSome = true := by decide +kernel

theorem size_bounded_popped :
    let watched := (watchedRun TimedCoherent poppedBetween).get popped_between_runs
    watched.sizes = [1] ∧ ∀ size ∈ watched.sizes, size.toNat ≤ 2 := by
  intro watched
  have run := watched_run_path TimedCoherent poppedBetween popped_between_runs
  have timed := Transition.path_weaken _ _ Timed (fun _ _ both => both.1) _ watched poppedBetween run
  exact ⟨by decide +kernel, (size_bounded_iff (System.Allowed PushPopOnly) (.inl rfl) poppedBetween watched timed).mpr run⟩

-- A consumer pops the only element, a producer pushes another and the consumer pops that too,
-- all between the two loads.
def overtaken : List (WatchedAction smallQueue Nat) :=
  pushSteps 1 ++ sizeSteps ++ popSteps ++ pushSteps 2 ++ popSteps ++ [.load .read]

-- A consumer is suspended between taking its element and advancing the read index, and a producer
-- fills the slot again.
def refilled : List (WatchedAction smallQueue Nat) :=
  pushSteps 1 ++ pushSteps 2 ++ popSteps.take 4 ++ pushSteps 3 ++ sizeSteps ++ [.load .read]

theorem overtaken_runs : (watchedRun Timed overtaken).isSome = true := by decide +kernel

theorem refilled_runs : (watchedRun Timed refilled).isSome = true := by decide +kernel

theorem size_beyond_capacity :
    ((watchedRun Timed overtaken).get overtaken_runs).sizes = [0xFFFFFFFF] ∧
      ((watchedRun Timed refilled).get refilled_runs).sizes = [3] ∧
      ¬ ∀ actions watched,
        Transition.Path (watchedMachine smallQueue Nat) Timed (Watched.initial smallQueue Nat) actions watched →
          ∀ size ∈ watched.sizes, size.toNat ≤ smallQueue.size := by
  have sizes : ((watchedRun Timed overtaken).get overtaken_runs).sizes = [0xFFFFFFFF] := by decide +kernel
  refine ⟨sizes, by decide +kernel, fun always => ?_⟩
  have bounded := always overtaken _ (watched_run_path Timed overtaken overtaken_runs) 0xFFFFFFFF
    (by rw [sizes]; exact List.mem_singleton_self _)
  exact absurd bounded (by decide)

end LockfreeQueue
