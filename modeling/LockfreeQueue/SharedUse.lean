import LockfreeQueue.MappedSteps
import LockfreeQueue.Reached

set_option autoImplicit false

namespace LockfreeQueue

open Bytes

-- producer_count and consumer_count of the header: a 32 bit word that is only ever incremented
-- and decremented.
def counted (spot : Nat) (bytes : Nat → Byte) : BitVec 32 := BitVec.ofNat 32 (join (slice bytes spot 4))

def recount (spot : Nat) (amount : BitVec 32) (bytes : Nat → Byte) : Nat → Byte :=
  patch bytes spot (split 4 (counted spot bytes + amount).toNat)

def producersInc : (Nat → Byte) → Nat → Byte := recount 32 1

def producersDec : (Nat → Byte) → Nat → Byte := recount 32 (-1)

def consumersInc : (Nat → Byte) → Nat → Byte := recount 36 1

def consumersDec : (Nat → Byte) → Nat → Byte := recount 36 (-1)

-- int32_t converted to size_t.
def getProducersCount (bytes : Nat → Byte) : BitVec 64 := (counted 32 bytes).signExtend 64

def getConsumersCount (bytes : Nat → Byte) : BitVec 64 := (counted 36 bytes).signExtend 64

-- The classes producer and consumer of a shared queue.
inductive Accessing where
  | producer
  | consumer
deriving DecidableEq

namespace Accessing

def spot : Accessing → Nat
  | .producer => 32
  | .consumer => 36

def constructs : Accessing → (Nat → Byte) → Nat → Byte
  | .producer => producersInc
  | .consumer => consumersInc

def destroys : Accessing → (Nat → Byte) → Nat → Byte
  | .producer => producersDec
  | .consumer => consumersDec

end Accessing

-- A shared queue in use: the bytes that all processes map, the calls of their threads, and how
-- many accessors are alive. Calls go through an accessor or to the queue itself.
structure MappedSystem (q : Instantiation) where
  bytes : Nat → Byte
  register : Nat → List Byte
  tasks : Nat → Option (Task q.config q.Data)
  alive : Accessing → Nat

-- Accessors are not copied: a copy would not be counted, and its destructor would lower the count.
inductive MappedAction (q : Instantiation) where
  | construct (accessing : Accessing)
  | destroy (accessing : Accessing)
  | queue (action : Action q.config q.Data)

def MappedAction.onQueue {q : Instantiation} : MappedAction q → Option (Action q.config q.Data)
  | .queue action => some action
  | _ => none

namespace MappedSystem

section

variable {q : Instantiation}

-- The file as a constructor of the shared queue has created it.
def start (q : Instantiation) (file : File) (stack : Stack) : MappedSystem q :=
  ⟨(q.created file stack).byte, fun _ => [], fun _ => none, fun _ => 0⟩

def stepTask (mapped : MappedSystem q) (thread : Nat) (task : Task q.config q.Data) : MappedSystem q :=
  let effect := q.execMapped queueStart mapped.bytes (mapped.register thread) task.pc
  { mapped with
    bytes := effect.bytes
    register := Function.update mapped.register thread effect.register
    tasks := Function.update mapped.tasks thread (resume task effect.next).1 }

def next (mapped : MappedSystem q) : MappedAction q → Option (MappedSystem q)
  | .construct accessing =>
      some { mapped with
        bytes := accessing.constructs mapped.bytes
        alive := Function.update mapped.alive accessing (mapped.alive accessing + 1) }
  | .destroy accessing =>
      if 0 < mapped.alive accessing then
        some { mapped with
          bytes := accessing.destroys mapped.bytes
          alive := Function.update mapped.alive accessing (mapped.alive accessing - 1) }
      else none
  | .queue (.call thread call) =>
      if (mapped.tasks thread).isNone then some { mapped with tasks := Function.update mapped.tasks thread (some call.start) } else none
  | .queue (.step thread) => (mapped.tasks thread).map (mapped.stepTask thread)

def machine (q : Instantiation) (file : File) (stack : Stack) : Transition.Machine (MappedSystem q) (MappedAction q) :=
  ⟨start q file stack, next⟩

-- The bytes hold the queue of `system`, in front of it still its description and the two counts.
structure Serves (mapped : MappedSystem q) (system : System q.config q.Data) : Prop where
  maps : q.Maps queueStart mapped.bytes system.memory
  tasks : mapped.tasks = system.tasks
  holding : ∀ thread task, system.tasks thread = some task → q.Holding (mapped.register thread) task.pc
  described : slice mapped.bytes 0 q.described.length = q.described
  counts : ∀ accessing : Accessing, counted accessing.spot mapped.bytes = BitVec.ofNat 32 (mapped.alive accessing)

end

end MappedSystem

theorem recount_counted (spot : Nat) (amount : BitVec 32) (bytes : Nat → Byte) :
    counted spot (recount spot amount bytes) = counted spot bytes + amount := by
  rw [recount, counted, slice_patch_split, join_split, Nat.mod_eq_of_lt (by exact (counted spot bytes + amount).isLt), BitVec.ofNat_toNat,
    BitVec.setWidth_eq]

theorem recount_apart (spot place count : Nat) (amount : BitVec 32) (bytes : Nat → Byte)
    (apart : place + count ≤ spot ∨ spot + 4 ≤ place) : slice (recount spot amount bytes) place count = slice bytes place count := by
  rw [recount, slice_patch_apart _ _ _ _ _ (by rw [split_length]; exact apart)]

namespace MappedSystem

section

variable {q : Instantiation} (mapped : MappedSystem q) (system : System q.config q.Data)

theorem serves_start (file : File) (stack : Stack) (empty : file.length = 0) :
    Serves (start q file stack) (System.initial q.config q.Data) := by
  have bytes := q.created_byte file stack
  refine ⟨?_, rfl, (fun thread task running => nomatch running), q.created_described file stack empty, fun accessing => ?_⟩
  · rw [start, bytes]
    exact q.construction_maps queueStart _
  · have header := q.created_header file stack empty
    have zeros (spot : Nat) (inside : spot = 32 ∨ spot = 36) : slice (q.created file stack).byte spot 4 = split 4 0 := by
      have part := slice_within (q.created file stack).byte 0 headerSize spot 4 (by rw [headerSize]; omega)
      have described := q.described_length
      rw [header, Instantiation.built, Instantiation.fields, Nat.zero_add, List.append_assoc, List.append_assoc] at part
      rcases inside with rfl | rfl
      · rw [← part, List.drop_append, List.drop_eq_nil_of_le (by omega), described, List.nil_append]
        rfl
      · rw [← part, List.drop_append, List.drop_eq_nil_of_le (by omega), described, List.nil_append]
        rfl
    rw [start, counted, zeros accessing.spot (by cases accessing <;> simp [Accessing.spot]), join_split]
    rfl

-- The counts lie between the description and the queue.
theorem serves_recount (serves : Serves mapped system) (accessing : Accessing) (amount : BitVec 32) (alive : Nat)
    (kept : counted accessing.spot mapped.bytes + amount = BitVec.ofNat 32 alive) :
    Serves { mapped with
      bytes := recount accessing.spot amount mapped.bytes
      alive := Function.update mapped.alive accessing alive } system := by
  have place : accessing.spot = 32 ∨ accessing.spot = 36 := by cases accessing <;> simp [Accessing.spot]
  refine ⟨?_, serves.tasks, serves.holding, ?_, fun other => ?_⟩
  · refine q.maps_behind queueStart mapped.bytes system.memory _ serves.maps fun spot behind => ?_
    exact patch_outside mapped.bytes _ _ spot (.inr (by rw [split_length]; rw [queueStart] at behind; omega))
  · have description := q.described_length
    rw [recount_apart _ _ _ _ _ (.inl (by omega))]
    exact serves.described
  · by_cases same : other = accessing
    · subst same
      change counted other.spot (recount _ _ _) = BitVec.ofNat 32 (Function.update mapped.alive other alive other)
      rw [recount_counted, Function.update_self]
      exact kept
    · have apart : other.spot + 4 ≤ accessing.spot ∨ accessing.spot + 4 ≤ other.spot := by
        cases other <;> cases accessing <;> simp [Accessing.spot] at same ⊢
      change counted other.spot (recount _ _ _) = BitVec.ofNat 32 (Function.update mapped.alive accessing alive other)
      rw [Function.update_of_ne same, counted, recount_apart _ _ _ _ _ apart]
      exact serves.counts other

theorem serves_call (serves : Serves mapped system) (thread : Nat) (call : Call q.config q.Data) :
    Serves { mapped with tasks := Function.update mapped.tasks thread (some call.start) } (system.startCall thread call) := by
  refine ⟨serves.maps, ?_, fun other task running => ?_, serves.described, serves.counts⟩
  · exact congrArg (fun tasks => Function.update tasks thread (some call.start)) serves.tasks
  · rcases start_call_cases system thread other call task running with ⟨rfl, rfl⟩ | ⟨_, before⟩
    · cases call <;> trivial
    · exact serves.holding other task before

theorem serves_step (serves : Serves mapped system) (thread : Nat) (task : Task q.config q.Data)
    (running : system.tasks thread = some task) : Serves (mapped.stepTask thread task) (system.stepTask thread task) := by
  have follows := q.exec_mapped_follows queueStart mapped.bytes system.memory serves.maps (mapped.register thread) task.pc
    (serves.holding thread task running)
  have front (place count : Nat) (before : place + count ≤ queueStart) :
      slice (mapped.stepTask thread task).bytes place count = slice mapped.bytes place count :=
    slice_congr _ _ _ _ _ fun spot below => q.exec_mapped_front queueStart mapped.bytes _ task.pc _ (by omega)
  refine ⟨follows.maps, ?_, fun other next present => ?_, ?_, fun accessing => ?_⟩
  · rw [stepTask, System.stepTask, follows.next, serves.tasks]
  · change q.Holding (Function.update mapped.register thread _ other) next.pc
    rcases step_task_cases system thread other task next present with ⟨rfl, continues⟩ | ⟨different, before⟩
    · rw [Function.update_self]
      rcases resume_pc task next _ continues with goes | ⟨load, _⟩
      · exact follows.holding next.pc goes
      · cases entered : next.pc <;> rw [entered] at load <;> trivial
    · rw [Function.update_of_ne different]
      exact serves.holding other next before
  · rw [front _ _ (by rw [q.described_length, queueStart]; omega)]
    exact serves.described
  · rw [counted, front _ _ (by cases accessing <;> simp [Accessing.spot, queueStart])]
    exact serves.counts accessing

-- Nothing but the calls moves the queue: constructing and destroying accessors leaves it alone.
theorem serves_silent (action : MappedAction q) (next : MappedSystem q) (serves : Serves mapped system)
    (silent : action.onQueue = none) (moved : mapped.next action = some next) : Serves next system := by
  cases action with
  | construct accessing =>
      cases moved
      have before := serves.counts accessing
      cases accessing
      · exact serves_recount mapped system serves .producer 1 _ (by rw [before, BitVec.ofNat_add]; rfl)
      · exact serves_recount mapped system serves .consumer 1 _ (by rw [before, BitVec.ofNat_add]; rfl)
  | destroy accessing =>
      rw [MappedSystem.next] at moved
      split at moved
      · rename_i alive
        cases moved
        have before := serves.counts accessing
        have one : BitVec.ofNat 32 (mapped.alive accessing) + -1 = BitVec.ofNat 32 (mapped.alive accessing - 1) := by
          obtain ⟨rest, more⟩ := Nat.exists_eq_add_one.mpr alive
          have back : BitVec.ofNat 32 1 + -1 = 0#32 := by decide
          rw [more, BitVec.ofNat_add, Nat.add_sub_cancel, BitVec.add_assoc, back, BitVec.add_zero]
        cases accessing
        · exact serves_recount mapped system serves .producer (-1) _ (by rw [before, one])
        · exact serves_recount mapped system serves .consumer (-1) _ (by rw [before, one])
      · cases moved
  | queue action => cases silent

theorem serves_follows (action : MappedAction q) (move : Action q.config q.Data) (next : MappedSystem q) (serves : Serves mapped system)
    (named : action.onQueue = some move) (moved : mapped.next action = some next) :
    ∃ after, system.next move = some after ∧ Serves next after := by
  cases action with
  | construct accessing => cases named
  | destroy accessing => cases named
  | queue action =>
      obtain rfl : action = move := Option.some.inj named
      cases action with
      | call thread call =>
          rw [MappedSystem.next, serves.tasks] at moved
          split at moved
          · rename_i idle
            cases moved
            have held := serves_call mapped system serves thread call
            rw [serves.tasks] at held
            exact ⟨system.startCall thread call, if_pos idle, held⟩
          · cases moved
      | step thread =>
          rw [MappedSystem.next, serves.tasks] at moved
          obtain ⟨task, running, result⟩ := Option.map_eq_some_iff.mp moved
          subst result
          refine ⟨system.stepTask thread task, ?_, serves_step mapped system serves thread task running⟩
          rw [System.next, running]
          rfl

end

-- Whatever processes do with a shared queue, the file holds what the same calls make of a queue
-- in memory, every access gives what it gives there, a constructor that comes later attaches, and
-- the counts are those of the accessors alive.
theorem mapped_refines (q : Instantiation) (file : File) (stack : Stack) (empty : file.length = 0) (actions : List (MappedAction q))
    (after : MappedSystem q) (ran : Transition.run (machine q file stack) actions (start q file stack) = some after) :
    ∃ system, Transition.run (queueMachine q.config q.Data) (actions.filterMap MappedAction.onQueue)
        (System.initial q.config q.Data) = some system ∧
      q.decode after.bytes queueStart = system.memory ∧ after.tasks = system.tasks ∧
      (∀ thread task, system.tasks thread = some task →
        (q.execMapped queueStart after.bytes (after.register thread) task.pc).next = (exec system.memory task.pc).next) ∧
      q.Accepts (slice after.bytes 0 headerSize) ∧
      (after.alive .producer < 2 ^ 31 → (getProducersCount after.bytes).toNat = after.alive .producer) ∧
      (after.alive .consumer < 2 ^ 31 → (getConsumersCount after.bytes).toNat = after.alive .consumer) := by
  obtain ⟨system, moved, serves⟩ := Transition.run_simulates (machine q file stack) (queueMachine q.config q.Data)
    MappedAction.onQueue Serves (fun mapped system action next => serves_silent mapped system action next)
    (fun mapped system action move next => serves_follows mapped system action move next) actions _ after _
    (serves_start file stack empty) ran
  have few (bytes : Nat → Byte) (spot alive : Nat) (count : counted spot bytes = BitVec.ofNat 32 alive) (small : alive < 2 ^ 31) :
      ((counted spot bytes).signExtend 64).toNat = alive := by
    have low : (BitVec.ofNat 32 alive).msb = false := by
      rw [BitVec.msb_eq_false_iff_two_mul_lt, BitVec.toNat_ofNat]
      omega
    rw [count, BitVec.signExtend_eq_setWidth_of_msb_false low, BitVec.toNat_setWidth, BitVec.toNat_ofNat]
    omega
  refine ⟨system, moved, q.maps_decode queueStart after.bytes system.memory serves.maps, serves.tasks, fun thread task running => ?_,
    (q.accepts_front q after.bytes serves.described).mpr rfl, few _ _ _ (serves.counts .producer), few _ _ _ (serves.counts .consumer)⟩
  exact (q.exec_mapped_follows queueStart after.bytes system.memory serves.maps (after.register thread) task.pc
    (serves.holding thread task running)).next

end MappedSystem

-- A producer pushes through its accessor and is gone before a consumer pops.
def pushThenLeave : List (MappedAction smallShared) :=
  [.construct .producer, .queue (.call 0 (.push 7))] ++ List.replicate 4 (.queue (.step 0)) ++
    [.destroy .producer, .construct .consumer, .queue (.call 1 .pop)] ++ List.replicate 3 (.queue (.step 1))

theorem push_then_leave_runs : (Transition.run (MappedSystem.machine smallShared File.created clearStack) pushThenLeave
    (MappedSystem.start smallShared File.created clearStack)).isSome = true := by decide +kernel

theorem mapped_refines_left :
    let after := (Transition.run (MappedSystem.machine smallShared File.created clearStack) pushThenLeave
      (MappedSystem.start smallShared File.created clearStack)).get push_then_leave_runs
    (∃ system, Transition.run (queueMachine smallShared.config smallShared.Data) (pushThenLeave.filterMap MappedAction.onQueue)
        (System.initial smallShared.config smallShared.Data) = some system ∧
      smallShared.decode after.bytes queueStart = system.memory) ∧
    smallShared.Accepts (slice after.bytes 0 headerSize) ∧ (getProducersCount after.bytes).toNat = 0 ∧
      (getConsumersCount after.bytes).toNat = 1 := by
  intro after
  have alive : after.alive .producer = 0 ∧ after.alive .consumer = 1 := by decide +kernel
  obtain ⟨system, ran, memory, _, _, accepts, producers, consumers⟩ := MappedSystem.mapped_refines smallShared File.created clearStack rfl
    pushThenLeave after (Option.some_get push_then_leave_runs).symm
  exact ⟨⟨system, ran, memory⟩, accepts, (producers (by rw [alive.1]; decide)).trans alive.1,
    (consumers (by rw [alive.2]; decide)).trans alive.2⟩

end LockfreeQueue
