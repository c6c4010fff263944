import Mathlib.Data.List.Nodup
import LockfreeQueue.Library.Fifo
import LockfreeQueue.Library.Word

set_option autoImplicit false

namespace LockfreeQueue

-- The template parameters G and K of mpmc_queue_pack and the size its internal queues get.
structure PackConfig where
  G : Nat
  K : Nat
  qsz : Nat
  grouped : 0 < G

-- _queues[i], for the indices that the accessors keep below G.
def PackConfig.queue (config : PackConfig) (index : Nat) : Fin config.G :=
  ⟨index % config.G, Nat.mod_lt index config.grouped⟩

-- A value with the producer accessor that pushed it, which no operation reads.
structure Item (Data : Type) where
  producer : Nat
  value : Data
deriving DecidableEq

structure Producer (config : PackConfig) where
  queueIndex : Nat
  writeQueue : Fin config.G

-- `scan` is the loop variable of a pop that is looking through the other queues, and none
-- between calls; `tried` lists the queues that the call in progress has found empty.
structure Consumer (config : PackConfig) where
  readQueueIndex : Nat
  readQueue : Fin config.G
  popCount : Nat
  scan : Option Nat
  tried : List (Fin config.G)

inductive PackEvent (config : PackConfig) (Data : Type) where
  | pushed (item : Item Data)
  | popped (consumer : Nat) (source : Fin config.G) (item : Item Data)
  | refused (consumer : Nat) (tried : List (Fin config.G))

-- The log has the latest event last.
structure Pack (config : PackConfig) (Data : Type) where
  queues : Fin config.G → Fifo (Item Data) config.qsz
  writersCount : BitVec 64
  readersCount : BitVec 64
  producers : List (Producer config)
  consumers : List (Consumer config)
  log : List (PackEvent config Data)

inductive PackAction (Data : Type) where
  | producer
  | consumer
  | push (producer : Nat) (d : Data)
  | pop (consumer : Nat)

section

variable {config : PackConfig} {Data : Type}

def Producer.make (config : PackConfig) (writersCount : BitVec 64) : Producer config :=
  let index := writersCount.toNat % config.G
  ⟨index, config.queue index⟩

def Consumer.make (config : PackConfig) (readersCount : BitVec 64) : Consumer config :=
  let index := readersCount.toNat % config.G
  ⟨index, config.queue index, 0, none, []⟩

-- The two assignments that step to the next queue: the index first, then the pointer.
def Consumer.advance (consumer : Consumer config) : Consumer config :=
  let index := (consumer.readQueueIndex + 1) % config.G
  { consumer with readQueueIndex := index, readQueue := config.queue index }

def Consumer.count (consumer : Consumer config) : Consumer config :=
  if consumer.popCount + 1 ≥ config.K then { consumer with popCount := 0 }.advance
  else { consumer with popCount := consumer.popCount + 1 }

def Pack.take (pack : Pack config Data) (c : Nat) (consumer : Consumer config) (item : Item Data)
    (rest : Fifo (Item Data) config.qsz) (after : Consumer config) : Pack config Data :=
  { pack with
    queues := Function.update pack.queues consumer.readQueue rest
    consumers := pack.consumers.set c { after with scan := none, tried := [] }
    log := pack.log ++ [.popped c consumer.readQueue item] }

-- Found the queue empty, with k the loop variable of the next iteration: at G the call returns false.
def Pack.miss (pack : Pack config Data) (c : Nat) (consumer : Consumer config) (k : Nat) : Pack config Data :=
  let tried := consumer.tried ++ [consumer.readQueue]
  if k < config.G then { pack with consumers := pack.consumers.set c { consumer with scan := some k, tried := tried } }
  else
    { pack with
      consumers := pack.consumers.set c { consumer with scan := none, tried := [] }
      log := pack.log ++ [.refused c tried] }

-- One operation on an internal queue: the first of a call of pop, or the one in the loop body.
def Pack.pop (pack : Pack config Data) (c : Nat) (consumer : Consumer config) : Pack config Data :=
  match consumer.scan with
  | none =>
      match (pack.queues consumer.readQueue).pop? with
      | some (item, rest) => pack.take c consumer item rest consumer.count
      | none => pack.miss c { consumer with popCount := 0 } 1
  | some k =>
      let moved := consumer.advance
      match (pack.queues moved.readQueue).pop? with
      | some (item, rest) => pack.take c moved item rest moved
      | none => pack.miss c moved (k + 1)

def Pack.push (pack : Pack config Data) (p : Nat) (producer : Producer config) (d : Data) : Pack config Data :=
  match (pack.queues producer.writeQueue).push? ⟨p, d⟩ with
  | some next => { pack with queues := Function.update pack.queues producer.writeQueue next, log := pack.log ++ [.pushed ⟨p, d⟩] }
  | none => pack

def Pack.initial (config : PackConfig) (Data : Type) : Pack config Data := ⟨fun _ => Fifo.empty, 0, 0, [], [], []⟩

def Pack.next (pack : Pack config Data) : PackAction Data → Option (Pack config Data)
  | .producer =>
      some { pack with
        writersCount := pack.writersCount + 1
        producers := pack.producers ++ [Producer.make config pack.writersCount] }
  | .consumer =>
      some { pack with
        readersCount := pack.readersCount + 1
        consumers := pack.consumers ++ [Consumer.make config pack.readersCount] }
  | .push p d => pack.producers[p]?.map fun producer => pack.push p producer d
  | .pop c => pack.consumers[c]?.map fun consumer => pack.pop c consumer

def packMachine (config : PackConfig) (Data : Type) : Transition.Machine (Pack config Data) (PackAction Data) :=
  ⟨Pack.initial config Data, Pack.next⟩

theorem queue_eq_iff (config : PackConfig) (a b : Nat) : config.queue a = config.queue b ↔ a % config.G = b % config.G := by
  rw [PackConfig.queue, PackConfig.queue, Fin.mk.injEq]

theorem queue_mod (config : PackConfig) (a : Nat) : config.queue (a % config.G) = config.queue a := by
  rw [queue_eq_iff, Nat.mod_mod]

theorem queue_succ (config : PackConfig) (a b : Nat) (same : config.queue a = config.queue b) :
    config.queue (a + 1) = config.queue (b + 1) := by
  rw [queue_eq_iff] at same ⊢
  exact Nat.ModEq.add_right 1 same

theorem queue_reach (config : PackConfig) (base : Nat) (j : Fin config.G) : ∃ beyond < config.G, config.queue (base + beyond) = j := by
  obtain ⟨lower, upper, residue⟩ := Word.at_least_spec config.G base j.val config.grouped
  refine ⟨Word.atLeast config.G base j.val - base, by omega, ?_⟩
  rw [Nat.add_sub_cancel' lower]
  exact Fin.ext (residue.trans (Nat.mod_eq_of_lt j.isLt))

theorem advance_queue (consumer : Consumer config) : consumer.advance.readQueue = config.queue (consumer.readQueueIndex + 1) :=
  queue_mod config (consumer.readQueueIndex + 1)

-- The consumer at the moment of its next operation on a queue, and as that operation leaves it.
def Consumer.aimed (consumer : Consumer config) : Consumer config :=
  match consumer.scan with
  | none => consumer
  | some _ => consumer.advance

def Consumer.found (consumer : Consumer config) : Consumer config :=
  match consumer.scan with
  | none => consumer.count
  | some _ => consumer.advance

def Consumer.missed (consumer : Consumer config) : Consumer config :=
  match consumer.scan with
  | none => { consumer with popCount := 0 }
  | some _ => consumer.advance

def Consumer.following (consumer : Consumer config) : Nat :=
  match consumer.scan with
  | none => 1
  | some k => k + 1

-- The pointer agrees with the index, and the queues tried are the ones before it.
structure Consumer.Placed (consumer : Consumer config) : Prop where
  pointer : consumer.readQueue = config.queue consumer.readQueueIndex
  counted : 0 < config.K → consumer.popCount < config.K
  way : match consumer.scan with
    | none => consumer.tried = []
    | some k => 0 < k ∧ k < config.G ∧ consumer.popCount = 0 ∧ ∃ start,
        consumer.tried = (List.range k).map (fun i => config.queue (start + i)) ∧
          config.queue (consumer.readQueueIndex + 1) = config.queue (start + k)

theorem pop_step (pack : Pack config Data) (c : Nat) (consumer : Consumer config) :
    (∃ item rest, (pack.queues consumer.aimed.readQueue).pop? = some (item, rest) ∧
      pack.pop c consumer = pack.take c consumer.aimed item rest consumer.found) ∨
    ((pack.queues consumer.aimed.readQueue).pop? = none ∧
      pack.pop c consumer = pack.miss c consumer.missed consumer.following) := by
  cases place : consumer.scan with
  | none =>
      simp only [Pack.pop, Consumer.aimed, Consumer.found, Consumer.missed, Consumer.following, place]
      cases popped : (pack.queues consumer.readQueue).pop? with
      | none => exact .inr ⟨rfl, rfl⟩
      | some pair => exact .inl ⟨pair.1, pair.2, rfl, rfl⟩
  | some k =>
      simp only [Pack.pop, Consumer.aimed, Consumer.found, Consumer.missed, Consumer.following, place]
      cases popped : (pack.queues consumer.advance.readQueue).pop? with
      | none => exact .inr ⟨rfl, rfl⟩
      | some pair => exact .inl ⟨pair.1, pair.2, rfl, rfl⟩

theorem missed_queue (consumer : Consumer config) : consumer.missed.readQueue = consumer.aimed.readQueue := by
  cases place : consumer.scan <;> simp only [Consumer.missed, Consumer.aimed, place]

theorem missed_tried (consumer : Consumer config) : consumer.missed.tried = consumer.tried := by
  cases place : consumer.scan <;> simp only [Consumer.missed, Consumer.advance, place]

theorem make_placed (config : PackConfig) (readersCount : BitVec 64) : (Consumer.make config readersCount).Placed :=
  ⟨rfl, fun positive => positive, rfl⟩

theorem found_placed (consumer : Consumer config) (placed : consumer.Placed) :
    ({ consumer.found with scan := none, tried := [] } : Consumer config).Placed := by
  cases place : consumer.scan with
  | none =>
      simp only [Consumer.found, place, Consumer.count]
      split
      · exact ⟨rfl, fun positive => positive, rfl⟩
      · rename_i fewer
        exact ⟨placed.pointer, fun _ => Nat.lt_of_not_ge fewer, rfl⟩
  | some k =>
      simp only [Consumer.found, place]
      exact ⟨rfl, placed.counted, rfl⟩

theorem missed_way (consumer : Consumer config) (placed : consumer.Placed) :
    consumer.missed.readQueue = config.queue consumer.missed.readQueueIndex ∧ 0 < consumer.following ∧
      consumer.following ≤ config.G ∧ consumer.missed.popCount = 0 ∧ ∃ start,
        consumer.missed.tried ++ [consumer.missed.readQueue] =
            (List.range consumer.following).map (fun i => config.queue (start + i)) ∧
          config.queue (consumer.missed.readQueueIndex + 1) = config.queue (start + consumer.following) := by
  obtain ⟨pointer, _, way⟩ := placed
  cases place : consumer.scan with
  | none =>
      rw [place] at way
      simp only [Consumer.missed, Consumer.following, place]
      refine ⟨pointer, Nat.zero_lt_one, config.grouped, trivial, consumer.readQueueIndex, ?_, rfl⟩
      rw [way, pointer]
      rfl
  | some k =>
      rw [place] at way
      obtain ⟨_, below, reset, start, tried, next⟩ := way
      simp only [Consumer.missed, Consumer.following, place]
      refine ⟨rfl, Nat.succ_pos k, below, reset, start, ?_, ?_⟩
      · rw [advance_queue, next, List.range_succ, List.map_append]
        change consumer.tried ++ [config.queue (start + k)] = _
        rw [tried]
        rfl
      · have moved : config.queue consumer.advance.readQueueIndex = config.queue (start + k) :=
          (queue_mod config (consumer.readQueueIndex + 1)).trans next
        exact queue_succ config _ _ moved

theorem missed_placed (consumer : Consumer config) (placed : consumer.Placed) (more : consumer.following < config.G) :
    ({ consumer.missed with
        scan := some consumer.following
        tried := consumer.missed.tried ++ [consumer.missed.readQueue] } : Consumer config).Placed := by
  obtain ⟨pointer, positive, _, reset, way⟩ := missed_way consumer placed
  exact ⟨pointer, fun count => reset.trans_lt count, positive, more, reset, way⟩

theorem returned_placed (consumer : Consumer config) (placed : consumer.Placed) :
    ({ consumer.missed with scan := none, tried := [] } : Consumer config).Placed := by
  obtain ⟨pointer, _, _, reset, _⟩ := missed_way consumer placed
  exact ⟨pointer, fun count => reset.trans_lt count, rfl⟩

-- A pop that gives up has tried every queue once.
theorem way_count (config : PackConfig) (start : Nat) (j : Fin config.G) :
    ((List.range config.G).map (fun i => config.queue (start + i))).count j = 1 := by
  apply List.count_eq_one_of_mem
  · refine List.Nodup.map_on ?_ List.nodup_range
    intro a aBound b bBound same
    rw [List.mem_range] at aBound bBound
    have equal := Word.window_unique config.G (start + a) (start + b) ((queue_eq_iff config _ _).mp same) (by omega) (by omega)
    omega
  · obtain ⟨beyond, near, ahead⟩ := queue_reach config start j
    exact List.mem_map.mpr ⟨beyond, List.mem_range.mpr near, ahead⟩

def Pack.checked (config : PackConfig) {Data : Type} (promise : Pack config Data → PackAction Data → Prop)
    [∀ pack action, Decidable (promise pack action)] (actions : List (PackAction Data)) : Option (Pack config Data) :=
  Transition.checkedRun (packMachine config Data) promise actions (Pack.initial config Data)

theorem pack_checked (config : PackConfig) (promise : Pack config Data → PackAction Data → Prop)
    [∀ pack action, Decidable (promise pack action)] (actions : List (PackAction Data))
    (done : (Pack.checked config promise actions).isSome = true) :
    Transition.Reachable (packMachine config Data) promise ((Pack.checked config promise actions).get done) :=
  ⟨actions, Transition.checked_run_path (packMachine config Data) promise actions _ _ (Option.some_get done).symm⟩

end

-- Two queues of two elements each, and a consumer that moves on after two counted pops.
def twoQueues : PackConfig := ⟨2, 2, 2, by decide⟩

end LockfreeQueue
