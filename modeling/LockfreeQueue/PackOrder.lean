import Mathlib.Algebra.BigOperators.Fin
import Mathlib.Algebra.Order.Group.Multiset
import LockfreeQueue.Pack

set_option autoImplicit false

namespace LockfreeQueue

section

variable {config : PackConfig} {Data : Type}

namespace PackEvent

def pushedItem : PackEvent config Data → Option (Item Data)
  | .pushed item => some item
  | _ => none

def poppedItem : PackEvent config Data → Option (Item Data)
  | .popped _ _ item => some item
  | _ => none

end PackEvent

def pushedItems (log : List (PackEvent config Data)) : List (Item Data) := log.filterMap PackEvent.pushedItem
def poppedItems (log : List (PackEvent config Data)) : List (Item Data) := log.filterMap PackEvent.poppedItem

theorem pushed_items_snoc (log : List (PackEvent config Data)) (event : PackEvent config Data) :
    pushedItems (log ++ [event]) = pushedItems log ++ event.pushedItem.toList := by
  rw [pushedItems, List.filterMap_append, pushedItems]
  cases event <;> rfl

theorem popped_items_snoc (log : List (PackEvent config Data)) (event : PackEvent config Data) :
    poppedItems (log ++ [event]) = poppedItems log ++ event.poppedItem.toList := by
  rw [poppedItems, List.filterMap_append, poppedItems]
  cases event <;> rfl

def byProducer (p : Nat) (items : List (Item Data)) : List (Item Data) := items.filter fun item => item.producer = p

theorem by_producer_append (p : Nat) (first second : List (Item Data)) :
    byProducer p (first ++ second) = byProducer p first ++ byProducer p second := List.filter_append _ _

theorem by_producer_nil (p : Nat) (items : List (Item Data)) (others : ∀ item ∈ items, item.producer ≠ p) : byProducer p items = [] := by
  rw [byProducer, List.filter_eq_nil_iff]
  intro item member
  simpa using others item member

def packed (queues : Fin config.G → Fifo (Item Data) config.qsz) : Multiset (Item Data) := ∑ j, ((queues j).items : Multiset (Item Data))

theorem packed_update (queues : Fin config.G → Fifo (Item Data) config.qsz) (j : Fin config.G) (next : Fifo (Item Data) config.qsz) :
    packed (Function.update queues j next) + ((queues j).items : Multiset (Item Data)) =
      packed queues + (next.items : Multiset (Item Data)) := by
  have others : ∀ i ∈ Finset.univ.erase j, ((Function.update queues j next i).items : Multiset (Item Data)) = (queues i).items := by
    intro i member
    rw [Function.update_of_ne (Finset.ne_of_mem_erase member)]
  rw [packed, packed, ← Finset.add_sum_erase _ _ (Finset.mem_univ j), ← Finset.add_sum_erase _ (fun i => ((queues i).items : Multiset (Item Data))) (Finset.mem_univ j),
    Finset.sum_congr rfl others, Function.update_self, add_right_comm, add_comm (next.items : Multiset (Item Data)), add_right_comm]

-- Every producer writes to one queue, so the values it pushed are those popped so far and then
-- those in that queue, and nothing is held that was not pushed.
structure Flow (queues : Fin config.G → Fifo (Item Data) config.qsz) (producers : List (Producer config))
    (pushed popped : List (Item Data)) : Prop where
  owned : ∀ (j : Fin config.G), ∀ item ∈ (queues j).items,
    ∃ producer, producers[item.producer]? = some producer ∧ producer.writeQueue = j
  known : ∀ item, item ∈ pushed ∨ item ∈ popped → item.producer < producers.length
  ordered : ∀ (p : Nat) (producer : Producer config), producers[p]? = some producer →
    byProducer p pushed = byProducer p popped ++ byProducer p (queues producer.writeQueue).items
  conserved : (pushed : Multiset (Item Data)) = (popped : Multiset (Item Data)) + packed queues

theorem flow_initial : Flow (fun _ => Fifo.empty : Fin config.G → Fifo (Item Data) config.qsz) [] [] [] := by
  refine ⟨?_, ?_, ?_, ?_⟩
  · intro j item member
    cases member
  · intro item member
    rcases member with member | member <;> cases member
  · intro p producer present
    cases present
  · simp [packed, Fifo.empty]

variable (queues : Fin config.G → Fifo (Item Data) config.qsz) (producers : List (Producer config)) (pushed popped : List (Item Data))

theorem flow_producer (flow : Flow queues producers pushed popped) (producer : Producer config) :
    Flow queues (producers ++ [producer]) pushed popped := by
  refine ⟨?_, ?_, ?_, flow.conserved⟩
  · intro j item member
    obtain ⟨owner, present, writes⟩ := flow.owned j item member
    exact ⟨owner, by rw [List.getElem?_append_left (List.getElem?_eq_some_iff.mp present).1, present], writes⟩
  · intro item member
    have less := flow.known item member
    rw [List.length_append]
    omega
  · intro p other present
    rcases Nat.lt_or_ge p producers.length with old | new
    · rw [List.getElem?_append_left old] at present
      exact flow.ordered p other present
    · have pushedNone := by_producer_nil p pushed (fun item member same => by
        have less := flow.known item (.inl member)
        omega)
      have poppedNone := by_producer_nil p popped (fun item member same => by
        have less := flow.known item (.inr member)
        omega)
      have heldNone := by_producer_nil p (queues other.writeQueue).items (fun item member same => by
        obtain ⟨owner, present, _⟩ := flow.owned _ item member
        have less := (List.getElem?_eq_some_iff.mp present).1
        omega)
      rw [pushedNone, poppedNone, heldNone, List.append_nil]

theorem flow_push (flow : Flow queues producers pushed popped) (p : Nat) (producer : Producer config) (d : Data)
    (next : Fifo (Item Data) config.qsz) (present : producers[p]? = some producer)
    (stored : (queues producer.writeQueue).push? ⟨p, d⟩ = some next) :
    Flow (Function.update queues producer.writeQueue next) producers (pushed ++ [⟨p, d⟩]) popped := by
  obtain ⟨_, _, items⟩ := Fifo.push_items _ next _ stored
  refine ⟨?_, ?_, ?_, ?_⟩
  · intro j item member
    by_cases same : j = producer.writeQueue
    · subst same
      rw [Function.update_self, items, List.mem_append, List.mem_singleton] at member
      rcases member with old | rfl
      · exact flow.owned _ item old
      · exact ⟨producer, present, rfl⟩
    · rw [Function.update_of_ne same] at member
      exact flow.owned j item member
  · intro item member
    rw [List.mem_append, List.mem_singleton] at member
    rcases member with (old | rfl) | old
    · exact flow.known item (.inl old)
    · exact (List.getElem?_eq_some_iff.mp present).1
    · exact flow.known item (.inr old)
  · intro q other there
    rw [by_producer_append, flow.ordered q other there]
    by_cases mine : p = q
    · subst mine
      cases Option.some.inj (present.symm.trans there)
      rw [Function.update_self, items, by_producer_append, List.append_assoc]
    · have skipped : byProducer q [(⟨p, d⟩ : Item Data)] = [] := by simp [byProducer, mine]
      rw [skipped, List.append_nil]
      by_cases same : other.writeQueue = producer.writeQueue
      · rw [same, Function.update_self, items, by_producer_append, skipped, List.append_nil]
      · rw [Function.update_of_ne same]
  · have moved := packed_update queues producer.writeQueue next
    rw [items, ← Multiset.coe_add, add_comm ((queues producer.writeQueue).items : Multiset (Item Data)), ← add_assoc] at moved
    rw [← Multiset.coe_add, flow.conserved, add_assoc, add_right_cancel moved]

theorem flow_pop (flow : Flow queues producers pushed popped) (j : Fin config.G) (item : Item Data)
    (rest : Fifo (Item Data) config.qsz) (taken : (queues j).pop? = some (item, rest)) :
    Flow (Function.update queues j rest) producers pushed (popped ++ [item]) := by
  obtain ⟨items, _⟩ := Fifo.pop_items _ rest item taken
  obtain ⟨owner, made, writes⟩ := flow.owned j item (by rw [items]; exact List.mem_cons_self)
  refine ⟨?_, ?_, ?_, ?_⟩
  · intro i held member
    by_cases same : i = j
    · subst same
      rw [Function.update_self] at member
      exact flow.owned _ held (by rw [items]; exact List.mem_cons_of_mem item member)
    · rw [Function.update_of_ne same] at member
      exact flow.owned i held member
  · intro other member
    rw [List.mem_append, List.mem_singleton] at member
    rcases member with old | old | rfl
    · exact flow.known other (.inl old)
    · exact flow.known other (.inr old)
    · exact (List.getElem?_eq_some_iff.mp made).1
  · intro p producer present
    rw [by_producer_append, flow.ordered p producer present, List.append_assoc]
    by_cases mine : item.producer = p
    · rw [mine] at made
      cases Option.some.inj (made.symm.trans present)
      rw [writes, Function.update_self, items]
      simp [byProducer, mine]
    · have skipped : byProducer p [item] = [] := by simp [byProducer, mine]
      rw [skipped, List.nil_append]
      by_cases same : producer.writeQueue = j
      · rw [same, Function.update_self, items]
        simp [byProducer, mine]
      · rw [Function.update_of_ne same]
  · have moved := packed_update queues j rest
    have head : ((queues j).items : Multiset (Item Data)) = ([item] : List (Item Data)) + (rest.items : Multiset (Item Data)) := by
      rw [items, Multiset.coe_add]
      rfl
    rw [head, ← add_assoc] at moved
    rw [← Multiset.coe_add, flow.conserved, add_assoc, ← add_right_cancel moved, add_comm (packed _)]

end

section

variable {config : PackConfig} {Data : Type}

structure Pack.Sound (pack : Pack config Data) : Prop where
  placed : ∀ consumer ∈ pack.consumers, consumer.Placed
  flow : Flow pack.queues pack.producers (pushedItems pack.log) (poppedItems pack.log)

theorem placed_set (consumers : List (Consumer config)) (c : Nat) (after : Consumer config)
    (placed : ∀ consumer ∈ consumers, consumer.Placed) (fits : after.Placed) : ∀ consumer ∈ consumers.set c after, consumer.Placed := by
  intro consumer member
  rcases List.mem_or_eq_of_mem_set member with old | rfl
  · exact placed consumer old
  · exact fits

theorem sound_initial : (Pack.initial config Data).Sound := ⟨fun _ member => (List.not_mem_nil member).elim, flow_initial⟩

theorem sound_push (pack : Pack config Data) (p : Nat) (producer : Producer config) (d : Data) (sound : pack.Sound)
    (present : pack.producers[p]? = some producer) : (pack.push p producer d).Sound := by
  rw [Pack.push]
  cases stored : (pack.queues producer.writeQueue).push? ⟨p, d⟩ with
  | none => exact sound
  | some next =>
      refine ⟨sound.placed, ?_⟩
      rw [pushed_items_snoc, popped_items_snoc]
      simpa [PackEvent.pushedItem, PackEvent.poppedItem] using
        flow_push pack.queues pack.producers _ _ sound.flow p producer d next present stored

theorem sound_pop (pack : Pack config Data) (c : Nat) (consumer : Consumer config) (sound : pack.Sound)
    (present : pack.consumers[c]? = some consumer) : (pack.pop c consumer).Sound := by
  have placed := sound.placed consumer (List.mem_of_getElem? present)
  rcases pop_step pack c consumer with ⟨item, rest, taken, result⟩ | ⟨_, result⟩
  · rw [result]
    refine ⟨placed_set pack.consumers c _ sound.placed (found_placed consumer placed), ?_⟩
    rw [Pack.take, pushed_items_snoc, popped_items_snoc]
    simpa [PackEvent.pushedItem, PackEvent.poppedItem] using
      flow_pop pack.queues pack.producers _ _ sound.flow consumer.aimed.readQueue item rest taken
  · rw [result, Pack.miss]
    split
    · rename_i more
      exact ⟨placed_set pack.consumers c _ sound.placed (missed_placed consumer placed more), sound.flow⟩
    · refine ⟨placed_set pack.consumers c _ sound.placed (returned_placed consumer placed), ?_⟩
      rw [pushed_items_snoc, popped_items_snoc]
      simpa [PackEvent.pushedItem, PackEvent.poppedItem] using sound.flow

theorem sound_step (before after : Pack config Data) (action : PackAction Data) (sound : before.Sound)
    (moved : before.next action = some after) : after.Sound := by
  cases action with
  | producer =>
      cases Option.some.inj moved
      exact ⟨sound.placed, flow_producer before.queues before.producers _ _ sound.flow _⟩
  | consumer =>
      cases Option.some.inj moved
      refine ⟨?_, sound.flow⟩
      intro consumer member
      rcases List.mem_append.mp member with old | new
      · exact sound.placed consumer old
      · rw [List.mem_singleton.mp new]
        exact make_placed config before.readersCount
  | push p d =>
      obtain ⟨producer, present, result⟩ := Option.map_eq_some_iff.mp moved
      subst result
      exact sound_push before p producer d sound present
  | pop c =>
      obtain ⟨consumer, present, result⟩ := Option.map_eq_some_iff.mp moved
      subst result
      exact sound_pop before c consumer sound present

theorem sound_reached (promise : Pack config Data → PackAction Data → Prop) (pack : Pack config Data)
    (reached : Transition.Reachable (packMachine config Data) promise pack) : pack.Sound :=
  Transition.reachable_invariant (packMachine config Data) promise Pack.Sound sound_initial
    (fun before action after sound _ moved => sound_step before after action sound moved) pack reached

theorem tried_short (consumer : Consumer config) (placed : consumer.Placed) : consumer.tried.length < config.G := by
  have way := placed.way
  cases place : consumer.scan with
  | none =>
      rw [place] at way
      rw [way]
      exact config.grouped
  | some k =>
      rw [place] at way
      obtain ⟨_, below, _, start, tried, _⟩ := way
      rw [tried, List.length_map, List.length_range]
      exact below

-- One attempt of a pop on an internal queue: it takes the head and the call returns true, or
-- it finds the queue empty, and the call goes on or, having tried every queue once, returns false.
def Pack.Attempt (pack next : Pack config Data) (c : Nat) (consumer : Consumer config) (j : Fin config.G) : Prop :=
  (∃ item rest after, (pack.queues j).pop? = some (item, rest) ∧ next.queues = Function.update pack.queues j rest ∧
      next.log = pack.log ++ [.popped c j item] ∧ next.consumers[c]? = some after ∧ after.scan = none ∧ after.tried = []) ∨
    ((pack.queues j).pop? = none ∧ next.queues = pack.queues ∧ ∃ after, next.consumers[c]? = some after ∧
      ((next.log = pack.log ∧ after.scan ≠ none ∧ after.tried = consumer.tried ++ [j]) ∨
        (next.log = pack.log ++ [.refused c (consumer.tried ++ [j])] ∧ after.scan = none ∧ after.tried = [] ∧
          ∀ i, (consumer.tried ++ [j]).count i = 1)))

theorem pop_attempt (pack : Pack config Data) (c : Nat) (consumer : Consumer config) (sound : pack.Sound)
    (present : pack.consumers[c]? = some consumer) : pack.Attempt (pack.pop c consumer) c consumer consumer.aimed.readQueue := by
  have inside := (List.getElem?_eq_some_iff.mp present).1
  rcases pop_step pack c consumer with ⟨item, rest, taken, result⟩ | ⟨empty, result⟩
  · rw [result]
    exact .inl ⟨item, rest, _, taken, rfl, rfl, List.getElem?_set_self inside, rfl, rfl⟩
  · obtain ⟨_, _, bound, _, start, way, _⟩ := missed_way consumer (sound.placed consumer (List.mem_of_getElem? present))
    rw [missed_queue, missed_tried] at way
    rw [result, Pack.miss, missed_queue, missed_tried]
    split
    · exact .inr ⟨empty, rfl, _, List.getElem?_set_self inside, .inl ⟨rfl, Option.some_ne_none _, rfl⟩⟩
    · rename_i last
      refine .inr ⟨empty, rfl, _, List.getElem?_set_self inside, .inr ⟨rfl, rfl, rfl, ?_⟩⟩
      have all : consumer.following = config.G := by omega
      intro i
      rw [way, all]
      exact way_count config start i

-- A call of pop that runs from where it is, with no other step in between, returns; the induction
-- is on the queues it has not tried yet.
theorem pack_pop_alone (pack : Pack config Data) (c : Nat) (consumer : Consumer config) (sound : pack.Sound)
    (present : pack.consumers[c]? = some consumer) (nothing : ∀ j ∈ consumer.tried, (pack.queues j).pop? = none) :
    ∃ steps final after, Transition.run (packMachine config Data) (List.replicate steps (.pop c)) pack = some final ∧
      steps + consumer.tried.length ≤ config.G ∧ final.consumers[c]? = some after ∧ after.scan = none ∧
      ((∃ j item rest, (pack.queues j).pop? = some (item, rest) ∧ final.log = pack.log ++ [.popped c j item]) ∨
        ((∀ j, (pack.queues j).pop? = none) ∧ ∃ tried, final.log = pack.log ++ [.refused c tried])) := by
  obtain ⟨left, enough⟩ : ∃ left, config.G ≤ left + consumer.tried.length := ⟨config.G, Nat.le_add_right _ _⟩
  induction left generalizing pack consumer with
  | zero =>
      have short := tried_short consumer (sound.placed consumer (List.mem_of_getElem? present))
      omega
  | succ left ih =>
      have short := tried_short consumer (sound.placed consumer (List.mem_of_getElem? present))
      have moved : (packMachine config Data).next pack (.pop c) = some (pack.pop c consumer) := by
        simp only [packMachine, Pack.next, present, Option.map_some]
      have once : Transition.run (packMachine config Data) (List.replicate 1 (.pop c)) pack = some (pack.pop c consumer) := by
        simp only [List.replicate_one, Transition.run, moved, Option.bind_some]
      rcases pop_attempt pack c consumer sound present with ⟨item, rest, after, taken, _, logged, there, idle, _⟩ |
        ⟨empty, queues, after, there, ⟨logged, _, tried⟩ | ⟨logged, idle, _, counts⟩⟩
      · exact ⟨1, _, after, once, by omega, there, idle, .inl ⟨_, item, rest, taken, logged⟩⟩
      · have still : ∀ j ∈ after.tried, ((pack.pop c consumer).queues j).pop? = none := by
          intro j member
          rw [tried, List.mem_append, List.mem_singleton] at member
          rw [queues]
          rcases member with old | rfl
          · exact nothing j old
          · exact empty
        have longer : after.tried.length = consumer.tried.length + 1 := by rw [tried, List.length_append, List.length_singleton]
        obtain ⟨steps, final, last, ran, bound, ended, idle, outcome⟩ :=
          ih (pack.pop c consumer) after (sound_pop pack c consumer sound present) there still (by omega)
        rw [queues, logged] at outcome
        refine ⟨steps + 1, final, last, ?_, by omega, ended, idle, outcome⟩
        rw [List.replicate_succ, Transition.run, moved, Option.bind_some, ran]
      · refine ⟨1, _, after, once, by omega, there, idle, .inr ⟨?_, _, logged⟩⟩
        intro j
        have member : j ∈ consumer.tried ++ [consumer.aimed.readQueue] := List.count_pos_iff.mp (by rw [counts j]; exact Nat.one_pos)
        rw [List.mem_append, List.mem_singleton] at member
        rcases member with old | rfl
        · exact nothing j old
        · exact empty

theorem producer_prefix (pack : Pack config Data) (sound : pack.Sound) (p : Nat) :
    byProducer p (poppedItems pack.log) <+: byProducer p (pushedItems pack.log) := by
  by_cases made : p < pack.producers.length
  · rw [sound.flow.ordered p _ (List.getElem?_eq_getElem made)]
    exact List.prefix_append _ _
  · rw [by_producer_nil p (poppedItems pack.log) (fun item member same => made (same ▸ sound.flow.known item (.inr member)))]
    exact List.nil_prefix

-- A call that starts, and runs alone, refuses just when every internal queue is empty.
theorem idle_pop_alone (pack : Pack config Data) (c : Nat) (consumer : Consumer config) (sound : pack.Sound)
    (present : pack.consumers[c]? = some consumer) (fresh : consumer.tried = []) :
    ∃ steps final after, Transition.run (packMachine config Data) (List.replicate steps (.pop c)) pack = some final ∧
      final.consumers[c]? = some after ∧ after.scan = none ∧
        ((∃ j item, final.log = pack.log ++ [.popped c j item]) ∨ ∃ tried, final.log = pack.log ++ [.refused c tried]) ∧
          ((∃ tried, final.log = pack.log ++ [.refused c tried]) ↔ ∀ j, (pack.queues j).pop? = none) := by
  obtain ⟨steps, final, after, ran, _, there, done, outcome⟩ := pack_pop_alone pack c consumer sound present
    (fun j member => by rw [fresh] at member; cases member)
  refine ⟨steps, final, after, ran, there, done, ?_⟩
  rcases outcome with ⟨j, item, rest, taken, logged⟩ | ⟨empty, logged⟩
  · refine ⟨.inl ⟨j, item, logged⟩, ?_, fun empty => absurd (empty j) (by rw [taken]; exact Option.some_ne_none _)⟩
    rintro ⟨tried, refused⟩
    rw [logged] at refused
    cases List.append_cancel_left refused
  · exact ⟨.inr logged, fun _ => empty, fun _ => logged⟩

end

-- Accessors of both kinds are made at any time and their calls interleave at every operation on an internal queue.
theorem pack_conserves_in_order {config : PackConfig} {Data : Type} (pack : Pack config Data)
    (reached : Transition.Reachable (packMachine config Data) (fun _ _ => True) pack) :
    ((pushedItems pack.log).map Item.value : Multiset Data) =
        ((poppedItems pack.log).map Item.value : Multiset Data) +
          ∑ j, (((pack.queues j).items.map Item.value : List Data) : Multiset Data) ∧
      (∀ p, byProducer p (poppedItems pack.log) <+: byProducer p (pushedItems pack.log)) ∧
      ∀ c consumer, pack.consumers[c]? = some consumer →
        (consumer.scan = none → consumer.tried = []) ∧
          (∃ next j, pack.next (.pop c) = some next ∧ pack.Attempt next c consumer j) ∧
            (consumer.scan = none → ∃ steps final after,
              Transition.run (packMachine config Data) (List.replicate steps (.pop c)) pack = some final ∧
                final.consumers[c]? = some after ∧ after.scan = none ∧
                  ((∃ j item, final.log = pack.log ++ [.popped c j item]) ∨ ∃ tried, final.log = pack.log ++ [.refused c tried]) ∧
                    ((∃ tried, final.log = pack.log ++ [.refused c tried]) ↔ ∀ j, (pack.queues j).pop? = none)) := by
  have sound := sound_reached (fun _ _ => True) pack reached
  refine ⟨?_, producer_prefix pack sound, ?_⟩
  · have balance := congrArg (Multiset.mapAddMonoidHom Item.value) sound.flow.conserved
    rw [packed, map_add, map_sum] at balance
    exact balance
  · intro c consumer present
    have placed := sound.placed consumer (List.mem_of_getElem? present)
    have fresh : consumer.scan = none → consumer.tried = [] := by
      intro idle
      have way := placed.way
      rwa [idle] at way
    refine ⟨fresh, ⟨pack.pop c consumer, consumer.aimed.readQueue, ?_, pop_attempt pack c consumer sound present⟩, ?_⟩
    · rw [Pack.next, present, Option.map_some]
    · exact fun idle => idle_pop_alone pack c consumer sound present (fresh idle)

-- Two producers on two queues, and a consumer that moves to the second after two pops.
def packSchedule : List (PackAction Nat) :=
  [.producer, .producer, .consumer, .push 0 5, .push 1 6, .push 0 7, .pop 0, .pop 0, .push 1 8, .pop 0]

theorem pack_schedule_runs : (Pack.checked twoQueues (fun _ _ => True) packSchedule).isSome = true := by decide +kernel

theorem pack_conserves_in_order_seven :
    let pack := (Pack.checked twoQueues (fun _ _ => True) packSchedule).get pack_schedule_runs
    byProducer 0 (poppedItems pack.log) = [⟨0, 5⟩, ⟨0, 7⟩] ∧
      byProducer 0 (poppedItems pack.log) <+: byProducer 0 (pushedItems pack.log) ∧
        ((poppedItems pack.log).map Item.value : Multiset Nat) + ∑ j, (((pack.queues j).items.map Item.value : List Nat) : Multiset Nat) =
          ([5, 6, 7, 8] : List Nat) := by
  intro pack
  have laws := pack_conserves_in_order pack (pack_checked twoQueues (fun _ _ => True) packSchedule pack_schedule_runs)
  refine ⟨by decide +kernel, laws.2.1 0, ?_⟩
  rw [← laws.1]
  exact congrArg _ (by decide +kernel)

end LockfreeQueue
