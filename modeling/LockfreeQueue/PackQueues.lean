import LockfreeQueue.Library.Family
import LockfreeQueue.Library.Program
import LockfreeQueue.Linearizable
import LockfreeQueue.PackOrder

set_option autoImplicit false

namespace LockfreeQueue

-- The pack over the lock-free queues themselves, all of one configuration.
abbrev Config.pack (config : Config) (G K : Nat) (grouped : 0 < G) : PackConfig := ⟨G, K, config.size, grouped⟩

-- What a thread does with the pack: it makes one accessor and calls it. `pushed` has the values
-- whose push returned true, and `results` what each pop returned.
inductive Accessor (config : PackConfig) (Data : Type) where
  | unmade
  | producer (p : Nat) (accessor : Producer config) (pushing : Option (Data × Bool)) (pushed : List Data)
  | consumer (c : Nat) (accessor : Consumer config) (popping : Bool) (results : List (Option Data))

-- The flag of a push tells the overload that reports an index.
inductive AccessorChoice (Data : Type) where
  | producer
  | consumer
  | push (d : Data) (indexed : Bool)
  | pop

-- The pack's two counters, with the numbers of accessors made, which only name them.
structure PackCounts where
  writersCount : BitVec 64
  readersCount : BitVec 64
  producers : Nat
  consumers : Nat

section

variable {config : PackConfig} {Data : Type}

def Accessor.step (counts : PackCounts) : Accessor config Data → AccessorChoice Data → Option (PackCounts × Accessor config Data)
  | .unmade, .producer =>
      some ({ counts with writersCount := counts.writersCount + 1, producers := counts.producers + 1 },
        .producer counts.producers (Producer.make config counts.writersCount) none [])
  | .unmade, .consumer =>
      some ({ counts with readersCount := counts.readersCount + 1, consumers := counts.consumers + 1 },
        .consumer counts.consumers (Consumer.make config counts.readersCount) false [])
  | .producer p accessor none pushed, .push d indexed => some (counts, .producer p accessor (some (d, indexed)) pushed)
  | .consumer c accessor false results, .pop => some (counts, .consumer c accessor true results)
  | _, _ => none

-- The operation on an internal queue that a call of the accessor makes next.
def Accessor.call (queue : Config) : Accessor config Data → Option (Fin config.G × Call queue Data)
  | .producer _ accessor (some (d, indexed)) _ => some (accessor.writeQueue, if indexed then .pushIndex d else .push d)
  | .consumer _ accessor true _ => some (accessor.aimed.readQueue, .pop)
  | _ => none

-- A pop that found its queue empty goes on to the next queue, or has tried them all and returns.
def Accessor.reply (queue : Config) : Accessor config Data → Reply queue Data → Accessor config Data
  | .producer p accessor (some (d, _)) pushed, .done _ _ => .producer p accessor none (pushed ++ [d])
  | .producer p accessor (some _) pushed, _ => .producer p accessor none pushed
  | .consumer c accessor true results, .done (some v) _ =>
      .consumer c { accessor.found with scan := none, tried := [] } false (results ++ [some v])
  | .consumer c accessor true results, _ =>
      let tried := accessor.missed.tried ++ [accessor.missed.readQueue]
      if accessor.following < config.G then
        .consumer c { accessor.missed with scan := some accessor.following, tried := tried } true results
      else .consumer c { accessor.missed with scan := none, tried := [] } false (results ++ [none])
  | accessor, _ => accessor

def Accessor.writer : Accessor config Data → Option Nat
  | .producer p _ _ _ => some p
  | _ => none

def Accessor.reader : Accessor config Data → Option Nat
  | .consumer c _ _ _ => some c
  | _ => none

def packProgram (queue : Config) (config : PackConfig) (Data : Type) :
    Service.Program (Accessor config Data) PackCounts (AccessorChoice Data) (Fin config.G × Call queue Data) (Reply queue Data) where
  shared := ⟨0, 0, 0, 0⟩
  privates := fun _ => .unmade
  step := fun _ counts accessor choice => accessor.step counts choice
  call := fun _ accessor => accessor.call queue
  reply := fun _ accessor reply => accessor.reply queue reply

def PackEvent.result (c : Nat) : PackEvent config Data → Option (Option Data)
  | .popped consumer _ item => if consumer = c then some (some item.value) else none
  | .refused consumer _ => if consumer = c then some none else none
  | .pushed _ => none

-- What producer p has pushed and what the pops of consumer c have returned, by the pack's log.
def pushedValues (p : Nat) (log : List (PackEvent config Data)) : List Data := (byProducer p (pushedItems log)).map Item.value
def popResults (c : Nat) (log : List (PackEvent config Data)) : List (Option Data) := log.filterMap (PackEvent.result c)

theorem pushed_values_snoc (p : Nat) (log : List (PackEvent config Data)) (event : PackEvent config Data) :
    pushedValues p (log ++ [event]) = pushedValues p log ++ (byProducer p event.pushedItem.toList).map Item.value := by
  rw [pushedValues, pushed_items_snoc, by_producer_append, List.map_append, pushedValues]

theorem pop_results_snoc (c : Nat) (log : List (PackEvent config Data)) (event : PackEvent config Data) :
    popResults c (log ++ [event]) = popResults c log ++ (event.result c).toList := by
  rw [popResults, List.filterMap_append, popResults]
  cases result : event.result c <;> simp [result]

-- An accessor that a thread holds is the one of that number in the pack.
def Accessor.Stands (pack : Pack config Data) : Accessor config Data → Prop
  | .unmade => True
  | .producer p accessor _ pushed => pack.producers[p]? = some accessor ∧ pushed = pushedValues p pack.log
  | .consumer c accessor popping results =>
      pack.consumers[c]? = some accessor ∧ results = popResults c pack.log ∧ (popping = false → accessor.scan = none)

structure PackHeld (counts : PackCounts) (privates : Nat → Accessor config Data) (values : Fin config.G → Fifo Data config.qsz)
    (pack : Pack config Data) : Prop where
  reached : Transition.Reachable (packMachine config Data) (fun _ _ => True) pack
  queues : ∀ j, values j = (pack.queues j).map Item.value
  counts : counts = ⟨pack.writersCount, pack.readersCount, pack.producers.length, pack.consumers.length⟩
  stands : ∀ thread, (privates thread).Stands pack
  writers : ∀ thread other p, (privates thread).writer = some p → (privates other).writer = some p → thread = other
  readers : ∀ thread other c, (privates thread).reader = some c → (privates other).reader = some c → thread = other

theorem held_initial : PackHeld ⟨0, 0, 0, 0⟩ (fun _ => .unmade) (fun _ => Fifo.empty) (Pack.initial config Data) where
  reached := Transition.reachable_start _ _
  queues := fun _ => rfl
  counts := rfl
  stands := fun _ => trivial
  writers := fun _ _ _ nothing => nomatch nothing
  readers := fun _ _ _ nothing => nomatch nothing

-- No event is logged under the number of a consumer still to be made.
theorem results_unmade (pack : Pack config Data) (reached : Transition.Reachable (packMachine config Data) (fun _ _ => True) pack)
    (c : Nat) (unmade : pack.consumers.length ≤ c) : popResults c pack.log = [] := by
  refine Transition.reachable_invariant (packMachine config Data) (fun _ _ => True)
    (fun pack => ∀ c, pack.consumers.length ≤ c → popResults c pack.log = []) (fun _ _ => rfl) ?_ pack reached c unmade
  intro before action after nothing _ moved c unmade
  cases action with
  | producer =>
      cases Option.some.inj moved
      exact nothing c unmade
  | consumer =>
      cases Option.some.inj moved
      rw [List.length_append] at unmade
      exact nothing c (by omega)
  | push p d =>
      obtain ⟨producer, _, result⟩ := Option.map_eq_some_iff.mp moved
      subst result
      cases stored : (before.queues producer.writeQueue).push? ⟨p, d⟩ with
      | none =>
          simp only [Pack.push, stored] at unmade ⊢
          exact nothing c unmade
      | some next =>
          simp only [Pack.push, stored] at unmade ⊢
          rw [pop_results_snoc, nothing c unmade]
          rfl
  | pop other =>
      obtain ⟨consumer, present, rfl⟩ := Option.map_eq_some_iff.mp moved
      have made := (List.getElem?_eq_some_iff.mp present).1
      rcases pop_step before other consumer with ⟨item, rest, _, result⟩ | ⟨_, result⟩
      · rw [result, Pack.take, List.length_set] at unmade
        rw [result, Pack.take, pop_results_snoc, nothing c unmade]
        simp [PackEvent.result, show other ≠ c by omega]
      · rw [result, Pack.miss] at unmade ⊢
        split at unmade <;> rename_i more
        · rw [if_pos more]
          rw [List.length_set] at unmade
          exact nothing c unmade
        · rw [if_neg more, pop_results_snoc]
          rw [List.length_set] at unmade
          simp [nothing c unmade, PackEvent.result, show other ≠ c by omega]

theorem stands_other (pack next : Pack config Data) (accessor : Accessor config Data) (stands : accessor.Stands pack)
    (writer : ∀ p producer, accessor.writer = some p → pack.producers[p]? = some producer →
      next.producers[p]? = some producer ∧ pushedValues p next.log = pushedValues p pack.log)
    (reader : ∀ c consumer, accessor.reader = some c → pack.consumers[c]? = some consumer →
      next.consumers[c]? = some consumer ∧ popResults c next.log = popResults c pack.log) : accessor.Stands next := by
  cases accessor with
  | unmade => trivial
  | producer p producer pushing pushed =>
      obtain ⟨present, values⟩ := stands
      obtain ⟨still, same⟩ := writer p producer rfl present
      exact ⟨still, values.trans same.symm⟩
  | consumer c consumer popping results =>
      obtain ⟨present, values, idle⟩ := stands
      obtain ⟨still, same⟩ := reader c consumer rfl present
      exact ⟨still, values.trans same.symm, idle⟩

theorem apart_update (name : Accessor config Data → Option Nat) (privates : Nat → Accessor config Data) (thread : Nat)
    (after : Accessor config Data)
    (apart : ∀ one other n, name (privates one) = some n → name (privates other) = some n → one = other)
    (own : ∀ other n, name after = some n → name (privates other) = some n → other = thread) (one other n : Nat)
    (first : name (Function.update privates thread after one) = some n)
    (second : name (Function.update privates thread after other) = some n) : one = other := by
  by_cases here : one = thread
  · by_cases there : other = thread
    · rw [here, there]
    · subst here
      rw [Function.update_self] at first
      rw [Function.update_of_ne there] at second
      exact (own other n first second).symm
  · rw [Function.update_of_ne here] at first
    by_cases there : other = thread
    · subst there
      rw [Function.update_self] at second
      exact own one n second first
    · rw [Function.update_of_ne there] at second
      exact apart one other n first second

variable (counts : PackCounts) (privates : Nat → Accessor config Data) (values : Fin config.G → Fifo Data config.qsz)
variable (pack next : Pack config Data) (thread : Nat) (after : Accessor config Data)

-- One step of the pack, made by the thread whose accessor it is.
theorem held_moves (held : PackHeld counts privates values pack) (action : PackAction Data) (moved : pack.next action = some next)
    (stands : after.Stands next) (others : ∀ other, other ≠ thread → (privates other).Stands next)
    (writer : ∀ other p, after.writer = some p → (privates other).writer = some p → other = thread)
    (reader : ∀ other c, after.reader = some c → (privates other).reader = some c → other = thread) :
    PackHeld ⟨next.writersCount, next.readersCount, next.producers.length, next.consumers.length⟩
      (Function.update privates thread after) (fun j => (next.queues j).map Item.value) next where
  reached := Transition.reachable_step _ _ pack next action held.reached trivial moved
  queues := fun _ => rfl
  counts := rfl
  stands := by
    intro other
    by_cases same : other = thread
    · subst same
      rw [Function.update_self]
      exact stands
    · rw [Function.update_of_ne same]
      exact others other same
  writers := apart_update Accessor.writer privates thread after held.writers writer
  readers := apart_update Accessor.reader privates thread after held.readers reader

-- A step of the thread alone, which begins a call.
theorem held_still (held : PackHeld counts privates values pack) (stands : after.Stands pack)
    (writer : after.writer = (privates thread).writer) (reader : after.reader = (privates thread).reader) :
    PackHeld counts (Function.update privates thread after) values pack where
  reached := held.reached
  queues := held.queues
  counts := held.counts
  stands := by
    intro other
    by_cases same : other = thread
    · subst same
      rw [Function.update_self]
      exact stands
    · rw [Function.update_of_ne same]
      exact held.stands other
  writers := apart_update Accessor.writer privates thread after held.writers
    (fun other p mine theirs => held.writers other thread p theirs (writer ▸ mine))
  readers := apart_update Accessor.reader privates thread after held.readers
    (fun other c mine theirs => held.readers other thread c theirs (reader ▸ mine))

theorem stands_made (accessor : Accessor config Data) (stands : accessor.Stands pack) :
    (∀ p, accessor.writer = some p → p < pack.producers.length) ∧ ∀ c, accessor.reader = some c → c < pack.consumers.length := by
  cases accessor with
  | unmade => exact ⟨(fun _ nothing => nomatch nothing), (fun _ nothing => nomatch nothing)⟩
  | producer p producer pushing pushed =>
      refine ⟨fun q same => ?_, fun _ nothing => nomatch nothing⟩
      cases same
      exact (List.getElem?_eq_some_iff.mp stands.1).1
  | consumer c consumer popping results =>
      refine ⟨(fun _ nothing => nomatch nothing), fun q same => ?_⟩
      cases same
      exact (List.getElem?_eq_some_iff.mp stands.1).1

theorem appended_get {α : Type} (items : List α) (new old : α) (n : Nat) (present : items[n]? = some old) :
    (items ++ [new])[n]? = some old := by
  rw [List.getElem?_append_left (List.getElem?_eq_some_iff.mp present).1, present]

theorem held_producer (held : PackHeld counts privates values pack) :
    PackHeld { counts with writersCount := counts.writersCount + 1, producers := counts.producers + 1 }
      (Function.update privates thread (.producer counts.producers (Producer.make config counts.writersCount) none [])) values
      { pack with
        writersCount := pack.writersCount + 1
        producers := pack.producers ++ [Producer.make config pack.writersCount] } := by
  have moved := held_moves counts privates values pack _ thread
    (.producer counts.producers (Producer.make config counts.writersCount) none []) held .producer rfl
  rw [held.counts, List.length_append] at moved
  rw [held.counts, funext held.queues]
  refine moved ⟨List.getElem?_concat_length, ?_⟩ ?_ ?_ (fun _ _ nothing => nomatch nothing)
  · have sound := sound_reached _ pack held.reached
    rw [pushedValues, by_producer_nil _ _ (fun item member same => ?_), List.map_nil]
    exact absurd (sound.flow.known item (.inl member)) (same ▸ Nat.lt_irrefl _)
  · exact fun other _ => stands_other pack _ _ (held.stands other) (fun p producer _ present => ⟨appended_get _ _ _ _ present, rfl⟩)
      (fun c consumer _ present => ⟨present, rfl⟩)
  · intro other p mine theirs
    cases mine
    exact absurd ((stands_made pack _ (held.stands other)).1 _ theirs) (Nat.lt_irrefl _)

theorem held_consumer (held : PackHeld counts privates values pack) :
    PackHeld { counts with readersCount := counts.readersCount + 1, consumers := counts.consumers + 1 }
      (Function.update privates thread (.consumer counts.consumers (Consumer.make config counts.readersCount) false [])) values
      { pack with
        readersCount := pack.readersCount + 1
        consumers := pack.consumers ++ [Consumer.make config pack.readersCount] } := by
  have moved := held_moves counts privates values pack _ thread
    (.consumer counts.consumers (Consumer.make config counts.readersCount) false []) held .consumer rfl
  rw [held.counts, List.length_append] at moved
  rw [held.counts, funext held.queues]
  refine moved ⟨List.getElem?_concat_length, ?_, fun _ => rfl⟩ ?_ (fun _ _ nothing => nomatch nothing) ?_
  · exact (results_unmade pack held.reached _ (Nat.le_refl _)).symm
  · exact fun other _ => stands_other pack _ _ (held.stands other) (fun p producer _ present => ⟨present, rfl⟩)
      (fun c consumer _ present => ⟨appended_get _ _ _ _ present, rfl⟩)
  · intro other c mine theirs
    cases mine
    exact absurd ((stands_made pack _ (held.stands other)).2 _ theirs) (Nat.lt_irrefl _)

-- The threads' own steps: making an accessor, and beginning a call of it.
theorem held_own (held : PackHeld counts privates values pack) (choice : AccessorChoice Data) (made : PackCounts)
    (stepped : (privates thread).step counts choice = some (made, after)) :
    ∃ next, PackHeld made (Function.update privates thread after) values next := by
  have stands := held.stands thread
  cases here : privates thread with
  | unmade =>
      rw [here] at stepped
      cases choice with
      | producer => cases stepped; exact ⟨_, held_producer counts privates values pack thread held⟩
      | consumer => cases stepped; exact ⟨_, held_consumer counts privates values pack thread held⟩
      | push d indexed => cases stepped
      | pop => cases stepped
  | producer p accessor pushing pushed =>
      rw [here] at stepped stands
      cases choice with
      | push d indexed =>
          cases pushing with
          | some pending => cases stepped
          | none =>
              cases stepped
              exact ⟨pack, held_still counts privates values pack thread _ held stands (by rw [here]; rfl) (by rw [here]; rfl)⟩
      | _ => simp [Accessor.step] at stepped
  | consumer c accessor popping results =>
      rw [here] at stepped stands
      cases choice with
      | pop =>
          cases popping with
          | true => cases stepped
          | false =>
              cases stepped
              exact ⟨pack, held_still counts privates values pack thread _ held ⟨stands.1, stands.2.1, fun idle => nomatch idle⟩
                (by rw [here]; rfl) (by rw [here]; rfl)⟩
      | _ => simp [Accessor.step] at stepped

theorem pushed_values_other (p q : Nat) (d : Data) (log : List (PackEvent config Data)) (other : q ≠ p) :
    pushedValues q (log ++ [.pushed ⟨p, d⟩]) = pushedValues q log := by
  rw [pushed_values_snoc]
  simp [PackEvent.pushedItem, byProducer, Ne.symm other]

theorem pushed_values_own (p : Nat) (d : Data) (log : List (PackEvent config Data)) :
    pushedValues p (log ++ [.pushed ⟨p, d⟩]) = pushedValues p log ++ [d] := by
  rw [pushed_values_snoc]
  simp [PackEvent.pushedItem, byProducer]

theorem mapped_update (queues : Fin config.G → Fifo (Item Data) config.qsz) (j : Fin config.G) (rest : Fifo (Item Data) config.qsz) :
    (fun i => (Function.update queues j rest i).map Item.value) =
      Function.update (fun i => (queues i).map Item.value) j (rest.map Item.value) := by
  funext i
  by_cases same : i = j
  · subst same
    simp only [Function.update_self]
  · simp only [Function.update_of_ne same]

-- A push that takes effect on the internal queue, or is refused by it.
def PushHeld (p : Nat) (accessor : Producer config) (d : Data) (pushed : List Data) : Option (Fifo Data config.qsz) → Prop
  | some rest => ∃ next, PackHeld counts (Function.update privates thread (.producer p accessor none (pushed ++ [d])))
      (Function.update values accessor.writeQueue rest) next
  | none => PackHeld counts (Function.update privates thread (.producer p accessor none pushed)) values pack

theorem held_push (held : PackHeld counts privates values pack) (p : Nat) (accessor : Producer config) (d : Data) (indexed : Bool)
    (pushed : List Data) (here : privates thread = .producer p accessor (some (d, indexed)) pushed) :
    PushHeld counts privates values pack thread p accessor d pushed ((values accessor.writeQueue).push? d) := by
  have stands := held.stands thread
  rw [here] at stands
  obtain ⟨present, logged⟩ := stands
  rw [held.queues, Fifo.map_push Item.value (pack.queues accessor.writeQueue) ⟨p, d⟩]
  cases stored : (pack.queues accessor.writeQueue).push? ⟨p, d⟩ with
  | none =>
      exact held_still counts privates values pack thread _ held ⟨present, logged⟩ (by rw [here]; rfl) (by rw [here]; rfl)
  | some next =>
      have moved := held_moves counts privates values pack _ thread (.producer p accessor none (pushed ++ [d])) held (.push p d)
        (by rw [Pack.next, present, Option.map_some, Pack.push, stored])
      rw [mapped_update, ← funext held.queues, ← held.counts] at moved
      refine ⟨_, moved ⟨present, ?_⟩ ?_ ?_ (fun _ _ nothing => by cases nothing)⟩
      · rw [logged, pushed_values_own]
      · intro other apart
        refine stands_other pack _ _ (held.stands other) (fun q producer mine there => ⟨there, ?_⟩) (fun c consumer _ there => ⟨there, ?_⟩)
        · refine pushed_values_other p q d pack.log fun same => ?_
          exact apart (held.writers other thread p (same ▸ mine) (by rw [here]; rfl))
        · rw [pop_results_snoc]
          exact List.append_nil _
      · intro other q mine theirs
        cases mine
        exact held.writers other thread p theirs (by rw [here]; rfl)

-- An operation of another consumer: neither this accessor nor what its calls returned changes.
theorem stands_popped (c : Nat) (consumer : Consumer config) (log : List (PackEvent config Data)) (accessor : Accessor config Data)
    (stands : accessor.Stands pack) (consumers : next.consumers = pack.consumers.set c consumer)
    (producers : next.producers = pack.producers) (other : accessor.reader ≠ some c)
    (logged : next.log = pack.log ++ log) (unpushed : ∀ event ∈ log, event.pushedItem = none)
    (mine : ∀ event ∈ log, ∀ other, other ≠ c → event.result other = none) : accessor.Stands next := by
  refine stands_other pack next accessor stands (fun p producer _ present => ⟨by rw [producers, present], ?_⟩)
    (fun d there reads present => ⟨?_, ?_⟩)
  · rw [logged, pushedValues, pushedItems, List.filterMap_append, List.filterMap_eq_nil_iff.mpr unpushed, List.append_nil]
    rfl
  · have apart : d ≠ c := fun same => other (same ▸ reads)
    rw [consumers, List.getElem?_set_ne apart.symm, present]
  · have apart : d ≠ c := fun same => other (same ▸ reads)
    rw [logged, popResults, List.filterMap_append, List.filterMap_eq_nil_iff.mpr (fun event member => mine event member d apart),
      List.append_nil]
    rfl

-- A pop that takes an element of the internal queue, or finds it empty.
def PopHeld (c : Nat) (accessor : Consumer config) (results : List (Option Data)) : Option (Data × Fifo Data config.qsz) → Prop
  | some (v, rest) => ∃ next, PackHeld counts
      (Function.update privates thread (.consumer c { accessor.found with scan := none, tried := [] } false (results ++ [some v])))
      (Function.update values accessor.aimed.readQueue rest) next
  | none => ∃ next, PackHeld counts (Function.update privates thread
      (if accessor.following < config.G then
        .consumer c
          { accessor.missed with
            scan := some accessor.following
            tried := accessor.missed.tried ++ [accessor.missed.readQueue] } true results
      else .consumer c { accessor.missed with scan := none, tried := [] } false (results ++ [none]))) values next

theorem held_pop (held : PackHeld counts privates values pack) (c : Nat) (accessor : Consumer config) (results : List (Option Data))
    (here : privates thread = .consumer c accessor true results) :
    PopHeld counts privates values thread c accessor results (values accessor.aimed.readQueue).pop? := by
  have stands := held.stands thread
  rw [here] at stands
  obtain ⟨present, logged, _⟩ := stands
  have bound := (List.getElem?_eq_some_iff.mp present).1
  have apart (other : Nat) (elsewhere : other ≠ thread) : (privates other).reader ≠ some c :=
    fun same => elsewhere (held.readers other thread c same (by rw [here]; rfl))
  have own (other d : Nat) (mine : some c = some d) (theirs : (privates other).reader = some d) : other = thread := by
    cases mine
    exact held.readers other thread c theirs (by rw [here]; rfl)
  have action : pack.next (.pop c) = some (pack.pop c accessor) := by rw [Pack.next, present, Option.map_some]
  rw [held.queues, Fifo.map_pop]
  rcases pop_step pack c accessor with ⟨item, rest, taken, result⟩ | ⟨empty, result⟩
  · rw [taken]
    rw [result] at action
    have moved := held_moves counts privates values pack _ thread
      (.consumer c { accessor.found with scan := none, tried := [] } false (results ++ [some item.value])) held (.pop c) action
    simp only [Pack.take, List.length_set] at moved
    rw [mapped_update, ← funext held.queues, ← held.counts] at moved
    refine ⟨_, moved ⟨List.getElem?_set_self bound, ?_, fun _ => rfl⟩ ?_ (fun _ _ nothing => by cases nothing) own⟩
    · rw [logged, pop_results_snoc]
      simp [PackEvent.result]
    · refine fun other elsewhere => stands_popped pack _ c _ [.popped c _ item] (privates other) (held.stands other) rfl rfl
        (apart other elsewhere) rfl ?_ ?_
      · simp [PackEvent.pushedItem]
      · simp only [List.mem_singleton, forall_eq, PackEvent.result]
        exact fun d other => if_neg other.symm
  · rw [empty]
    rw [result] at action
    by_cases more : accessor.following < config.G
    · rw [Pack.miss, if_pos more, missed_tried] at action
      simp only [PopHeld, if_pos more, missed_tried, Option.map_none]
      have moved := held_moves counts privates values pack _ thread
        (.consumer c
          { accessor.missed with
            scan := some accessor.following
            tried := accessor.tried ++ [accessor.missed.readQueue] } true results) held (.pop c) action
      simp only [List.length_set] at moved
      rw [← funext held.queues, ← held.counts] at moved
      refine ⟨_, moved ⟨List.getElem?_set_self bound, logged, (fun idle => by cases idle)⟩ ?_ (fun _ _ nothing => by cases nothing) own⟩
      exact fun other elsewhere => stands_popped pack _ c _ [] (privates other) (held.stands other) rfl rfl
        (apart other elsewhere) (List.append_nil _).symm (fun _ member => by cases member) (fun _ member => by cases member)
    · rw [Pack.miss, if_neg more] at action
      simp only [PopHeld, if_neg more, Option.map_none]
      have moved := held_moves counts privates values pack _ thread
        (.consumer c { accessor.missed with scan := none, tried := [] } false (results ++ [none])) held (.pop c) action
      simp only [List.length_set] at moved
      rw [← funext held.queues, ← held.counts] at moved
      refine ⟨_, moved ⟨List.getElem?_set_self bound, ?_, fun _ => rfl⟩ ?_ (fun _ _ nothing => by cases nothing) own⟩
      · rw [logged, pop_results_snoc]
        simp [PackEvent.result]
      · refine fun other elsewhere => stands_popped pack _ c _ [.refused c _] (privates other) (held.stands other) rfl rfl
          (apart other elsewhere) rfl ?_ ?_
        · simp [PackEvent.pushedItem]
        · simp only [List.mem_singleton, forall_eq, PackEvent.result]
          exact fun d other => if_neg other.symm

end

section

variable {queue : Config} {G K : Nat} {grouped : 0 < G} {Data : Type}

def PackHolds (queue : Config) (G K : Nat) (grouped : 0 < G) (Data : Type) (counts : PackCounts)
    (privates : Nat → Accessor (queue.pack G K grouped) Data) (values : Fin G → Fifo Data queue.size) : Prop :=
  ∃ pack, PackHeld counts privates values pack

theorem accessor_call_single (accessor : Accessor (queue.pack G K grouped) Data) (call : Fin G × Call queue Data)
    (calls : accessor.call queue = some call) : call.2.pushOrPop = true := by
  cases accessor with
  | unmade => cases calls
  | producer p producer pushing pushed =>
      cases pushing with
      | none => cases calls
      | some pending =>
          obtain ⟨d, indexed⟩ := pending
          cases calls
          cases indexed <;> rfl
  | consumer c consumer popping results =>
      cases popping with
      | false => cases calls
      | true =>
          cases calls
          rfl

variable [DecidableEq Data]

theorem member_commit (values : Fin G → Fifo Data queue.size) (call : Fin G × Call queue Data) (lagging : Bool)
    (single : call.2.pushOrPop = true) :
    (Service.familySpec (Fin G) (queueSpec queue Data)).commit values
        ((Service.familySpec (Fin G) (queueSpec queue Data)).enter call) lagging =
      (Function.update values call.1 (call.2.reference (values call.1)).1, .decided (call.2.reference (values call.1)).2) := by
  have committed := single_commit (values call.1) call.2 lagging single
  simp only [Service.familySpec, committed, Service.Progress.tagged]

theorem pack_single : Service.Single (packProgram queue (queue.pack G K grouped) Data)
    (Service.familySpec (Fin G) (queueSpec queue Data)) := by
  intro thread accessor call values lagging calls
  rw [member_commit values call lagging (accessor_call_single accessor call calls)]
  exact ⟨_, rfl⟩

theorem pack_call (counts : PackCounts) (privates : Nat → Accessor (queue.pack G K grouped) Data)
    (values : Fin G → Fifo Data queue.size) (thread : Nat) (call : Fin G × Call queue Data)
    (holds : PackHolds queue G K grouped Data counts privates values) (calls : (privates thread).call queue = some call) :
    PackHolds queue G K grouped Data counts
      (Function.update privates thread ((privates thread).reply queue (call.2.reference (values call.1)).2))
      (Function.update values call.1 (call.2.reference (values call.1)).1) := by
  obtain ⟨pack, held⟩ := holds
  cases here : privates thread with
  | unmade =>
      rw [here] at calls
      cases calls
  | producer p accessor pushing pushed =>
      rw [here] at calls
      cases pushing with
      | none => cases calls
      | some pending =>
          obtain ⟨d, indexed⟩ := pending
          cases calls
          have kept := held_push counts privates values pack thread held p accessor d indexed pushed here
          cases stored : (values accessor.writeQueue).push? d with
          | none =>
              rw [stored] at kept
              cases indexed <;> simp only [Bool.false_eq_true, if_false, if_true, Call.reference, stored, Accessor.reply, Function.update_eq_self] <;>
                exact ⟨pack, kept⟩
          | some rest =>
              rw [stored] at kept
              cases indexed <;> simp only [Bool.false_eq_true, if_false, if_true, Call.reference, stored, Accessor.reply] <;> exact kept
  | consumer c accessor popping results =>
      rw [here] at calls
      cases popping with
      | false => cases calls
      | true =>
          cases calls
          have kept := held_pop counts privates values pack thread held c accessor results here
          cases taken : (values accessor.aimed.readQueue).pop? with
          | none =>
              rw [taken] at kept
              simp only [Call.reference, taken, Accessor.reply, Function.update_eq_self]
              exact kept
          | some pair =>
              rw [taken] at kept
              simp only [Call.reference, taken, Accessor.reply]
              exact kept

theorem pack_keeps : Service.Keeps (packProgram queue (queue.pack G K grouped) Data)
    (Service.familySpec (Fin G) (queueSpec queue Data)) (PackHolds queue G K grouped Data) where
  initial := ⟨_, held_initial⟩
  own counts privates values thread choice made after holds stepped := by
    obtain ⟨pack, held⟩ := holds
    exact held_own counts privates values pack thread after held choice made stepped
  call counts privates values thread call lagging reply holds calls decided := by
    rw [member_commit values call lagging (accessor_call_single _ call calls)] at decided ⊢
    cases decided
    exact pack_call counts privates values thread call holds calls

variable [Zero Data]

-- Every internal queue is run within the staleness bound of its own threads.
def MembersTimely (family : Service.Family (Fin G) (System queue Data)) (move : Fin G × Nat) : Prop :=
  (family.members move.1).Timely (.step move.2)

-- At any interleaving of the accesses inside the queues, each within its staleness bound, the pack
-- over the real queues has the state of a pack whose queue operations are single steps. An accessor
-- inside an operation of a queue has none to compare until it is back.
theorem pack_over_queues (state : Service.Hosted (Accessor (queue.pack G K grouped) Data) PackCounts (Service.Family (Fin G) (System queue Data)))
    (reached : Transition.Reachable
      (Service.hosted (packProgram queue (queue.pack G K grouped) Data) (Service.family (Fin G) (queueObject queue Data)))
      (Service.Permits MembersTimely) state) :
    ∃ pack, Transition.Reachable (packMachine (queue.pack G K grouped) Data) (fun _ _ => True) pack ∧
      (∀ j, contents (state.object.members j).log = some ((pack.queues j).map Item.value)) ∧
        ∀ thread accessor, state.threads thread = .own accessor → accessor.Stands pack := by
  obtain ⟨atomic, related, privates, ⟨pack, held⟩, agree⟩ := Service.hosted_keeps (packProgram queue (queue.pack G K grouped) Data)
    (Service.familySpec (Fin G) (queueSpec queue Data)) (PackHolds queue G K grouped Data)
    (Service.family (Fin G) (queueObject queue Data)) MembersTimely (Service.MembersRelated Refines)
    (Service.family_simulates _ _ _ _ queue_simulates) pack_single pack_keeps state reached
  obtain ⟨atomics, each, _, rfl⟩ := related
  refine ⟨pack, held.reached, fun j => ?_, fun thread accessor running => ?_⟩
  · rw [(each j).value]
    exact congrArg some (held.queues j)
  · have here := agree thread
    rw [running] at here
    exact Service.agrees_own _ _ thread accessor _ _ here ▸ held.stands thread

end

instance (family : Service.Family (Fin 2) (System smallQueue Nat)) (move : Fin 2 × Nat) : Decidable (MembersTimely family move) :=
  inferInstanceAs (Decidable (System.Timely _ _))

def firstQueue : Fin 2 := ⟨0, Nat.two_pos⟩

def secondQueue : Fin 2 := ⟨1, Nat.one_lt_two⟩

-- Two queues. The consumer takes the value while its push is still in progress, moves on to the
-- second queue, and its next pop tries both in turn and returns false.
def packRun : List (Service.HostedAction (AccessorChoice Nat) (Fin 2 × Nat)) :=
  Service.repeated [(1, .own 0 .producer), (1, .own 1 .consumer), (1, .own 0 (.push 7 false)), (1, .invoke 0),
    (3, .move (firstQueue, 0)), (1, .own 1 .pop), (1, .invoke 1), (4, .move (firstQueue, 1)), (1, .move (firstQueue, 0)),
    (1, .own 1 .pop), (1, .invoke 1), (2, .move (secondQueue, 1)), (1, .invoke 1), (2, .move (firstQueue, 1))]

def packObject : Transition.Machine
    (Service.Hosted (Accessor (smallQueue.pack 2 1 Nat.two_pos) Nat) PackCounts (Service.Family (Fin 2) (System smallQueue Nat)))
    (Service.HostedAction (AccessorChoice Nat) (Fin 2 × Nat)) :=
  Service.hosted (packProgram smallQueue (smallQueue.pack 2 1 Nat.two_pos) Nat) (Service.family (Fin 2) (queueObject smallQueue Nat))

theorem pack_run_completes :
    (Transition.checkedRun packObject (Service.Permits MembersTimely) packRun packObject.start).isSome = true := by decide +kernel

theorem pack_over_queues_two :
    let state := (Transition.checkedRun packObject (Service.Permits MembersTimely) packRun packObject.start).get pack_run_completes
    (match state.threads 1 with
      | .own (.consumer _ _ _ results) => results
      | _ => []) = [some 7, none] ∧
      ∃ pack, Transition.Reachable (packMachine (smallQueue.pack 2 1 Nat.two_pos) Nat) (fun _ _ => True) pack ∧
        (∀ j, contents (state.object.members j).log = some ((pack.queues j).map Item.value)) ∧
          ∀ thread accessor, state.threads thread = .own accessor → accessor.Stands pack := by
  intro state
  refine ⟨by decide +kernel, pack_over_queues state ⟨packRun, ?_⟩⟩
  exact Transition.checked_run_path packObject (Service.Permits MembersTimely) packRun _ _ (Option.some_get pack_run_completes).symm

end LockfreeQueue
