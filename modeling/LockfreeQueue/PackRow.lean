import LockfreeQueue.PackOrder

set_option autoImplicit false

namespace LockfreeQueue

-- One operation of a consumer on an internal queue, and whether it was part of a scan.
structure Turn (config : PackConfig) where
  queue : Fin config.G
  scanning : Bool
  success : Bool

-- A success of the scan is returned without counting it.
def Turn.lands {config : PackConfig} (turn : Turn config) : Bool := turn.scanning && turn.success

section

variable {config : PackConfig} {Data : Type}

def Pack.turn (pack : Pack config Data) (consumer : Consumer config) : Turn config :=
  ⟨consumer.aimed.readQueue, consumer.scan.isSome, (pack.queues consumer.aimed.readQueue).pop?.isSome⟩

def Pack.turnOf (pack : Pack config Data) (c : Nat) : PackAction Data → List (Turn config)
  | .pop other => if other = c then (pack.consumers[c]?.map pack.turn).toList else []
  | _ => []

-- The operations that consumer c makes while a pack runs, up to an action that is refused.
def Pack.turns (c : Nat) : List (PackAction Data) → Pack config Data → List (Turn config)
  | [], _ => []
  | action :: rest, pack =>
      match pack.next action with
      | some next => pack.turnOf c action ++ turns c rest next
      | none => []

-- Successes on one queue with no operation on another in between.
def AtMostInRow (turns : List (Turn config)) (bound : Nat) : Prop :=
  ∀ row j, row <:+: turns → (∀ turn ∈ row, turn.queue = j) → row.countP Turn.success ≤ bound

theorem next_queue (several : 2 ≤ config.G) (a : Nat) : config.queue (a + 1) ≠ config.queue a := by
  rw [Ne, queue_eq_iff]
  intro same
  have equal := Word.window_unique config.G (a + 1) a same (by omega) (by omega)
  omega

theorem advance_away (several : 2 ≤ config.G) (consumer : Consumer config) (pointer : consumer.readQueue = config.queue consumer.readQueueIndex) :
    consumer.advance.readQueue ≠ consumer.readQueue := by
  rw [advance_queue, pointer]
  exact next_queue several consumer.readQueueIndex

-- After its own operation a consumer goes to another queue, or is between two calls with the
-- operation counted, or with a scan ended here that has counted nothing.
theorem own_turn (several : 2 ≤ config.G) (pack : Pack config Data) (c : Nat) (consumer : Consumer config) (placed : consumer.Placed)
    (present : pack.consumers[c]? = some consumer) :
    ∃ after, (pack.pop c consumer).consumers[c]? = some after ∧ after.Placed ∧
      (after.aimed.readQueue ≠ (pack.turn consumer).queue ∨ after.scan = none ∧
        ((pack.turn consumer).scanning = false ∧ (pack.turn consumer).success = true ∧ after.popCount = consumer.popCount + 1 ∨
          (pack.turn consumer).scanning = true ∧ after.popCount = 0)) := by
  have inside := (List.getElem?_eq_some_iff.mp present).1
  rcases pop_step pack c consumer with ⟨item, rest, taken, result⟩ | ⟨empty, result⟩
  · rw [result]
    refine ⟨_, List.getElem?_set_self inside, found_placed consumer placed, ?_⟩
    rw [Pack.turn, taken]
    cases place : consumer.scan with
    | none =>
        simp only [Consumer.aimed, Consumer.found, place, Consumer.count]
        split
        · exact .inl (advance_away several { consumer with popCount := 0 } placed.pointer)
        · exact .inr ⟨trivial, .inl ⟨rfl, rfl, rfl⟩⟩
    | some k =>
        have way := placed.way
        rw [place] at way
        simp only [Consumer.aimed, Consumer.found, place]
        exact .inr ⟨trivial, .inr ⟨rfl, way.2.2.1⟩⟩
  · obtain ⟨pointer, _, _, reset, _⟩ := missed_way consumer placed
    rw [result, Pack.miss]
    split
    · rename_i more
      refine ⟨_, List.getElem?_set_self inside, missed_placed consumer placed more, .inl ?_⟩
      have away := advance_away several consumer.missed pointer
      rw [missed_queue] at away
      exact away
    · rename_i last
      refine ⟨_, List.getElem?_set_self inside, returned_placed consumer placed, .inr ⟨rfl, .inr ⟨?_, reset⟩⟩⟩
      cases place : consumer.scan with
      | none =>
          simp only [Consumer.following, place] at last
          omega
      | some k => rw [Pack.turn, place]; rfl

theorem step_keeps (pack next : Pack config Data) (action : PackAction Data) (c : Nat) (consumer : Consumer config)
    (present : pack.consumers[c]? = some consumer) (moved : pack.next action = some next) (other : ∀ d, action = .pop d → d ≠ c) :
    next.consumers[c]? = some consumer := by
  cases action with
  | producer =>
      cases Option.some.inj moved
      exact present
  | consumer =>
      cases Option.some.inj moved
      change (pack.consumers ++ [Consumer.make config pack.readersCount])[c]? = some consumer
      rw [List.getElem?_append_left (List.getElem?_eq_some_iff.mp present).1, present]
  | push p d =>
      obtain ⟨producer, _, result⟩ := Option.map_eq_some_iff.mp moved
      rw [← result, Pack.push]
      split <;> exact present
  | pop d =>
      obtain ⟨popper, _, result⟩ := Option.map_eq_some_iff.mp moved
      rw [← result]
      rcases pop_step pack d popper with ⟨item, rest, _, taken⟩ | ⟨_, missed⟩
      · rw [taken, Pack.take]
        change (pack.consumers.set d _)[c]? = some consumer
        rw [List.getElem?_set_ne (other d rfl), present]
      · rw [missed, Pack.miss]
        split
        · change (pack.consumers.set d _)[c]? = some consumer
          rw [List.getElem?_set_ne (other d rfl), present]
        · change (pack.consumers.set d _)[c]? = some consumer
          rw [List.getElem?_set_ne (other d rfl), present]

theorem turns_own (pack : Pack config Data) (c : Nat) (consumer : Consumer config) (rest : List (PackAction Data))
    (present : pack.consumers[c]? = some consumer) :
    Pack.turns c (.pop c :: rest) pack = pack.turn consumer :: Pack.turns c rest (pack.pop c consumer) := by
  simp only [Pack.turns, Pack.next, Pack.turnOf, present, Option.map_some, if_true, Option.toList_some, List.singleton_append]

theorem turns_other (pack next : Pack config Data) (c : Nat) (action : PackAction Data) (rest : List (PackAction Data))
    (moved : pack.next action = some next) (other : ∀ d, action = .pop d → d ≠ c) :
    Pack.turns c (action :: rest) pack = Pack.turns c rest next := by
  have silent : pack.turnOf c action = [] := by
    cases action with
    | pop d => exact if_neg (other d rfl)
    | _ => rfl
  simp only [Pack.turns, moved, silent, List.nil_append]

-- What the next operations on one queue can come to, before the consumer goes to another.
def Consumer.Allows (consumer : Consumer config) (row : List (Turn config)) (j : Fin config.G) : Prop :=
  (row ≠ [] → consumer.aimed.readQueue = j) ∧
    match consumer.scan with
    | none => row.countP Turn.success ≤ config.K - consumer.popCount
    | some _ => row.countP Turn.success ≤ config.K + 1 ∧
        ((∀ turn ∈ row.head?, turn.lands = false) → row.countP Turn.success ≤ config.K)

theorem own_allows (positive : 0 < config.K) (pack : Pack config Data) (consumer after : Consumer config)
    (placed : consumer.Placed) (fits : after.Placed) (row : List (Turn config)) (j : Fin config.G)
    (same : ∀ turn ∈ pack.turn consumer :: row, turn.queue = j) (later : after.Allows row j)
    (moves : after.aimed.readQueue ≠ (pack.turn consumer).queue ∨ after.scan = none ∧
        ((pack.turn consumer).scanning = false ∧ (pack.turn consumer).success = true ∧ after.popCount = consumer.popCount + 1 ∨
          (pack.turn consumer).scanning = true ∧ after.popCount = 0)) :
    consumer.Allows (pack.turn consumer :: row) j := by
  have here : consumer.aimed.readQueue = j := same _ (List.mem_cons_self ..)
  have counted := placed.counted positive
  obtain ⟨aims, bound⟩ := later
  have total : (pack.turn consumer :: row).countP Turn.success = row.countP Turn.success + if (pack.turn consumer).success = true then 1 else 0 :=
    List.countP_cons
  have alone : after.aimed.readQueue ≠ (pack.turn consumer).queue → row.countP Turn.success = 0 := by
    intro away
    have none : row = [] := by
      by_contra more
      exact away ((aims more).trans here.symm)
    rw [none, List.countP_nil]
  refine ⟨fun _ => here, ?_⟩
  cases place : consumer.scan with
  | none =>
      have scanning : (pack.turn consumer).scanning = false := by rw [Pack.turn, place]; rfl
      change (pack.turn consumer :: row).countP Turn.success ≤ config.K - consumer.popCount
      rcases moves with away | ⟨idle, ⟨_, _, count⟩ | ⟨other, _⟩⟩
      · have none := alone away
        split at total <;> omega
      · rw [idle] at bound
        change row.countP Turn.success ≤ config.K - after.popCount at bound
        have left := fits.counted positive
        split at total <;> omega
      · rw [scanning] at other
        cases other
  | some k =>
      have scanning : (pack.turn consumer).scanning = true := by rw [Pack.turn, place]; rfl
      have few : row.countP Turn.success ≤ config.K := by
        rcases moves with away | ⟨idle, ⟨other, _, _⟩ | ⟨_, reset⟩⟩
        · rw [alone away]
          exact Nat.zero_le _
        · rw [scanning] at other
          cases other
        · rw [idle] at bound
          exact Nat.le_trans bound (Nat.sub_le _ _)
      refine ⟨by rw [total]; split <;> omega, fun nothing => ?_⟩
      have quiet := nothing _ rfl
      rw [Turn.lands, scanning, Bool.true_and] at quiet
      rw [total, quiet, if_neg Bool.false_ne_true]
      exact few

theorem nothing_allowed (consumer : Consumer config) (j : Fin config.G) : consumer.Allows [] j := by
  refine ⟨fun more => absurd rfl more, ?_⟩
  cases consumer.scan with
  | none => exact Nat.zero_le _
  | some k => exact ⟨Nat.zero_le _, fun _ => Nat.zero_le _⟩

theorem row_allowed (several : 2 ≤ config.G) (positive : 0 < config.K) (actions : List (PackAction Data)) (pack : Pack config Data)
    (sound : pack.Sound) (c : Nat) (consumer : Consumer config) (present : pack.consumers[c]? = some consumer)
    (row : List (Turn config)) (j : Fin config.G) (leads : row <+: Pack.turns c actions pack)
    (same : ∀ turn ∈ row, turn.queue = j) : consumer.Allows row j := by
  induction actions generalizing pack consumer row with
  | nil =>
      rw [List.prefix_nil.mp leads]
      exact nothing_allowed consumer j
  | cons action rest ih =>
      cases moved : pack.next action with
      | none =>
          rw [Pack.turns, moved, List.prefix_nil] at leads
          rw [leads]
          exact nothing_allowed consumer j
      | some next =>
          have kept := sound_step pack next action sound moved
          by_cases own : action = .pop c
          · subst own
            rw [Pack.next, present] at moved
            cases Option.some.inj moved
            rw [turns_own pack c consumer rest present] at leads
            cases row with
            | nil => exact nothing_allowed consumer j
            | cons turn row =>
                obtain ⟨rfl, later⟩ := List.cons_prefix_cons.mp leads
                have placed := sound.placed consumer (List.mem_of_getElem? present)
                obtain ⟨after, there, fits, moves⟩ := own_turn several pack c consumer placed present
                have allowed := ih (pack.pop c consumer) kept after there row later (fun other member => same other (List.mem_cons_of_mem _ member))
                exact own_allows positive pack consumer after placed fits row j same allowed moves
          · have other : ∀ d, action = .pop d → d ≠ c := fun d act equal => own (by rw [act, equal])
            rw [turns_other pack next c action rest moved other] at leads
            exact ih next kept consumer (step_keeps pack next action c consumer present moved other) row leads same

theorem row_bounds (several : 2 ≤ config.G) (positive : 0 < config.K) (actions : List (PackAction Data)) (pack : Pack config Data)
    (sound : pack.Sound) (c : Nat) (row : List (Turn config)) (j : Fin config.G) (inside : row <:+: Pack.turns c actions pack)
    (same : ∀ turn ∈ row, turn.queue = j) :
    row.countP Turn.success ≤ config.K + 1 ∧ ((∀ turn ∈ row.head?, turn.lands = false) → row.countP Turn.success ≤ config.K) := by
  induction actions generalizing pack with
  | nil =>
      rw [List.infix_nil.mp inside]
      exact ⟨Nat.zero_le _, fun _ => Nat.zero_le _⟩
  | cons action rest ih =>
      cases moved : pack.next action with
      | none =>
          rw [Pack.turns, moved, List.infix_nil] at inside
          rw [inside]
          exact ⟨Nat.zero_le _, fun _ => Nat.zero_le _⟩
      | some next =>
          have kept := sound_step pack next action sound moved
          by_cases own : action = .pop c
          · subst own
            obtain ⟨consumer, present, result⟩ := Option.map_eq_some_iff.mp moved
            subst result
            rw [turns_own pack c consumer rest present, List.infix_cons_iff] at inside
            rcases inside with leads | later
            · rw [← turns_own pack c consumer rest present] at leads
              obtain ⟨_, bound⟩ := row_allowed several positive (.pop c :: rest) pack sound c consumer present row j leads same
              cases place : consumer.scan with
              | none =>
                  rw [place] at bound
                  have few : row.countP Turn.success ≤ config.K := Nat.le_trans bound (Nat.sub_le _ _)
                  exact ⟨Nat.le_succ_of_le few, fun _ => few⟩
              | some k =>
                  rw [place] at bound
                  exact bound
            · exact ih _ kept later
          · have other : ∀ d, action = .pop d → d ≠ c := fun d act equal => own (by rw [act, equal])
            rw [turns_other pack next c action rest moved other] at inside
            exact ih next kept inside

end

-- A row that begins with the success of a scan, which is not counted, may be one pop too long. A
-- consumer whose scans find nothing makes at most K in a row.
theorem pack_row_bounded {config : PackConfig} {Data : Type} (several : 2 ≤ config.G) (positive : 0 < config.K)
    (actions : List (PackAction Data)) (c : Nat) :
    ((∀ turn ∈ Pack.turns c actions (Pack.initial config Data), turn.lands = false) →
        AtMostInRow (Pack.turns c actions (Pack.initial config Data)) config.K) ∧
      (∀ row j, row <:+: Pack.turns c actions (Pack.initial config Data) → (∀ turn ∈ row, turn.queue = j) →
        (∀ turn ∈ row.head?, turn.lands = false) → row.countP Turn.success ≤ config.K) ∧
      AtMostInRow (Pack.turns c actions (Pack.initial config Data)) (config.K + 1) := by
  have bounds := row_bounds several positive actions (Pack.initial config Data) sound_initial c
  refine ⟨fun nothing row j inside same => (bounds row j inside same).2 ?_,
    fun row j inside same => (bounds row j inside same).2, fun row j inside same => (bounds row j inside same).1⟩
  intro turn leads
  exact nothing turn (inside.subset (List.mem_of_mem_head? leads))

-- Queue 0 is empty, the scan ends at queue 1, and with two more counted pops three in a row come from there.
def rowSchedule : List (PackAction Nat) :=
  [.producer, .producer, .consumer, .push 1 6, .push 1 7, .pop 0, .pop 0, .push 1 8, .pop 0, .pop 0]

-- Two pops are counted on queue 0 and the next one is from queue 1; every scan after that finds nothing.
def countedSchedule : List (PackAction Nat) :=
  [.producer, .producer, .consumer, .push 0 6, .push 0 7, .push 1 8, .pop 0, .pop 0, .pop 0, .pop 0, .pop 0, .pop 0, .pop 0]

theorem pack_row_bounded_three :
    ((Pack.turns 0 rowSchedule (Pack.initial twoQueues Nat)).countP Turn.success = 3 ∧
      AtMostInRow (Pack.turns 0 rowSchedule (Pack.initial twoQueues Nat)) 3 ∧
        ((Pack.turns 0 rowSchedule (Pack.initial twoQueues Nat)).drop 2).countP Turn.success ≤ twoQueues.K) ∧
      ((Pack.turns 0 countedSchedule (Pack.initial twoQueues Nat)).take 2).countP Turn.success = twoQueues.K ∧
        AtMostInRow (Pack.turns 0 countedSchedule (Pack.initial twoQueues Nat)) twoQueues.K := by
  have exceeding := @pack_row_bounded twoQueues Nat (by decide) (by decide) rowSchedule 0
  have counted := @pack_row_bounded twoQueues Nat (by decide) (by decide) countedSchedule 0
  refine ⟨⟨by decide +kernel, exceeding.2.2, ?_⟩, by decide +kernel, counted.1 (by decide +kernel)⟩
  exact exceeding.2.1 _ (twoQueues.queue 1) (List.drop_suffix 2 _).isInfix (by decide +kernel) (by decide +kernel)

theorem pack_row_exceeded : (Transition.run (packMachine twoQueues Nat) rowSchedule (Pack.initial twoQueues Nat)).isSome = true ∧
    ¬ AtMostInRow (Pack.turns 0 rowSchedule (Pack.initial twoQueues Nat)) twoQueues.K := by
  refine ⟨by decide +kernel, fun bounded => ?_⟩
  have three := bounded ((Pack.turns 0 rowSchedule (Pack.initial twoQueues Nat)).drop 1) (twoQueues.queue 1)
    (List.drop_suffix 1 _).isInfix (by decide +kernel)
  exact absurd three (by decide +kernel)

end LockfreeQueue
