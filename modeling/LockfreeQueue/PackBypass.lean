import LockfreeQueue.PackOrder

set_option autoImplicit false

namespace LockfreeQueue

section

variable {config : PackConfig} {Data : Type}

namespace PackEvent

def serves (c : Nat) (j : Fin config.G) : PackEvent config Data → Bool
  | .popped consumer source _ => consumer = c ∧ source = j
  | _ => false

def bypasses (c : Nat) (j : Fin config.G) : PackEvent config Data → Bool
  | .popped consumer source _ => consumer = c ∧ source ≠ j
  | _ => false

def refuses (c : Nat) : PackEvent config Data → Bool
  | .refused consumer _ => consumer = c
  | _ => false

end PackEvent

-- No other consumer pops from queue j.
def Spared (c : Nat) (j : Fin config.G) (pack : Pack config Data) : PackAction Data → Prop
  | .pop other => other ≠ c → ∀ consumer, pack.consumers[other]? = some consumer → consumer.aimed.readQueue ≠ j
  | _ => True

instance (c : Nat) (j : Fin config.G) (pack : Pack config Data) (action : PackAction Data) : Decidable (Spared c j pack action) :=
  match action with
  | .pop other => inferInstanceAs (Decidable (other ≠ c → ∀ consumer ∈ pack.consumers[other]?, consumer.aimed.readQueue ≠ j))
  | .producer => isTrue trivial
  | .consumer => isTrue trivial
  | .push _ _ => isTrue trivial

-- How far a consumer is from queue j: it may bypass the queue `budget` times and return false
-- `refusals` times before it pops there. A scan that has j behind it may still return false.
def Consumer.Owes (consumer : Consumer config) (j : Fin config.G) (budget refusals : Nat) : Prop :=
  match consumer.scan with
  | none => consumer.readQueue = j ∨ ∃ beyond, config.queue (consumer.readQueueIndex + 1 + beyond) = j ∧
      beyond + 1 < config.G ∧ config.K - consumer.popCount + beyond * config.K ≤ budget
  | some k => ∃ beyond, config.queue (consumer.readQueueIndex + 1 + beyond) = j ∧
      beyond < config.G ∧ 1 + beyond * config.K ≤ budget ∧ (config.G ≤ k + beyond → 1 ≤ refusals)

-- Queue j holds something, and consumer c owes it a pop.
def Pack.Waiting (pack : Pack config Data) (c : Nat) (j : Fin config.G) (budget refusals : Nat) : Prop :=
  (pack.queues j).items ≠ [] ∧ ∃ consumer, pack.consumers[c]? = some consumer ∧ consumer.Owes j budget refusals

-- What a step adds to the log, paid for out of the budget unless it is the pop that was owed.
def Pack.Pays (pack next : Pack config Data) (c : Nat) (j : Fin config.G) (budget refusals : Nat) (events : List (PackEvent config Data)) : Prop :=
  next.log = pack.log ++ events ∧ (events.countP (PackEvent.serves c j) = 0 → ∃ less fewer, next.Waiting c j less fewer ∧
    less + events.countP (PackEvent.bypasses c j) = budget ∧ fewer + events.countP (PackEvent.refuses c) = refusals)

theorem queue_mod_add (config : PackConfig) (a b : Nat) : config.queue (a % config.G + b) = config.queue (a + b) := by
  rw [queue_eq_iff, Nat.mod_add_mod]

theorem advance_beyond (consumer : Consumer config) (j : Fin config.G) (beyond : Nat)
    (ahead : config.queue (consumer.readQueueIndex + 1 + (beyond + 1)) = j) :
    config.queue (consumer.advance.readQueueIndex + 1 + beyond) = j := by
  rw [← ahead]
  change config.queue ((consumer.readQueueIndex + 1) % config.G + 1 + beyond) = _
  rw [Nat.add_assoc, queue_mod_add, Nat.add_comm 1 beyond]

theorem advance_owes (consumer : Consumer config) (j : Fin config.G) (beyond budget refusals : Nat)
    (ahead : config.queue (consumer.readQueueIndex + 1 + beyond) = j) (near : beyond < config.G)
    (reset : consumer.popCount = 0) (afford : beyond * config.K ≤ budget) :
    ({ consumer.advance with scan := none, tried := [] } : Consumer config).Owes j budget refusals := by
  cases beyond with
  | zero => exact .inl ((advance_queue consumer).trans ahead)
  | succ beyond =>
      refine .inr ⟨beyond, advance_beyond consumer j beyond ahead, near, ?_⟩
      change config.K - consumer.popCount + beyond * config.K ≤ budget
      rw [reset, Nat.sub_zero, Nat.add_comm, ← Nat.succ_mul]
      exact afford

theorem idle_owes (positive : 0 < config.K) (consumer : Consumer config) (placed : consumer.Placed) (idle : consumer.scan = none)
    (j : Fin config.G) : consumer.Owes j ((config.G - 1) * config.K) 0 := by
  obtain ⟨beyond, near, ahead⟩ := queue_reach config consumer.readQueueIndex j
  rw [Consumer.Owes, idle]
  cases beyond with
  | zero => exact .inl (placed.pointer.trans ahead)
  | succ beyond =>
      refine .inr ⟨beyond, by rwa [Nat.add_assoc, Nat.add_comm 1 beyond], near, ?_⟩
      have whole : (beyond + 1) * config.K ≤ (config.G - 1) * config.K := Nat.mul_le_mul_right _ (by omega)
      rw [Nat.succ_mul] at whole
      omega

theorem scan_owes (positive : 0 < config.K) (consumer : Consumer config) (placed : consumer.Placed) (k : Nat)
    (scanning : consumer.scan = some k) (j : Fin config.G) :
    consumer.Owes j ((config.G - 1) * config.K + 1) 1 ∧ (j ∉ consumer.tried → consumer.Owes j ((config.G - 1) * config.K) 0) := by
  have way := placed.way
  rw [scanning] at way
  obtain ⟨started, short, _, start, tried, next⟩ := way
  obtain ⟨beyond, near, ahead⟩ := queue_reach config (consumer.readQueueIndex + 1) j
  have whole : beyond * config.K ≤ (config.G - 1) * config.K := Nat.mul_le_mul_right _ (by omega)
  rw [Consumer.Owes, Consumer.Owes, scanning]
  refine ⟨⟨beyond, ahead, near, by omega, fun _ => Nat.le_refl 1⟩, fun untried => ⟨beyond, ahead, near, ?_⟩⟩
  -- Going on from the scan's place, queue j would be behind it only if the scan had tried it.
  have before : k + beyond < config.G := by
    by_contra behind
    apply untried
    rw [tried, List.mem_map]
    refine ⟨k + beyond - config.G, List.mem_range.mpr (by omega), ?_⟩
    have lap : start + k + beyond = start + (k + beyond - config.G) + config.G := by omega
    rw [← ahead, queue_eq_iff, Nat.ModEq.add_right beyond ((queue_eq_iff config _ _).mp next), lap, Nat.add_mod_right]
  have less : (beyond + 1) * config.K ≤ (config.G - 1) * config.K := Nat.mul_le_mul_right _ (by omega)
  rw [Nat.succ_mul] at less
  exact ⟨by omega, fun late => by omega⟩

theorem found_owes (positive : 0 < config.K) (consumer : Consumer config) (placed : consumer.Placed) (j : Fin config.G)
    (budget refusals : Nat) (owes : consumer.Owes j budget refusals) (other : consumer.aimed.readQueue ≠ j) :
    ∃ less, less + 1 = budget ∧ ({ consumer.found with scan := none, tried := [] } : Consumer config).Owes j less refusals := by
  have counted := placed.counted positive
  have way := placed.way
  cases place : consumer.scan with
  | none =>
      simp only [Consumer.Owes, Consumer.aimed, Consumer.found, place] at owes other ⊢
      rcases owes with here | ⟨beyond, ahead, near, afford⟩
      · exact absurd here other
      · refine ⟨budget - 1, by omega, ?_⟩
        rw [Consumer.count]
        split
        · exact advance_owes { consumer with popCount := 0 } j beyond (budget - 1) refusals ahead (by omega) rfl (by omega)
        · rename_i fewer
          refine .inr ⟨beyond, ahead, near, ?_⟩
          change config.K - (consumer.popCount + 1) + beyond * config.K ≤ budget - 1
          omega
  | some k =>
      rw [place] at way
      simp only [Consumer.Owes, Consumer.found, place] at owes ⊢
      obtain ⟨beyond, ahead, near, afford, _⟩ := owes
      exact ⟨budget - 1, by omega, advance_owes consumer j beyond (budget - 1) refusals ahead near way.2.2.1 (by omega)⟩

-- A pop that finds a queue other than j empty: the scan goes on with the same budget, or the
-- call returns false, which only a scan that has j behind it does.
theorem missed_owes (positive : 0 < config.K) (consumer : Consumer config) (placed : consumer.Placed) (j : Fin config.G)
    (budget refusals : Nat) (owes : consumer.Owes j budget refusals) (other : consumer.aimed.readQueue ≠ j) :
    (∀ tried, ({ consumer.missed with scan := some consumer.following, tried := tried } : Consumer config).Owes j budget refusals) ∧
      (config.G ≤ consumer.following → ∃ fewer, fewer + 1 = refusals ∧
        ({ consumer.missed with scan := none, tried := [] } : Consumer config).Owes j budget fewer) := by
  have counted := placed.counted positive
  have way := placed.way
  cases place : consumer.scan with
  | none =>
      simp only [Consumer.Owes, Consumer.aimed, Consumer.missed, Consumer.following, place] at owes other ⊢
      rcases owes with here | ⟨beyond, ahead, near, afford⟩
      · exact absurd here other
      · exact ⟨fun _ => ⟨beyond, ahead, by omega, by omega, fun late => by omega⟩, fun last => by omega⟩
  | some k =>
      rw [place] at way
      simp only [Consumer.Owes, Consumer.aimed, Consumer.missed, Consumer.following, place] at owes other ⊢
      obtain ⟨beyond, ahead, near, afford, behind⟩ := owes
      cases beyond with
      | zero => exact absurd ((advance_queue consumer).trans ahead) other
      | succ beyond =>
          have closer := advance_beyond consumer j beyond ahead
          rw [Nat.succ_mul] at afford
          refine ⟨fun _ => ⟨beyond, closer, by omega, by omega, fun late => behind (by omega)⟩, fun last => ?_⟩
          refine ⟨refusals - 1, by have late := behind (by omega); omega, .inr ⟨beyond, closer, near, ?_⟩⟩
          change config.K - consumer.popCount + beyond * config.K ≤ budget
          rw [way.2.2.1]
          omega

theorem pop_pays (positive : 0 < config.K) (pack : Pack config Data) (c : Nat) (j : Fin config.G) (budget refusals : Nat)
    (sound : pack.Sound) (consumer : Consumer config) (present : pack.consumers[c]? = some consumer)
    (held : (pack.queues j).items ≠ []) (owes : consumer.Owes j budget refusals) :
    ∃ events, pack.Pays (pack.pop c consumer) c j budget refusals events := by
  have placed := sound.placed consumer (List.mem_of_getElem? present)
  have inside := (List.getElem?_eq_some_iff.mp present).1
  rcases pop_step pack c consumer with ⟨item, rest, taken, result⟩ | ⟨empty, result⟩
  · rw [result]
    refine ⟨_, rfl, ?_⟩
    by_cases here : consumer.aimed.readQueue = j
    · intro unserved
      simp [PackEvent.serves, here] at unserved
    · obtain ⟨less, cost, owes⟩ := found_owes positive consumer placed j budget refusals owes here
      refine fun _ => ⟨less, refusals, ⟨?_, _, List.getElem?_set_self inside, owes⟩, ?_, ?_⟩
      · change (Function.update pack.queues consumer.aimed.readQueue rest j).items ≠ []
        rwa [Function.update_of_ne (Ne.symm here)]
      · simp [PackEvent.bypasses, here, cost]
      · simp [PackEvent.refuses]
  · have other : consumer.aimed.readQueue ≠ j := by
      intro here
      obtain ⟨item, rest, taken⟩ := Fifo.pop_held (pack.queues j) held
      rw [here, taken] at empty
      cases empty
    obtain ⟨goes, returns⟩ := missed_owes positive consumer placed j budget refusals owes other
    rw [result, Pack.miss]
    split
    · exact ⟨[], (List.append_nil _).symm, fun _ =>
        ⟨budget, refusals, ⟨held, _, List.getElem?_set_self inside, goes _⟩, rfl, rfl⟩⟩
    · rename_i last
      obtain ⟨fewer, cost, owes⟩ := returns (Nat.le_of_not_lt last)
      refine ⟨_, rfl, fun _ => ⟨budget, fewer, ⟨held, _, List.getElem?_set_self inside, owes⟩, ?_, ?_⟩⟩
      · simp [PackEvent.bypasses]
      · simp [PackEvent.refuses, cost]

theorem other_pays (pack : Pack config Data) (c other : Nat) (j : Fin config.G) (budget refusals : Nat)
    (consumer : Consumer config) (different : other ≠ c) (spared : consumer.aimed.readQueue ≠ j) (waiting : pack.Waiting c j budget refusals) :
    ∃ events, pack.Pays (pack.pop other consumer) c j budget refusals events := by
  obtain ⟨held, owner, present, owes⟩ := waiting
  have apart (after : Consumer config) : (pack.consumers.set other after)[c]? = some owner := by
    rw [List.getElem?_set_ne different, present]
  rcases pop_step pack other consumer with ⟨item, rest, taken, result⟩ | ⟨_, result⟩
  · rw [result]
    refine ⟨_, rfl, fun _ => ⟨budget, refusals, ⟨?_, owner, apart _, owes⟩, ?_, ?_⟩⟩
    · change (Function.update pack.queues consumer.aimed.readQueue rest j).items ≠ []
      rwa [Function.update_of_ne (Ne.symm spared)]
    · simp [PackEvent.bypasses, different]
    · simp [PackEvent.refuses]
  · rw [result, Pack.miss]
    split
    · exact ⟨[], (List.append_nil _).symm, fun _ => ⟨budget, refusals, ⟨held, owner, apart _, owes⟩, rfl, rfl⟩⟩
    · refine ⟨_, rfl, fun _ => ⟨budget, refusals, ⟨held, owner, apart _, owes⟩, ?_, ?_⟩⟩
      · simp [PackEvent.bypasses]
      · simp [PackEvent.refuses, different]

theorem push_pays (pack : Pack config Data) (c p : Nat) (producer : Producer config) (d : Data) (j : Fin config.G)
    (budget refusals : Nat) (waiting : pack.Waiting c j budget refusals) :
    ∃ events, pack.Pays (pack.push p producer d) c j budget refusals events := by
  obtain ⟨held, owner, present, owes⟩ := waiting
  rw [Pack.push]
  cases stored : (pack.queues producer.writeQueue).push? ⟨p, d⟩ with
  | none => exact ⟨[], (List.append_nil _).symm, fun _ => ⟨budget, refusals, ⟨held, owner, present, owes⟩, rfl, rfl⟩⟩
  | some next =>
      refine ⟨_, rfl, fun _ => ⟨budget, refusals, ⟨?_, owner, present, owes⟩, ?_, ?_⟩⟩
      · change (Function.update pack.queues producer.writeQueue next j).items ≠ []
        by_cases same : j = producer.writeQueue
        · subst same
          rw [Function.update_self, (Fifo.push_items _ next _ stored).2.2]
          exact List.append_ne_nil_of_right_ne_nil _ (List.cons_ne_nil _ _)
        · rwa [Function.update_of_ne same]
      · simp [PackEvent.bypasses]
      · simp [PackEvent.refuses]

theorem step_pays (positive : 0 < config.K) (pack next : Pack config Data) (action : PackAction Data) (c : Nat) (j : Fin config.G)
    (budget refusals : Nat) (sound : pack.Sound) (permitted : Spared c j pack action) (moved : pack.next action = some next)
    (waiting : pack.Waiting c j budget refusals) : ∃ events, pack.Pays next c j budget refusals events := by
  cases action with
  | producer =>
      cases Option.some.inj moved
      exact ⟨[], (List.append_nil _).symm, fun _ => ⟨budget, refusals, waiting, rfl, rfl⟩⟩
  | consumer =>
      cases Option.some.inj moved
      obtain ⟨held, owner, present, owes⟩ := waiting
      have still : (pack.consumers ++ [Consumer.make config pack.readersCount])[c]? = some owner := by
        rw [List.getElem?_append_left (List.getElem?_eq_some_iff.mp present).1, present]
      exact ⟨[], (List.append_nil _).symm, fun _ => ⟨budget, refusals, ⟨held, owner, still, owes⟩, rfl, rfl⟩⟩
  | push p d =>
      obtain ⟨producer, _, result⟩ := Option.map_eq_some_iff.mp moved
      subst result
      exact push_pays pack c p producer d j budget refusals waiting
  | pop other =>
      obtain ⟨consumer, present, result⟩ := Option.map_eq_some_iff.mp moved
      subst result
      by_cases mine : other = c
      · subst mine
        obtain ⟨held, owner, there, owes⟩ := waiting
        cases Option.some.inj (present.symm.trans there)
        exact pop_pays positive pack other j budget refusals sound consumer present held owes
      · exact other_pays pack c other j budget refusals consumer mine (permitted mine consumer present) waiting

theorem step_log (pack next : Pack config Data) (action : PackAction Data) (moved : pack.next action = some next) :
    ∃ events, next.log = pack.log ++ events := by
  cases action with
  | producer =>
      cases Option.some.inj moved
      exact ⟨[], (List.append_nil _).symm⟩
  | consumer =>
      cases Option.some.inj moved
      exact ⟨[], (List.append_nil _).symm⟩
  | push p d =>
      obtain ⟨producer, _, result⟩ := Option.map_eq_some_iff.mp moved
      rw [← result, Pack.push]
      split
      · exact ⟨_, rfl⟩
      · exact ⟨[], (List.append_nil _).symm⟩
  | pop c =>
      obtain ⟨consumer, _, result⟩ := Option.map_eq_some_iff.mp moved
      rcases pop_step pack c consumer with ⟨item, rest, _, taken⟩ | ⟨_, missed⟩
      · rw [← result, taken]
        exact ⟨_, rfl⟩
      · rw [← result, missed, Pack.miss]
        split
        · exact ⟨[], (List.append_nil _).symm⟩
        · exact ⟨_, rfl⟩

theorem path_log (promise : Pack config Data → PackAction Data → Prop) (pack final : Pack config Data) (actions : List (PackAction Data))
    (path : Transition.Path (packMachine config Data) promise pack actions final) : ∃ events, final.log = pack.log ++ events := by
  refine Transition.path_invariant (packMachine config Data) promise (fun state => ∃ events, state.log = pack.log ++ events) ?_
    pack final actions path ⟨[], (List.append_nil _).symm⟩
  rintro state action next ⟨before, early⟩ _ moved
  obtain ⟨news, late⟩ := step_log state next action moved
  exact ⟨before ++ news, by rw [late, early, List.append_assoc]⟩

theorem run_pays (positive : 0 < config.K) (pack final : Pack config Data) (actions : List (PackAction Data)) (c : Nat) (j : Fin config.G)
    (budget refusals : Nat) (sound : pack.Sound) (path : Transition.Path (packMachine config Data) (Spared c j) pack actions final)
    (waiting : pack.Waiting c j budget refusals) :
    ∃ events, final.log = pack.log ++ events ∧ (events.countP (PackEvent.serves c j) = 0 →
      events.countP (PackEvent.bypasses c j) ≤ budget ∧ events.countP (PackEvent.refuses c) ≤ refusals) := by
  induction path generalizing budget refusals with
  | done state => exact ⟨[], (List.append_nil _).symm, fun _ => ⟨Nat.zero_le _, Nat.zero_le _⟩⟩
  | step state middle final action rest permitted moved later ih =>
      obtain ⟨news, logged, paid⟩ := step_pays positive state middle action c j budget refusals sound permitted moved waiting
      by_cases unserved : news.countP (PackEvent.serves c j) = 0
      · obtain ⟨less, fewer, still, bypassed, refused⟩ := paid unserved
        obtain ⟨events, appended, bounds⟩ := ih less fewer (sound_step state middle action sound moved) still
        refine ⟨news ++ events, by rw [appended, logged, List.append_assoc], fun none => ?_⟩
        rw [List.countP_append, Nat.add_eq_zero_iff] at none
        have late := bounds none.2
        rw [List.countP_append, List.countP_append]
        omega
      · obtain ⟨events, appended⟩ := path_log (Spared c j) middle final rest later
        refine ⟨news ++ events, by rw [appended, logged, List.append_assoc], fun none => ?_⟩
        rw [List.countP_append, Nat.add_eq_zero_iff] at none
        exact absurd none.1 unserved

end

-- While the consumer has not popped from queue j. Between its calls nothing has been tried; a call
-- that tried j before it was refilled may still return false, and its scan gives one more pop.
theorem pack_bypass_bounded {config : PackConfig} {Data : Type} (positive : 0 < config.K) (pack final : Pack config Data)
    (actions : List (PackAction Data)) (c : Nat) (consumer : Consumer config) (j : Fin config.G)
    (reached : Transition.Reachable (packMachine config Data) (fun _ _ => True) pack)
    (present : pack.consumers[c]? = some consumer) (held : (pack.queues j).items ≠ [])
    (path : Transition.Path (packMachine config Data) (Spared c j) pack actions final) :
    ∃ events, final.log = pack.log ++ events ∧ (events.countP (PackEvent.serves c j) = 0 →
      (consumer.scan = none ∨ j ∉ consumer.tried →
        events.countP (PackEvent.bypasses c j) ≤ (config.G - 1) * config.K ∧ events.countP (PackEvent.refuses c) = 0) ∧
      events.countP (PackEvent.bypasses c j) ≤ (config.G - 1) * config.K + 1 ∧ events.countP (PackEvent.refuses c) ≤ 1) := by
  have sound := sound_reached (fun _ _ => True) pack reached
  have placed := sound.placed consumer (List.mem_of_getElem? present)
  obtain ⟨all, logged⟩ := path_log (Spared c j) pack final actions path
  have bounds (budget refusals : Nat) (owes : consumer.Owes j budget refusals) (unserved : all.countP (PackEvent.serves c j) = 0) :
      all.countP (PackEvent.bypasses c j) ≤ budget ∧ all.countP (PackEvent.refuses c) ≤ refusals := by
    obtain ⟨events, same, paid⟩ :=
      run_pays positive pack final actions c j budget refusals sound path ⟨held, consumer, present, owes⟩
    cases List.append_cancel_left (logged.symm.trans same)
    exact paid unserved
  refine ⟨all, logged, fun unserved => ?_⟩
  cases place : consumer.scan with
  | none =>
      have tight := bounds _ _ (idle_owes positive consumer placed place j) unserved
      exact ⟨fun _ => ⟨tight.1, by omega⟩, by omega, by omega⟩
  | some k =>
      obtain ⟨behind, ahead⟩ := scan_owes positive consumer placed k place j
      refine ⟨?_, bounds _ _ behind unserved⟩
      rintro (idle | untried)
      · cases idle
      · have tight := bounds _ _ (ahead untried) unserved
        exact ⟨tight.1, by omega⟩

-- The second queue holds an element while the consumer pops twice from the first, refilled in between.
def bypassSchedule : List (PackAction Nat) := [.producer, .producer, .consumer, .push 0 5, .push 0 6, .push 1 9]
def refillSchedule : List (PackAction Nat) := [.pop 0, .push 0 7, .pop 0]

theorem bypass_schedule_runs : (Pack.checked twoQueues (fun _ _ => True) bypassSchedule).isSome = true := by decide +kernel

theorem refill_schedule_runs :
    (Transition.checkedRun (packMachine twoQueues Nat) (Spared 0 (twoQueues.queue 1)) refillSchedule
      ((Pack.checked twoQueues (fun _ _ => True) bypassSchedule).get bypass_schedule_runs)).isSome = true := by
  decide +kernel

theorem pack_bypass_bounded_tight :
    let pack := (Pack.checked twoQueues (fun _ _ => True) bypassSchedule).get bypass_schedule_runs
    let final := (Transition.checkedRun (packMachine twoQueues Nat) (Spared 0 (twoQueues.queue 1)) refillSchedule pack).get refill_schedule_runs
    ∃ events, final.log = pack.log ++ events ∧ events.countP (PackEvent.bypasses 0 (twoQueues.queue 1)) = 2 ∧
      events.countP (PackEvent.bypasses 0 (twoQueues.queue 1)) ≤ (twoQueues.G - 1) * twoQueues.K := by
  intro pack final
  obtain ⟨events, logged, bounds⟩ := pack_bypass_bounded (by decide) pack final refillSchedule 0
    ⟨0, twoQueues.queue 0, 0, none, []⟩ (twoQueues.queue 1) (pack_checked twoQueues (fun _ _ => True) bypassSchedule bypass_schedule_runs) rfl (by decide +kernel)
    (Transition.checked_run_path _ _ refillSchedule pack final (Option.some_get refill_schedule_runs).symm)
  have steps : final.log = pack.log ++ [.popped 0 (twoQueues.queue 0) ⟨0, 5⟩, .pushed ⟨0, 7⟩, .popped 0 (twoQueues.queue 0) ⟨0, 6⟩] := rfl
  cases List.append_cancel_left (steps.symm.trans logged)
  exact ⟨_, logged, rfl, ((bounds rfl).1 (.inl rfl)).1⟩

end LockfreeQueue
