import LockfreeQueue.Progress

set_option autoImplicit false

namespace LockfreeQueue

section

variable {config : Config} {Data : Type}

-- The calls that fill slots and move the write index.
def Call.produces : Call config Data → Bool
  | .push _ | .pushIndex _ | .pushKeepN _ | .pushKeepNIndex _ => true
  | _ => false

def Action.isStepOf (thread : Nat) : Action config Data → Bool
  | .step other => other == thread
  | .call _ _ => false

-- One thread makes all the calls that push.
def OneProducer (producer : Nat) (_ : System config Data) : Action config Data → Prop
  | .call thread call => call.produces = true → thread = producer
  | .step _ => True

instance (producer : Nat) (system : System config Data) (action : Action config Data) : Decidable (OneProducer producer system action) :=
  match action with
  | .call _ _ => inferInstanceAs (Decidable (_ → _))
  | .step _ => isTrue trivial

-- The access after the one that stores the element, which a lazy push leaves out.
def Config.pushTail (config : Config) : Nat := if config.lazyPush then 0 else 1

-- How many accesses a push makes from here on, when no other thread pushes.
def Config.pushRank (config : Config) (log : List (Event config Data)) : Pc config Data → Nat
  | .pushLoad _ => if writes log = stores log then 3 + config.pushTail else 6 + config.pushTail
  | .pushRead _ _ => if writes log = stores log then 2 + config.pushTail else 5 + config.pushTail
  | .pushFill _ _ => 1 + config.pushTail
  | .pushDone _ _ => 1
  | .pushAdvance _ _ => 4 + config.pushTail
  | _ => 0

-- Four without lazy_push, and one round more for the index that it leaves behind.
def Config.pushBound (config : Config) : Nat := if config.lazyPush then 6 else 4

theorem Config.limit_positive (config : Config) : 0 < config.limit := by
  have fits := config.size_half
  have positive := config.size_positive
  rw [Config.limit]
  omega

theorem quiet_pushes (events log : List (Event config Data)) (quiet : ∀ event ∈ events, event.isStored = false ∧ event.isWrote = false) :
    stores (events ++ log) = stores log ∧ writes (events ++ log) = writes log := by
  have none : events.countP Event.isStored = 0 ∧ events.countP Event.isWrote = 0 :=
    ⟨List.countP_eq_zero.mpr fun event member => by simp [(quiet event member).1],
      List.countP_eq_zero.mpr fun event member => by simp [(quiet event member).2]⟩
  rw [stores, stores, writes, writes, List.countP_append, List.countP_append, none.1, none.2, Nat.zero_add, Nat.zero_add]
  exact ⟨rfl, rfl⟩

theorem foreign_pushes (producer : Nat) (since : List (Event config Data)) (foreign : Foreign producer since)
    (events : ∀ event ∈ since, event.isStored = true ∨ event.isWrote = true → event.thread = producer) :
    stores since = 0 ∧ writes since = 0 :=
  ⟨List.countP_eq_zero.mpr fun event member stored => foreign event member (events event member (.inl stored)),
    List.countP_eq_zero.mpr fun event member wrote => foreign event member (events event member (.inr wrote))⟩

-- What holds where one thread pushes: no other thread has moved the write index or filled a slot
-- since it loaded that index, and between its pushes the index lags only where push is lazy.
structure ProducerAlone (producer : Nat) (system : System config Data) : Prop where
  calls : ∀ thread task, system.tasks thread = some task → task.call.produces = true → thread = producer
  events : ∀ event ∈ system.since producer, event.isStored = true ∨ event.isWrote = true → event.thread = producer
  done : ∀ task d wrIndex, system.tasks producer = some task → task.pc = .pushDone d wrIndex → system.memory.writeIndex = wrIndex
  settled : config.lazyPush = false → (∀ task d wrIndex, system.tasks producer = some task → task.pc ≠ .pushDone d wrIndex) →
    writes system.log = stores system.log

theorem push_returns (task : Task config Data) (result : Option (Index config)) (isPush : task.call.isPush = true) :
    (resume task (.pushed result)).1 = none := by
  cases result <;> cases called : task.call <;> simp [called, Call.isPush] at isPush <;> simp [resume, called]

variable (producer : Nat) (system : System config Data)

theorem producer_alone_call (alone : ProducerAlone producer system) (thread : Nat) (call : Call config Data)
    (idle : system.tasks thread = none) (own : call.produces = true → thread = producer) :
    ProducerAlone producer (system.startCall thread call) := by
  refine ⟨fun other task running => ?_, alone.events, fun task d wrIndex running place => ?_, fun eager away => ?_⟩
  · rcases start_call_cases system thread other call task running with ⟨rfl, rfl⟩ | ⟨_, before⟩
    · exact own
    · exact alone.calls other task before
  · rcases start_call_cases system thread producer call task running with ⟨_, rfl⟩ | ⟨_, before⟩
    · cases call <;> cases place
    · exact alone.done task d wrIndex before place
  · refine alone.settled eager fun task d wrIndex running => ?_
    by_cases same : producer = thread
    · rw [same, idle] at running
      cases running
    · exact away task d wrIndex (by simpa [System.startCall, Function.update_of_ne same] using running)

theorem producer_alone_initial [Zero Data] : ProducerAlone producer (System.initial config Data) :=
  ⟨(fun _ _ running => nomatch running), (fun _ member => nomatch member), (fun _ _ _ running => nomatch running), fun _ _ => rfl⟩

theorem settled_away (alone : ProducerAlone producer system) (eager : config.lazyPush = false) (task : Task config Data)
    (running : system.tasks producer = some task) (away : ∀ d wrIndex, task.pc ≠ .pushDone d wrIndex) :
    writes system.log = stores system.log := by
  refine alone.settled eager fun other d wrIndex present => ?_
  rw [running] at present
  rw [← Option.some.inj present]
  exact away d wrIndex

-- A push is over or has the rank of its place left, which the steps of other threads keep.
def PushLeft (rank : Nat) : Prop :=
  ∀ task, system.tasks producer = some task → task.call.isPush = true ∧ config.pushRank system.log task.pc ≤ rank

theorem push_left_call (thread : Nat) (call : Call config Data) (rank : Nat) (left : PushLeft producer system rank)
    (other : thread ≠ producer) : PushLeft producer (system.startCall thread call) rank := by
  intro task present
  rcases start_call_cases system thread producer call task present with ⟨same, _⟩ | ⟨_, before⟩
  · exact absurd same.symm other
  · exact left task before

variable [DecidableEq Data] [Zero Data]

theorem no_push_kind (inv : Invariant system) (thread : Nat) (task : Task config Data) (running : system.tasks thread = some task)
    (other : task.call.produces = false) (d : Data) : task.pc.kind ≠ .push d := by
  intro kind
  have runs := inv.runs thread task running
  rw [kind] at runs
  cases called : task.call <;> simp [called, Call.Runs, Call.produces] at runs other

theorem exec_no_push (memory : Memory config Data) (log : List (Event config Data)) (thread : Nat) (call : Call config Data)
    (pc : Pc config Data) (kind : ∀ d, pc.kind ≠ .push d) :
    (exec memory pc).memory.writeIndex = memory.writeIndex ∧
      ∀ event ∈ recorded log thread call (exec memory pc).act, event.isStored = false ∧ event.isWrote = false := by
  cases pc with
  | readLoad loop => simp [exec, recorded]
  | readSlot loop rdIndex => simp [exec, recorded]
  | take loop rdIndex e =>
      by_cases hit : memory.entry rdIndex = e
      · simp [exec_take_hit memory loop rdIndex e hit, recorded, Act.event, Event.isStored, Event.isWrote]
      · simp [exec_take_miss memory loop rdIndex e hit, recorded]
  | takeDone loop rdIndex e =>
      rw [exec_take_done]
      split <;> simp [recorded, Act.event, Event.isStored, Event.isWrote]
  | readAdvance loop rdIndex =>
      rw [exec_read_advance]
      split <;> simp [recorded, Act.event, Event.isStored, Event.isWrote]
  | exchange i old new =>
      by_cases hit : memory.entry i = ⟨old, (i <<< 1) ||| 1⟩
      · simp [exec_exchange_hit memory i old new hit, recorded, Act.event, Event.isStored, Event.isWrote]
      · simp [exec_exchange_miss memory i old new hit, recorded]
  | pushLoad d => exact absurd rfl (kind d)
  | pushRead d wrIndex => exact absurd rfl (kind d)
  | pushFill d wrIndex => exact absurd rfl (kind d)
  | pushDone d wrIndex => exact absurd rfl (kind d)
  | pushAdvance d wrIndex => exact absurd rfl (kind d)

-- What the producer knows from its load of the index on, up to the CAS that fills the slot.
theorem producer_index (inv : Invariant system) (alone : ProducerAlone producer system) (wrIndex : Index config) (x : Nat)
    (position : PushLocal system.log (system.since producer) wrIndex x) (foreign : Foreign producer (system.since producer)) :
    stores (system.since producer) = 0 ∧ writes system.log = x ∧ system.memory.writeIndex = wrIndex ∧
      writes system.log ≤ stores system.log ∧ stores system.log ≤ writes system.log + 1 := by
  obtain ⟨queue, legal, represents⟩ := inv.holds
  obtain ⟨total, _⟩ := contents_counts system.log queue legal
  obtain ⟨stored, wrote⟩ := foreign_pushes producer (system.since producer) foreign alone.events
  have loaded := position.loaded
  have lag := represents.writeLag
  rw [wrote, Nat.add_zero] at loaded
  exact ⟨stored, loaded, by rw [represents.write, loaded, position.index], by omega, by omega⟩

theorem producer_alone_other (inv : Invariant system) (alone : ProducerAlone producer system) (thread : Nat) (task : Task config Data)
    (running : system.tasks thread = some task) (other : thread ≠ producer) : ProducerAlone producer (system.stepTask thread task) := by
  have idle : task.call.produces = false := by
    cases produces : task.call.produces with
    | false => rfl
    | true => exact absurd (alone.calls thread task running produces) other
  obtain ⟨index, quiet⟩ := exec_no_push system.memory system.log thread task.call task.pc (no_push_kind system inv thread task running idle)
  obtain ⟨stored, wrote⟩ := quiet_pushes _ system.log quiet
  have same (next : Task config Data) (present : (system.stepTask thread task).tasks producer = some next) :
      system.tasks producer = some next := by
    rcases step_task_cases system thread producer task next present with ⟨equal, _⟩ | ⟨_, before⟩
    · exact absurd equal.symm other
    · exact before
  refine ⟨fun another next present => ?_, fun event member pushes => ?_, fun next d wrIndex present place => ?_, fun eager away => ?_⟩
  · rcases step_task_cases system thread another task next present with ⟨rfl, continues⟩ | ⟨_, before⟩
    · rw [resume_call task next _ continues, idle]
      exact fun impossible => nomatch impossible
    · exact alone.calls another next before
  · rw [System.stepTask] at member
    simp only [Ne.symm other, false_and, if_false, List.mem_append] at member
    rcases member with new | old
    · have silent := quiet event new
      rw [silent.1, silent.2] at pushes
      simp at pushes
    · exact alone.events event old pushes
  · exact index.trans (alone.done next d wrIndex (same next present) place)
  · change writes (_ ++ system.log) = stores (_ ++ system.log)
    rw [stored, wrote]
    refine alone.settled eager fun next d wrIndex before => away next d wrIndex ?_
    exact (Function.update_of_ne (Ne.symm other) _ _).trans before

-- What one access of the producer's push does: it returns or comes nearer to the end.
structure PushMoves (task : Task config Data) : Prop where
  done : ∀ d wrIndex, (exec system.memory task.pc).next = .goto (.pushDone d wrIndex) →
    (exec system.memory task.pc).memory.writeIndex = wrIndex
  settled : config.lazyPush = false → (∀ d wrIndex, (exec system.memory task.pc).next ≠ .goto (.pushDone d wrIndex)) →
    writes (system.stepTask producer task).log = stores (system.stepTask producer task).log
  rank : ∀ pc, (exec system.memory task.pc).next = .goto pc →
    config.pushRank (system.stepTask producer task).log pc < config.pushRank system.log task.pc

theorem push_load_moves (alone : ProducerAlone producer system) (call : Call config Data) (count : Nat) (d : Data)
    (running : system.tasks producer = some ⟨call, count, .pushLoad d⟩) :
    PushMoves producer system ⟨call, count, .pushLoad d⟩ := by
  have away := fun eager => settled_away producer system alone eager _ running (by simp)
  refine ⟨fun value index goes => by simp [exec] at goes, fun eager _ => away eager, fun pc goes => ?_⟩
  cases goes
  change config.pushRank system.log (.pushRead d _) < config.pushRank system.log (.pushLoad d)
  simp only [Config.pushRank]
  split <;> omega

section

variable (inv : Invariant system) (alone : ProducerAlone producer system) (call : Call config Data) (count : Nat) (d : Data)
variable (wrIndex : Index config)
include inv alone

theorem push_read_moves (running : system.tasks producer = some ⟨call, count, .pushRead d wrIndex⟩) :
    PushMoves producer system ⟨call, count, .pushRead d wrIndex⟩ := by
  have away := fun eager => settled_away producer system alone eager _ running (by simp)
  obtain ⟨x, position, foreign⟩ := inv.locals producer _ running
  obtain ⟨few, loaded, index, _, _⟩ := producer_index producer system inv alone wrIndex x position foreign
  obtain ⟨queue, legal, represents⟩ := inv.holds
  obtain ⟨total, _⟩ := contents_counts system.log queue legal
  have positive := config.limit_positive
  have sound := push_branch_sound system.memory queue _ _ x represents (by omega)
    (push_window system.log (system.since producer) queue wrIndex x legal position (by omega))
  rw [← position.index] at sound
  refine ⟨fun value later goes => ?_, fun eager _ => away eager, fun pc goes => ?_⟩
  · simp only [exec, pushSlot] at goes
    split at goes <;> cases goes
  · change config.pushRank system.log pc < config.pushRank system.log (.pushRead d wrIndex)
    simp only [exec, pushSlot] at goes
    split at goes
    · rename_i branch
      rw [branch] at sound
      cases goes
      simp only [Config.pushRank]
      rw [if_pos (by have current := sound.1; omega)]
      omega
    · rename_i branch
      rw [branch] at sound
      cases goes
      have behind : x < queue.total := sound
      simp only [Config.pushRank]
      rw [if_neg (by omega)]
      omega
    · cases goes
    · rename_i branch
      rw [branch] at sound
      have passed : x < writes system.log := sound
      omega

theorem push_fill_moves (running : system.tasks producer = some ⟨call, count, .pushFill d wrIndex⟩) :
    PushMoves producer system ⟨call, count, .pushFill d wrIndex⟩ := by
  obtain ⟨x, position, foreign, free, room⟩ := inv.locals producer _ running
  obtain ⟨few, loaded, index, behind, _⟩ := producer_index producer system inv alone wrIndex x position foreign
  obtain ⟨queue, legal, represents⟩ := inv.holds
  obtain ⟨total, first⟩ := contents_counts system.log queue legal
  have current : x = queue.total := by omega
  have hit := fill_complete system.memory queue _ _ represents (by omega)
  rw [← current, ← position.index] at hit
  have effect := exec_fill_hit system.memory d wrIndex hit
  refine ⟨fun value later goes => ?_, fun eager away => ?_, fun pc goes => ?_⟩
  · rw [effect] at goes ⊢
    simp only at goes
    split at goes <;> cases goes
    exact index
  · have goes : (exec system.memory (.pushFill d wrIndex)).next = .goto (.pushDone d wrIndex) := by
      rw [effect]
      exact if_neg (by simp [eager])
    exact absurd goes (away d wrIndex)
  · rw [effect] at goes
    simp only at goes
    split at goes <;> cases goes
    rename_i eager
    change 1 < 1 + config.pushTail
    rw [Config.pushTail, if_neg eager]
    decide

theorem push_done_moves (timely : stores (system.since producer) < config.limit)
    (running : system.tasks producer = some ⟨call, count, .pushDone d wrIndex⟩) :
    PushMoves producer system ⟨call, count, .pushDone d wrIndex⟩ := by
  have hit := alone.done _ d wrIndex running rfl
  obtain ⟨x, position, _, stored⟩ := inv.locals producer _ running
  have passed := stored_values_bound system.log x d stored
  have held := write_advance system.memory system.log (system.since producer) producer wrIndex x inv.holds position passed timely hit
  have effect := exec_done system.memory d wrIndex
  rw [if_pos hit] at effect
  refine ⟨fun value later goes => by simp [effect] at goes, fun eager _ => ?_, fun pc goes => by simp [effect] at goes⟩
  have log : (system.stepTask producer ⟨call, count, .pushDone d wrIndex⟩).log = .wrote producer :: system.log := by
    rw [System.stepTask, effect]
    rfl
  obtain ⟨queue, legal, represents⟩ := held
  obtain ⟨total, _⟩ := contents_counts _ queue legal
  obtain ⟨before, legalBefore, representsBefore⟩ := inv.holds
  obtain ⟨totalBefore, _⟩ := contents_counts system.log before legalBefore
  have lag := represents.writeLag
  have lagBefore := representsBefore.writeLag
  rw [log]
  rw [total, writes_cons, stores_cons] at lag
  rw [writes_cons, stores_cons]
  simp only [Event.isWrote, Event.isStored, if_true, Bool.false_eq_true, if_false] at lag ⊢
  omega

theorem push_advance_moves (running : system.tasks producer = some ⟨call, count, .pushAdvance d wrIndex⟩) :
    PushMoves producer system ⟨call, count, .pushAdvance d wrIndex⟩ := by
  have away := fun eager => settled_away producer system alone eager _ running (by simp)
  obtain ⟨x, position, foreign, passed⟩ := inv.locals producer _ running
  obtain ⟨few, loaded, index, _, near⟩ := producer_index producer system inv alone wrIndex x position foreign
  have effect := exec_push_advance system.memory d wrIndex
  rw [if_pos index] at effect
  have log : (system.stepTask producer ⟨call, count, .pushAdvance d wrIndex⟩).log = .wrote producer :: system.log := by
    rw [System.stepTask, effect]
    rfl
  refine ⟨fun value later goes => by simp [effect] at goes, fun eager _ => ?_, fun pc goes => ?_⟩
  · have equal := away eager
    omega
  · rw [effect] at goes
    cases goes
    rw [log]
    simp only [Config.pushRank]
    rw [if_pos]
    · omega
    · rw [writes_cons, stores_cons]
      simp only [Event.isWrote, Event.isStored, if_true, Bool.false_eq_true, if_false]
      omega

end

theorem producer_moves (inv : Invariant system) (alone : ProducerAlone producer system) (task : Task config Data) (d : Data)
    (running : system.tasks producer = some task) (timely : system.InTime producer task) (kind : task.pc.kind = .push d) :
    PushMoves producer system task := by
  obtain ⟨call, count, pc⟩ := task
  cases pc with
  | pushLoad value => exact push_load_moves producer system alone call count value running
  | pushRead value wrIndex => exact push_read_moves producer system inv alone call count value wrIndex running
  | pushFill value wrIndex => exact push_fill_moves producer system inv alone call count value wrIndex running
  | pushDone value wrIndex => exact push_done_moves producer system inv alone call count value wrIndex (timely rfl).1 running
  | pushAdvance value wrIndex => exact push_advance_moves producer system inv alone call count value wrIndex running
  | readLoad loop => cases kind
  | readSlot loop rdIndex => cases kind
  | take loop rdIndex e => cases kind
  | takeDone loop rdIndex e => cases kind
  | readAdvance loop rdIndex => cases kind
  | exchange i old new => cases kind

theorem step_events (thread : Nat) (task : Task config Data) (owned : ∀ event ∈ system.since producer,
      event.isStored = true ∨ event.isWrote = true → event.thread = producer) (same : thread = producer) :
    ∀ event ∈ (system.stepTask thread task).since producer, event.isStored = true ∨ event.isWrote = true → event.thread = producer := by
  intro event member pushes
  simp only [System.stepTask] at member
  split at member
  · cases member
  · rcases List.mem_append.mp member with new | old
    · cases act : (exec system.memory task.pc).act with
      | none => simp [act, recorded] at new
      | some done =>
          rw [act] at new
          rw [List.mem_singleton.mp new, ← same]
          cases done <;> rfl
    · exact owned event old pushes

theorem producer_alone_own (inv : Invariant system) (alone : ProducerAlone producer system) (task : Task config Data)
    (running : system.tasks producer = some task) (timely : system.InTime producer task) :
    ProducerAlone producer (system.stepTask producer task) := by
  have calls : ∀ thread next, (system.stepTask producer task).tasks thread = some next → next.call.produces = true → thread = producer := by
    intro thread next present produces
    rcases step_task_cases system producer thread task next present with ⟨same, _⟩ | ⟨_, before⟩
    · exact same
    · exact alone.calls thread next before produces
  have mine (next : Task config Data) (present : (system.stepTask producer task).tasks producer = some next) :
      (exec system.memory task.pc).next = .goto next.pc ∨ next.pc.isLoad = true := by
    rcases step_task_cases system producer producer task next present with ⟨_, continues⟩ | ⟨different, _⟩
    · exact (resume_pc task next _ continues).imp_right And.left
    · exact absurd rfl different
  by_cases kind : ∃ d, task.pc.kind = .push d
  · obtain ⟨d, kind⟩ := kind
    have moves := producer_moves producer system inv alone task d running timely kind
    refine ⟨calls, step_events producer system producer task alone.events rfl, fun next value wrIndex present place => ?_,
      fun eager away => moves.settled eager fun value wrIndex goes => ?_⟩
    · rcases mine next present with goes | load
      · rw [place] at goes
        exact moves.done value wrIndex goes
      · rw [place] at load
        cases load
    · have present : (system.stepTask producer task).tasks producer = some { task with pc := .pushDone value wrIndex } := by
        simp only [System.stepTask, Function.update_self, goes, resume]
      exact away _ value wrIndex present rfl
  · have none : ∀ d, task.pc.kind ≠ .push d := fun d same => kind ⟨d, same⟩
    obtain ⟨_, quiet⟩ := exec_no_push system.memory system.log producer task.call task.pc none
    obtain ⟨stored, wrote⟩ := quiet_pushes _ system.log quiet
    refine ⟨calls, step_events producer system producer task alone.events rfl, fun next value wrIndex present place => ?_,
      fun eager _ => ?_⟩
    · rcases mine next present with goes | load
      · have same := exec_goto_kind system.memory task.pc next.pc goes
        rw [place] at same
        exact absurd same.symm (none value)
      · rw [place] at load
        cases load
    · change writes (_ ++ system.log) = stores (_ ++ system.log)
      rw [stored, wrote]
      refine settled_away producer system alone eager task running fun value wrIndex place => none value ?_
      rw [place]
      rfl

theorem producer_alone_reached (reached : System.Reached (OneProducer producer) system) :
    Invariant system ∧ ProducerAlone producer system := by
  refine reached_induction (OneProducer producer) (ProducerAlone producer) (producer_alone_initial producer) ?_ ?_ system reached
  · intro before thread call _ _ alone idle own
    exact producer_alone_call producer before alone thread call idle own
  · intro before thread task _ inv alone _ running timely
    by_cases same : thread = producer
    · subst same
      exact producer_alone_own thread before inv alone task running timely
    · exact producer_alone_other producer before inv alone thread task running same

def System.pushRank (system : System config Data) (producer : Nat) : Nat :=
  match system.tasks producer with
  | some task => config.pushRank system.log task.pc
  | none => 0

theorem push_kind (inv : Invariant system) (thread : Nat) (task : Task config Data) (running : system.tasks thread = some task)
    (isPush : task.call.isPush = true) : ∃ d, task.pc.kind = .push d := by
  have runs := inv.runs thread task running
  cases called : task.call with
  | push d =>
      rw [called] at runs
      exact ⟨d, runs⟩
  | pushIndex d =>
      rw [called] at runs
      exact ⟨d, runs⟩
  | _ => rw [called] at isPush; cases isPush

-- The rank is no more than the bound, and never zero inside a push.
theorem push_rank_bound (inv : Invariant system) (alone : ProducerAlone producer system) (task : Task config Data) (d : Data)
    (running : system.tasks producer = some task) (kind : task.pc.kind = .push d) :
    0 < config.pushRank system.log task.pc ∧ config.pushRank system.log task.pc ≤ config.pushBound := by
  have settled := fun eager => settled_away producer system alone eager task running
  have tail : config.lazyPush = true ∧ config.pushTail = 0 ∧ config.pushBound = 6 ∨
      config.lazyPush = false ∧ config.pushTail = 1 ∧ config.pushBound = 4 := by
    cases lazy : config.lazyPush
    · exact .inr ⟨rfl, by simp [Config.pushTail, lazy], by simp [Config.pushBound, lazy]⟩
    · exact .inl ⟨rfl, by simp [Config.pushTail, lazy], by simp [Config.pushBound, lazy]⟩
  have known := inv.locals producer task running
  obtain ⟨call, count, pc⟩ := task
  cases pc with
  | pushLoad value =>
      simp only [Config.pushRank]
      rcases tail with ⟨_, none, bound⟩ | ⟨eager, one, bound⟩
      · split <;> omega
      · rw [if_pos (settled eager (by simp))]
        omega
  | pushRead value wrIndex =>
      simp only [Config.pushRank]
      rcases tail with ⟨_, none, bound⟩ | ⟨eager, one, bound⟩
      · split <;> omega
      · rw [if_pos (settled eager (by simp))]
        omega
  | pushFill value wrIndex =>
      simp only [Config.pushRank]
      omega
  | pushDone value wrIndex =>
      simp only [Config.pushRank]
      omega
  | pushAdvance value wrIndex =>
      simp only [Config.pushRank]
      rcases tail with ⟨_, none, bound⟩ | ⟨eager, one, bound⟩
      · omega
      · obtain ⟨x, position, foreign, passed⟩ := known
        have loaded := (producer_index producer system inv alone wrIndex x position foreign).2.1
        have equal := settled eager (by simp)
        omega
  | _ => cases kind

theorem push_left_other (inv : Invariant system) (alone : ProducerAlone producer system) (thread : Nat) (task : Task config Data)
    (running : system.tasks thread = some task) (other : thread ≠ producer) (rank : Nat) (left : PushLeft producer system rank) :
    PushLeft producer (system.stepTask thread task) rank := by
  have idle : task.call.produces = false := by
    cases produces : task.call.produces with
    | false => rfl
    | true => exact absurd (alone.calls thread task running produces) other
  obtain ⟨_, quiet⟩ := exec_no_push system.memory system.log thread task.call task.pc (no_push_kind system inv thread task running idle)
  obtain ⟨stored, wrote⟩ := quiet_pushes _ system.log quiet
  have same (pc : Pc config Data) : config.pushRank (system.stepTask thread task).log pc = config.pushRank system.log pc := by
    change config.pushRank (_ ++ system.log) pc = _
    cases pc <;> simp only [Config.pushRank, stored, wrote]
  intro next present
  rcases step_task_cases system thread producer task next present with ⟨equal, _⟩ | ⟨_, before⟩
  · exact absurd equal.symm other
  · rw [same]
    exact left next before

theorem push_left_own (inv : Invariant system) (alone : ProducerAlone producer system) (task : Task config Data)
    (running : system.tasks producer = some task) (timely : system.InTime producer task) (isPush : task.call.isPush = true) :
    PushLeft producer (system.stepTask producer task) (config.pushRank system.log task.pc - 1) := by
  obtain ⟨d, kind⟩ := push_kind system inv producer task running isPush
  have moves := producer_moves producer system inv alone task d running timely kind
  intro next present
  rcases step_task_cases system producer producer task next present with ⟨_, continues⟩ | ⟨different, _⟩
  · refine ⟨by rw [resume_call task next _ continues]; exact isPush, ?_⟩
    rcases push_exits system.memory d task.pc kind _ rfl with ⟨after, goes⟩ | ⟨refused, _⟩ | ⟨wrIndex, stored, _⟩
    · have less := moves.rank after goes
      rw [goes] at continues
      cases continues
      simp only at less ⊢
      omega
    · rw [refused, push_returns task none isPush] at continues
      cases continues
    · rw [stored, push_returns task (some wrIndex) isPush] at continues
      cases continues
  · exact absurd rfl different

theorem push_left_none (reached : System.Reached (OneProducer producer) system) (left : PushLeft producer system 0) :
    system.tasks producer = none := by
  obtain ⟨inv, alone⟩ := producer_alone_reached producer system reached
  cases present : system.tasks producer with
  | none => rfl
  | some task =>
      obtain ⟨isPush, none⟩ := left task present
      obtain ⟨d, kind⟩ := push_kind system inv producer task present isPush
      have positive := (push_rank_bound producer system inv alone task d present kind).1
      omega

theorem push_left_others (reached : System.Reached (OneProducer producer) system) (action : Action config Data) (next : System config Data)
    (rank : Nat) (left : PushLeft producer system rank) (busy : system.tasks producer ≠ none)
    (moved : system.next action = some next) (other : action.isStepOf producer = false) : PushLeft producer next rank := by
  obtain ⟨inv, alone⟩ := producer_alone_reached producer system reached
  cases action with
  | call thread call =>
      simp only [System.next] at moved
      split at moved
      · rename_i idle
        cases moved
        exact push_left_call producer system thread call rank left fun same =>
          busy (by rw [← same]; exact Option.isNone_iff_eq_none.mp idle)
      · cases moved
  | step thread =>
      obtain ⟨task, running, result⟩ := Option.map_eq_some_iff.mp moved
      subst result
      exact push_left_other producer system inv alone thread task running (by simpa [Action.isStepOf] using other) rank left

theorem push_left_owned (reached : System.Reached (OneProducer producer) system) (action : Action config Data) (next : System config Data)
    (rank : Nat) (left : PushLeft producer system (rank + 1)) (timely : system.Timely action)
    (moved : system.next action = some next) (own : action.isStepOf producer = true) : PushLeft producer next rank := by
  obtain ⟨inv, alone⟩ := producer_alone_reached producer system reached
  cases action with
  | call thread call => cases own
  | step thread =>
      obtain rfl : thread = producer := by simpa [Action.isStepOf] using own
      obtain ⟨task, running, result⟩ := Option.map_eq_some_iff.mp moved
      subst result
      obtain ⟨isPush, fits⟩ := left task running
      have less := push_left_own thread system inv alone task running (timely task running) isPush
      intro later present
      obtain ⟨pushes, bound⟩ := less later present
      exact ⟨pushes, by omega⟩

-- While all pushes come from one thread, each of them returns after a bounded number of its own
-- accesses, whatever the consumers do meanwhile.
theorem push_wait_free (reached : System.Reached (OneProducer producer) system) (task : Task config Data)
    (running : system.tasks producer = some task) (isPush : task.call.isPush = true) (actions : List (Action config Data))
    (final : System config Data)
    (path : Transition.Path (queueMachine config Data) (System.Allowed (OneProducer producer)) system actions final)
    (steps : config.pushBound ≤ actions.countP (Action.isStepOf producer)) :
    ∃ earlier later middle, actions = earlier ++ later ∧
      Transition.Path (queueMachine config Data) (System.Allowed (OneProducer producer)) system earlier middle ∧
      middle.tasks producer = none ∧ earlier.countP (Action.isStepOf producer) ≤ config.pushBound := by
  obtain ⟨inv, alone⟩ := producer_alone_reached producer system reached
  obtain ⟨d, kind⟩ := push_kind system inv producer task running isPush
  have bound := (push_rank_bound producer system inv alone task d running kind).2
  have start : PushLeft producer system config.pushBound := fun other present => by
    rw [running] at present
    cases present
    exact ⟨isPush, bound⟩
  obtain ⟨earlier, later, middle, split, early, ended, count⟩ := Transition.path_ends (queueMachine config Data)
    (System.Allowed (OneProducer producer)) (Action.isStepOf producer)
    (fun state rank => System.Reached (OneProducer producer) state ∧ PushLeft producer state rank)
    (fun state => state.tasks producer = none)
    (fun state action next rank known busy allowed moved mine =>
      ⟨Transition.reachable_step _ _ state next action known.1 allowed moved,
        push_left_others producer state known.1 action next rank known.2 busy moved mine⟩)
    (fun state action next rank known _ allowed moved mine =>
      ⟨Transition.reachable_step _ _ state next action known.1 allowed moved,
        push_left_owned producer state known.1 action next rank known.2 allowed.1 moved mine⟩)
    (fun state known => push_left_none producer state known.1 known.2) system final actions config.pushBound path ⟨reached, start⟩ steps
  exact ⟨earlier, later, middle, split, early, ended, count⟩

end

-- Two consumers empty the slots between the accesses of the producer.
def pushAmongPops : List (Action smallQueue Nat) :=
  [.call 0 (.push 5), .step 0, .step 0, .step 0, .step 0, .call 0 (.push 6), .step 0, .call 1 .pop, .call 2 .pop, .step 1]

theorem push_among_pops_runs : (System.checked (OneProducer 0) pushAmongPops).isSome = true := by decide +kernel

def popsGoOn : List (Action smallQueue Nat) := [.step 1, .step 0, .step 2, .step 1, .step 0, .step 1, .step 0, .call 0 (.push 7), .step 2, .step 0]

theorem pops_go_on_runs : (Transition.checkedRun (queueMachine smallQueue Nat) (System.Allowed (OneProducer 0)) popsGoOn
    ((System.checked (OneProducer 0) pushAmongPops).get push_among_pops_runs)).isSome = true := by decide +kernel

theorem push_wait_free_small :
    let system := (System.checked (OneProducer 0) pushAmongPops).get push_among_pops_runs
    ∃ earlier later middle, popsGoOn = earlier ++ later ∧
      Transition.Path (queueMachine smallQueue Nat) (System.Allowed (OneProducer 0)) system earlier middle ∧
      middle.tasks 0 = none ∧ earlier.countP (Action.isStepOf 0) ≤ 4 := by
  intro system
  have path := Transition.checked_run_path (queueMachine smallQueue Nat) (System.Allowed (OneProducer 0)) popsGoOn system _
    (Option.some_get pops_go_on_runs).symm
  exact push_wait_free 0 system (reached_checked (OneProducer 0) pushAmongPops push_among_pops_runs) ⟨.push 6, 0, .pushRead 6 1⟩ rfl rfl
    popsGoOn _ path (by decide)

end LockfreeQueue
