import LockfreeQueue.WaitFreePush

set_option autoImplicit false

namespace LockfreeQueue

section

variable {config : Config} {Data : Type}

-- All the calls but those that only push and empty: they empty or rewrite slots, or move the read
-- index.
def Call.consumes : Call config Data → Bool
  | .push _ | .pushIndex _ | .empty => false
  | _ => true

-- One thread makes all of them.
def OneConsumer (consumer : Nat) (_ : System config Data) : Action config Data → Prop
  | .call thread call => call.consumes = true → thread = consumer
  | .step _ => True

instance (consumer : Nat) (system : System config Data) (action : Action config Data) : Decidable (OneConsumer consumer system action) :=
  match action with
  | .call _ _ => inferInstanceAs (Decidable (_ → _))
  | .step _ => isTrue trivial

def Config.popTail (config : Config) : Nat := if config.lazyPop then 0 else 1

-- How many accesses a pop makes from here on, when no other thread consumes.
def Config.popRank (config : Config) (log : List (Event config Data)) : Pc config Data → Nat
  | .readLoad _ => if reads log = takes log then 3 + config.popTail else 6 + config.popTail
  | .readSlot _ _ => if reads log = takes log then 2 + config.popTail else 5 + config.popTail
  | .take _ _ _ => 1 + config.popTail
  | .takeDone _ _ _ => 1
  | .readAdvance _ _ => 4 + config.popTail
  | _ => 0

def Config.popBound (config : Config) : Nat := if config.lazyPop then 6 else 4

theorem quiet_pops (events log : List (Event config Data)) (quiet : ∀ event ∈ events, event.isTook = false ∧ event.isRead = false) :
    takes (events ++ log) = takes log ∧ reads (events ++ log) = reads log := by
  have none : events.countP Event.isTook = 0 ∧ events.countP Event.isRead = 0 :=
    ⟨List.countP_eq_zero.mpr fun event member => by simp [(quiet event member).1],
      List.countP_eq_zero.mpr fun event member => by simp [(quiet event member).2]⟩
  rw [takes, takes, reads, reads, List.countP_append, List.countP_append, none.1, none.2, Nat.zero_add, Nat.zero_add]
  exact ⟨rfl, rfl⟩

theorem foreign_pops (consumer : Nat) (since : List (Event config Data)) (foreign : Foreign consumer since)
    (events : ∀ event ∈ since, event.isTook = true ∨ event.isRead = true → event.thread = consumer) :
    takes since = 0 ∧ reads since = 0 :=
  ⟨List.countP_eq_zero.mpr fun event member took => foreign event member (events event member (.inl took)),
    List.countP_eq_zero.mpr fun event member read => foreign event member (events event member (.inr read))⟩

-- The places of a call that does not consume.
def Pc.Spares (pc : Pc config Data) : Prop :=
  (∃ d, pc.kind = .push d) ∨ pc = .readLoad .empty ∨ ∃ rdIndex, pc = .readSlot .empty rdIndex

-- What holds where one thread consumes: no other thread has moved the read index or changed a
-- filled slot since it loaded that index, and between its pops the index lags only where pop is
-- lazy.
structure ConsumerAlone (consumer : Nat) (system : System config Data) : Prop where
  calls : ∀ thread task, system.tasks thread = some task → task.call.consumes = true → thread = consumer
  spares : ∀ thread task, system.tasks thread = some task → task.call.consumes = false → task.pc.Spares
  events : ∀ event ∈ system.since consumer, event.isTook = true ∨ event.isRead = true → event.thread = consumer
  holding : ∀ task loop rdIndex e, system.tasks consumer = some task → task.pc = .take loop rdIndex e →
    system.memory.entry rdIndex = e
  done : ∀ task loop rdIndex e, system.tasks consumer = some task → task.pc = .takeDone loop rdIndex e →
    system.memory.readIndex = rdIndex
  settled : config.lazyPop = false → (∀ task loop rdIndex e, system.tasks consumer = some task → task.pc ≠ .takeDone loop rdIndex e) →
    reads system.log = takes system.log

theorem pop_returns (task : Task config Data) (result : Option (Index config × Data)) (isPop : task.call.isPop = true) :
    (resume task (.popped result)).1 = none := by
  cases result <;> cases called : task.call <;> simp [called, Call.isPop] at isPop <;> simp [resume, called]

variable (consumer : Nat) (system : System config Data)

theorem start_spares (call : Call config Data) (other : call.consumes = false) : call.start.pc.Spares := by
  cases call with
  | push d => exact .inl ⟨d, rfl⟩
  | pushIndex d => exact .inl ⟨d, rfl⟩
  | empty => exact .inr (.inl rfl)
  | _ => cases other

theorem consumer_alone_call (alone : ConsumerAlone consumer system) (thread : Nat) (call : Call config Data)
    (idle : system.tasks thread = none) (own : call.consumes = true → thread = consumer) :
    ConsumerAlone consumer (system.startCall thread call) := by
  refine ⟨fun other task running => ?_, fun other task running => ?_, alone.events, fun task loop rdIndex e running place => ?_,
    fun task loop rdIndex e running place => ?_, fun eager away => ?_⟩
  · rcases start_call_cases system thread other call task running with ⟨rfl, rfl⟩ | ⟨_, before⟩
    · exact own
    · exact alone.calls other task before
  · rcases start_call_cases system thread other call task running with ⟨_, rfl⟩ | ⟨_, before⟩
    · exact start_spares call
    · exact alone.spares other task before
  · rcases start_call_cases system thread consumer call task running with ⟨_, rfl⟩ | ⟨_, before⟩
    · cases call <;> cases place
    · exact alone.holding task loop rdIndex e before place
  · rcases start_call_cases system thread consumer call task running with ⟨_, rfl⟩ | ⟨_, before⟩
    · cases call <;> cases place
    · exact alone.done task loop rdIndex e before place
  · refine alone.settled eager fun task loop rdIndex e running => ?_
    by_cases same : consumer = thread
    · rw [same, idle] at running
      cases running
    · exact away task loop rdIndex e (by simpa [System.startCall, Function.update_of_ne same] using running)

theorem consumer_settled (alone : ConsumerAlone consumer system) (eager : config.lazyPop = false) (task : Task config Data)
    (running : system.tasks consumer = some task) (away : ∀ loop rdIndex e, task.pc ≠ .takeDone loop rdIndex e) :
    reads system.log = takes system.log := by
  refine alone.settled eager fun other loop rdIndex e present => ?_
  rw [running] at present
  rw [← Option.some.inj present]
  exact away loop rdIndex e

theorem consumer_alone_initial [Zero Data] : ConsumerAlone consumer (System.initial config Data) :=
  ⟨(fun _ _ running => nomatch running), (fun _ _ running => nomatch running), (fun _ member => nomatch member),
    (fun _ _ _ _ running => nomatch running), (fun _ _ _ _ running => nomatch running), fun _ _ => rfl⟩

variable [DecidableEq Data] [Zero Data]

-- An access that spares the elements: the read index and every filled slot stay as they are.
theorem exec_spares (memory : Memory config Data) (log : List (Event config Data)) (thread : Nat) (call : Call config Data)
    (pc : Pc config Data) (spares : pc.Spares) :
    (exec memory pc).memory.readIndex = memory.readIndex ∧
      (∀ rdIndex x, (memory.entry rdIndex).seq = config.fullSeq x → (exec memory pc).memory.entry rdIndex = memory.entry rdIndex) ∧
      ∀ event ∈ recorded log thread call (exec memory pc).act, event.isTook = false ∧ event.isRead = false := by
  rcases spares with ⟨d, kind⟩ | rfl | ⟨rdIndex, rfl⟩
  · cases pc with
    | pushLoad value => simp [exec, recorded]
    | pushRead value wrIndex => simp [exec, recorded]
    | pushFill value wrIndex =>
        by_cases hit : memory.entry wrIndex = ⟨0, wrIndex <<< 1⟩
        · rw [exec_fill_hit memory value wrIndex hit]
          refine ⟨rfl, fun rdIndex x full => ?_, by simp [recorded, Act.event, Event.isTook, Event.isRead]⟩
          refine Memory.entry_set_other memory wrIndex rdIndex _ fun same => ?_
          have slots : memory.entry rdIndex = memory.entry wrIndex := by rw [Memory.entry, Memory.entry, same]
          rw [slots, hit, ← config.number_toNat wrIndex, config.number_shift] at full
          exact config.empty_ne_full _ _ full
        · simp [exec_fill_miss memory value wrIndex hit, recorded]
    | pushDone value wrIndex =>
        rw [exec_done]
        split <;> simp [recorded, Act.event, Event.isTook, Event.isRead, Memory.entry]
    | pushAdvance value wrIndex =>
        rw [exec_push_advance]
        split <;> simp [recorded, Act.event, Event.isTook, Event.isRead, Memory.entry]
    | readLoad loop => cases kind
    | readSlot loop rdIndex => cases kind
    | take loop rdIndex e => cases kind
    | takeDone loop rdIndex e => cases kind
    | readAdvance loop rdIndex => cases kind
    | exchange i old new => cases kind
  · simp [exec, recorded]
  · simp [exec, recorded]

theorem spares_step (memory : Memory config Data) (task next : Task config Data) (other : task.call.consumes = false)
    (spares : task.pc.Spares) (continues : (resume task (exec memory task.pc).next).1 = some next) : next.pc.Spares := by
  rcases resume_pc task next _ continues with goes | ⟨load, runs⟩
  · rcases spares with ⟨d, kind⟩ | place | ⟨rdIndex, place⟩
    · exact .inl ⟨d, by rw [exec_goto_kind memory task.pc next.pc goes]; exact kind⟩
    · rw [place] at goes
      exact .inr (.inr ⟨_, (Next.goto.inj goes).symm⟩)
    · rw [place] at goes
      simp only [exec, readSlot, emptySlot] at goes
      split at goes <;> cases goes
  · cases called : task.call <;> rw [called] at other runs <;> first | (cases other; done) | skip
    · exact .inl ⟨_, runs⟩
    · exact .inl ⟨_, runs⟩
    · cases place : next.pc <;> rw [place] at load runs <;> cases load
      · cases runs
      · cases runs
        exact .inr (.inl rfl)

-- What the consumer knows from its load of the index on.
theorem consumer_index (inv : Invariant system) (alone : ConsumerAlone consumer system) (rdIndex : Index config) (x : Nat)
    (position : PopLocal system.log (system.since consumer) rdIndex x) (foreign : Foreign consumer (system.since consumer)) :
    takes (system.since consumer) = 0 ∧ reads system.log = x ∧ system.memory.readIndex = rdIndex ∧
      reads system.log ≤ takes system.log ∧ takes system.log ≤ reads system.log + 1 := by
  obtain ⟨queue, legal, represents⟩ := inv.holds
  obtain ⟨_, first⟩ := contents_counts system.log queue legal
  obtain ⟨took, read⟩ := foreign_pops consumer (system.since consumer) foreign alone.events
  have loaded := position.loaded
  have lag := represents.readLag
  rw [read, Nat.add_zero] at loaded
  exact ⟨took, loaded, by rw [represents.read, loaded, position.index], by omega, by omega⟩

theorem consumer_alone_other (inv : Invariant system) (alone : ConsumerAlone consumer system) (thread : Nat) (task : Task config Data)
    (running : system.tasks thread = some task) (other : thread ≠ consumer) : ConsumerAlone consumer (system.stepTask thread task) := by
  have idle : task.call.consumes = false := by
    cases consumes : task.call.consumes with
    | false => rfl
    | true => exact absurd (alone.calls thread task running consumes) other
  have spares := alone.spares thread task running idle
  obtain ⟨index, entries, quiet⟩ := exec_spares system.memory system.log thread task.call task.pc spares
  obtain ⟨took, read⟩ := quiet_pops _ system.log quiet
  have same (next : Task config Data) (present : (system.stepTask thread task).tasks consumer = some next) :
      system.tasks consumer = some next := by
    rcases step_task_cases system thread consumer task next present with ⟨equal, _⟩ | ⟨_, before⟩
    · exact absurd equal.symm other
    · exact before
  refine ⟨fun another next present => ?_, fun another next present => ?_, fun event member pops => ?_,
    fun next loop rdIndex e present place => ?_, fun next loop rdIndex e present place => ?_, fun eager away => ?_⟩
  · rcases step_task_cases system thread another task next present with ⟨rfl, continues⟩ | ⟨_, before⟩
    · rw [resume_call task next _ continues, idle]
      exact fun impossible => nomatch impossible
    · exact alone.calls another next before
  · rcases step_task_cases system thread another task next present with ⟨rfl, continues⟩ | ⟨_, before⟩
    · exact fun _ => spares_step system.memory task next idle spares continues
    · exact alone.spares another next before
  · simp only [System.stepTask, Ne.symm other, false_and, if_false, List.mem_append] at member
    rcases member with new | old
    · have silent := quiet event new
      rw [silent.1, silent.2] at pops
      simp at pops
    · exact alone.events event old pops
  · have held := alone.holding next loop rdIndex e (same next present) place
    have known := inv.locals consumer next (same next present)
    rw [place] at known
    obtain ⟨x, _, _, full, _⟩ := known
    exact (entries rdIndex x (by rw [held, full])).trans held
  · exact index.trans (alone.done next loop rdIndex e (same next present) place)
  · change reads (_ ++ system.log) = takes (_ ++ system.log)
    rw [took, read]
    refine alone.settled eager fun next loop rdIndex e before => away next loop rdIndex e ?_
    exact (Function.update_of_ne (Ne.symm other) _ _).trans before

-- What one access of a loop of the consumer does.
structure ReadMoves (task : Task config Data) : Prop where
  holding : ∀ loop rdIndex e, (exec system.memory task.pc).next = .goto (.take loop rdIndex e) →
    (exec system.memory task.pc).memory.entry rdIndex = e
  done : ∀ loop rdIndex e, (exec system.memory task.pc).next = .goto (.takeDone loop rdIndex e) →
    (exec system.memory task.pc).memory.readIndex = rdIndex
  settled : config.lazyPop = false → (∀ loop rdIndex e, (exec system.memory task.pc).next ≠ .goto (.takeDone loop rdIndex e)) →
    reads (system.stepTask consumer task).log = takes (system.stepTask consumer task).log
  rank : task.pc.kind = .read .pop → ∀ pc, (exec system.memory task.pc).next = .goto pc →
    config.popRank (system.stepTask consumer task).log pc < config.popRank system.log task.pc

theorem read_load_moves (alone : ConsumerAlone consumer system) (call : Call config Data) (count : Nat) (loop : ReadLoop config Data)
    (running : system.tasks consumer = some ⟨call, count, .readLoad loop⟩) : ReadMoves consumer system ⟨call, count, .readLoad loop⟩ := by
  have away := fun eager => consumer_settled consumer system alone eager _ running (by simp)
  refine ⟨fun other index entry goes => by simp [exec] at goes, fun other index entry goes => by simp [exec] at goes,
    fun eager _ => away eager, fun _ pc goes => ?_⟩
  cases goes
  change config.popRank system.log (.readSlot loop _) < config.popRank system.log (.readLoad loop)
  simp only [Config.popRank]
  split <;> omega

section

variable (inv : Invariant system) (alone : ConsumerAlone consumer system) (call : Call config Data) (count : Nat)
variable (loop : ReadLoop config Data) (rdIndex : Index config) (e : Entry config Data)

include inv alone

theorem read_slot_moves (running : system.tasks consumer = some ⟨call, count, .readSlot loop rdIndex⟩) :
    ReadMoves consumer system ⟨call, count, .readSlot loop rdIndex⟩ := by
  have away := fun eager => consumer_settled consumer system alone eager _ running (by simp)
  obtain ⟨x, position, foreign⟩ := inv.locals consumer _ running
  obtain ⟨few, loaded, _, _, _⟩ := consumer_index consumer system inv alone rdIndex x position foreign
  obtain ⟨queue, legal, represents⟩ := inv.holds
  obtain ⟨_, first⟩ := contents_counts system.log queue legal
  have positive := config.limit_positive
  have fresh := pop_window system.log (system.since consumer) queue rdIndex x legal position (by omega)
  have landed (pc : Pc config Data) (goes : readSlot loop rdIndex (system.memory.entry rdIndex) = .goto pc) :=
    slot_goto_sound system.memory loop queue _ _ x represents (by omega) fresh pc (by rw [← position.index]; exact goes)
  refine ⟨fun other index entry goes => ?_, fun other index entry goes => ?_, fun eager _ => away eager, fun kind pc goes => ?_⟩
  · rcases landed _ goes with load | ⟨advance, _⟩ | ⟨take, _⟩
    · cases load
    · cases advance
    · cases take
      rfl
  · rcases landed _ goes with load | ⟨advance, _⟩ | ⟨take, _⟩
    · cases load
    · cases advance
    · cases take
  · cases kind
    have sound := pop_branch_sound system.memory queue _ _ x represents (by omega) fresh
    rw [← position.index] at sound
    change config.popRank system.log pc < config.popRank system.log (.readSlot .pop rdIndex)
    simp only [exec, readSlot, popSlot] at goes
    split at goes
    · rename_i branch
      rw [branch] at sound
      cases goes
      simp only [Config.popRank]
      rw [if_pos (by have current := sound.1; omega)]
      omega
    · rename_i branch
      rw [branch] at sound
      cases goes
      have behind : x < queue.first := sound
      simp only [Config.popRank]
      rw [if_neg (by omega)]
      omega
    · cases goes
    · rename_i branch
      rw [branch] at sound
      have passed : x < reads system.log := sound
      omega

theorem take_moves (running : system.tasks consumer = some ⟨call, count, .take loop rdIndex e⟩) :
    ReadMoves consumer system ⟨call, count, .take loop rdIndex e⟩ := by
  have hit := alone.holding _ loop rdIndex e running rfl
  obtain ⟨x, position, foreign, _⟩ := inv.locals consumer _ running
  obtain ⟨_, _, index, _, _⟩ := consumer_index consumer system inv alone rdIndex x position foreign
  have effect := exec_take_hit system.memory loop rdIndex e hit
  have outcome (pc : Pc config Data) (goes : (exec system.memory (.take loop rdIndex e)).next = .goto pc) :
      config.lazyPop ≠ true ∧ pc = .takeDone loop rdIndex e := by
    rw [effect] at goes
    simp only at goes
    split at goes
    · exact absurd goes (taken_no_goto loop rdIndex e pc)
    · rename_i eager
      cases goes
      exact ⟨eager, rfl⟩
  refine ⟨fun other later entry goes => ?_, fun other later entry goes => ?_, fun eager away => ?_, fun _ pc goes => ?_⟩
  · cases (outcome _ goes).2
  · cases (outcome _ goes).2
    rw [effect]
    exact index
  · have goes : (exec system.memory (.take loop rdIndex e)).next = .goto (.takeDone loop rdIndex e) := by
      rw [effect]
      exact if_neg (by simp [eager])
    exact absurd goes (away loop rdIndex e)
  · obtain ⟨eager, rfl⟩ := outcome pc goes
    change 1 < 1 + config.popTail
    rw [Config.popTail, if_neg eager]
    decide

theorem take_done_moves (timely : takes (system.since consumer) < config.limit)
    (running : system.tasks consumer = some ⟨call, count, .takeDone loop rdIndex e⟩) :
    ReadMoves consumer system ⟨call, count, .takeDone loop rdIndex e⟩ := by
  have hit := alone.done _ loop rdIndex e running rfl
  obtain ⟨x, position, _, value, _⟩ := inv.locals consumer _ running
  have passed := taken_values_bound system.log x e.data value
  have held := read_advance system.memory system.log (system.since consumer) consumer rdIndex x inv.holds position passed timely hit
  have effect := exec_take_done system.memory loop rdIndex e
  rw [if_pos hit] at effect
  have never (pc : Pc config Data) : (exec system.memory (.takeDone loop rdIndex e)).next ≠ .goto pc := by
    rw [effect]
    exact taken_no_goto loop rdIndex e pc
  refine ⟨fun other later entry goes => absurd goes (never _), fun other later entry goes => absurd goes (never _), fun eager _ => ?_,
    fun _ pc goes => absurd goes (never pc)⟩
  have log : (system.stepTask consumer ⟨call, count, .takeDone loop rdIndex e⟩).log = .read consumer :: system.log := by
    rw [System.stepTask, effect]
    rfl
  obtain ⟨queue, legal, represents⟩ := held
  obtain ⟨_, first⟩ := contents_counts _ queue legal
  obtain ⟨before, legalBefore, representsBefore⟩ := inv.holds
  obtain ⟨_, firstBefore⟩ := contents_counts system.log before legalBefore
  have lag := represents.readLag
  have lagBefore := representsBefore.readLag
  rw [log]
  rw [first, reads_cons, takes_cons] at lag
  rw [reads_cons, takes_cons]
  simp only [Event.isRead, Event.isTook, if_true, Bool.false_eq_true, if_false] at lag ⊢
  omega

theorem read_advance_moves (running : system.tasks consumer = some ⟨call, count, .readAdvance loop rdIndex⟩) :
    ReadMoves consumer system ⟨call, count, .readAdvance loop rdIndex⟩ := by
  have away := fun eager => consumer_settled consumer system alone eager _ running (by simp)
  obtain ⟨x, position, foreign, passed⟩ := inv.locals consumer _ running
  obtain ⟨few, loaded, index, _, near⟩ := consumer_index consumer system inv alone rdIndex x position foreign
  have effect := exec_read_advance system.memory loop rdIndex
  rw [if_pos index] at effect
  have log : (system.stepTask consumer ⟨call, count, .readAdvance loop rdIndex⟩).log = .read consumer :: system.log := by
    rw [System.stepTask, effect]
    rfl
  refine ⟨fun other later entry goes => by simp [effect] at goes, fun other later entry goes => by simp [effect] at goes,
    fun eager _ => ?_, fun _ pc goes => ?_⟩
  · have equal := away eager
    omega
  · rw [effect] at goes
    cases goes
    rw [log]
    simp only [Config.popRank]
    rw [if_pos]
    · omega
    · rw [reads_cons, takes_cons]
      simp only [Event.isRead, Event.isTook, if_true, Bool.false_eq_true, if_false]
      omega

end

theorem consumer_moves (inv : Invariant system) (alone : ConsumerAlone consumer system) (task : Task config Data)
    (loop : ReadLoop config Data) (running : system.tasks consumer = some task) (timely : system.InTime consumer task)
    (kind : task.pc.kind = .read loop) : ReadMoves consumer system task := by
  obtain ⟨call, count, pc⟩ := task
  cases pc with
  | readLoad other => exact read_load_moves consumer system alone call count other running
  | readSlot other rdIndex => exact read_slot_moves consumer system inv alone call count other rdIndex running
  | take other rdIndex e => exact take_moves consumer system inv alone call count other rdIndex e running
  | takeDone other rdIndex e => exact take_done_moves consumer system inv alone call count other rdIndex e (timely rfl).2 running
  | readAdvance other rdIndex => exact read_advance_moves consumer system inv alone call count other rdIndex running
  | pushLoad d => cases kind
  | pushRead d wrIndex => cases kind
  | pushFill d wrIndex => cases kind
  | pushDone d wrIndex => cases kind
  | pushAdvance d wrIndex => cases kind
  | exchange i old new => cases kind

theorem exec_no_pop (memory : Memory config Data) (log : List (Event config Data)) (thread : Nat) (call : Call config Data)
    (pc : Pc config Data) (kind : ∀ loop, pc.kind ≠ .read loop) :
    ∀ event ∈ recorded log thread call (exec memory pc).act, event.isTook = false ∧ event.isRead = false := by
  cases kinds : pc.kind with
  | push d => exact (exec_spares memory log thread call pc (.inl ⟨d, kinds⟩)).2.2
  | read loop => exact absurd kinds (kind loop)
  | exchange i old new =>
      rw [exchange_place pc i old new kinds]
      by_cases hit : memory.entry i = ⟨old, (i <<< 1) ||| 1⟩
      · simp [exec_exchange_hit memory i old new hit, recorded, Act.event, Event.isTook, Event.isRead]
      · simp [exec_exchange_miss memory i old new hit, recorded]

theorem consumer_events (task : Task config Data) (owned : ∀ event ∈ system.since consumer,
      event.isTook = true ∨ event.isRead = true → event.thread = consumer) :
    ∀ event ∈ (system.stepTask consumer task).since consumer, event.isTook = true ∨ event.isRead = true → event.thread = consumer := by
  intro event member pops
  simp only [System.stepTask] at member
  split at member
  · cases member
  · rcases List.mem_append.mp member with new | old
    · cases act : (exec system.memory task.pc).act with
      | none => simp [act, recorded] at new
      | some done =>
          rw [act] at new
          rw [List.mem_singleton.mp new]
          cases done <;> rfl
    · exact owned event old pops

theorem consumer_alone_own (inv : Invariant system) (alone : ConsumerAlone consumer system) (task : Task config Data)
    (running : system.tasks consumer = some task) (timely : system.InTime consumer task) :
    ConsumerAlone consumer (system.stepTask consumer task) := by
  have mine (next : Task config Data) (present : (system.stepTask consumer task).tasks consumer = some next) :
      (resume task (exec system.memory task.pc).next).1 = some next := by
    rcases step_task_cases system consumer consumer task next present with ⟨_, continues⟩ | ⟨different, _⟩
    · exact continues
    · exact absurd rfl different
  have lands (next : Task config Data) (present : (system.stepTask consumer task).tasks consumer = some next) :
      (exec system.memory task.pc).next = .goto next.pc ∨ next.pc.isLoad = true :=
    (resume_pc task next _ (mine next present)).imp_right And.left
  have calls : ∀ thread next, (system.stepTask consumer task).tasks thread = some next → next.call.consumes = true → thread = consumer := by
    intro thread next present consumes
    rcases step_task_cases system consumer thread task next present with ⟨same, _⟩ | ⟨_, before⟩
    · exact same
    · exact alone.calls thread next before consumes
  have spares : ∀ thread next, (system.stepTask consumer task).tasks thread = some next → next.call.consumes = false →
      next.pc.Spares := by
    intro thread next present other
    rcases step_task_cases system consumer thread task next present with ⟨_, continues⟩ | ⟨_, before⟩
    · rw [resume_call task next _ continues] at other
      exact spares_step system.memory task next other (alone.spares consumer task running other) continues
    · exact alone.spares thread next before other
  have events := consumer_events consumer system task alone.events
  by_cases kind : ∃ loop, task.pc.kind = .read loop
  · obtain ⟨loop, kind⟩ := kind
    have moves := consumer_moves consumer system inv alone task loop running timely kind
    refine ⟨calls, spares, events, fun next other rdIndex e present place => ?_, fun next other rdIndex e present place => ?_,
      fun eager away => moves.settled eager fun other rdIndex e goes => ?_⟩
    · rcases lands next present with goes | load
      · rw [place] at goes
        exact moves.holding other rdIndex e goes
      · rw [place] at load
        cases load
    · rcases lands next present with goes | load
      · rw [place] at goes
        exact moves.done other rdIndex e goes
      · rw [place] at load
        cases load
    · have present : (system.stepTask consumer task).tasks consumer = some { task with pc := .takeDone other rdIndex e } := by
        simp only [System.stepTask, Function.update_self, goes, resume]
      exact away _ other rdIndex e present rfl
  · have none : ∀ loop, task.pc.kind ≠ .read loop := fun loop same => kind ⟨loop, same⟩
    obtain ⟨took, read⟩ := quiet_pops _ system.log (exec_no_pop system.memory system.log consumer task.call task.pc none)
    have away (next : Task config Data) (present : (system.stepTask consumer task).tasks consumer = some next) (loop : ReadLoop config Data)
        (read : next.pc.kind = .read loop) : next.pc.isLoad = true := by
      rcases lands next present with goes | load
      · rw [exec_goto_kind system.memory task.pc next.pc goes] at read
        exact absurd read (none loop)
      · exact load
    refine ⟨calls, spares, events, fun next other rdIndex e present place => ?_, fun next other rdIndex e present place => ?_,
      fun eager _ => ?_⟩
    · have load := away next present other (by rw [place]; rfl)
      rw [place] at load
      cases load
    · have load := away next present other (by rw [place]; rfl)
      rw [place] at load
      cases load
    · change reads (_ ++ system.log) = takes (_ ++ system.log)
      rw [took, read]
      refine consumer_settled consumer system alone eager task running fun other rdIndex e place => none other ?_
      rw [place]
      rfl

theorem consumer_alone_reached (reached : System.Reached (OneConsumer consumer) system) :
    Invariant system ∧ ConsumerAlone consumer system := by
  refine reached_induction (OneConsumer consumer) (ConsumerAlone consumer) (consumer_alone_initial consumer) ?_ ?_ system reached
  · intro before thread call _ _ alone idle own
    exact consumer_alone_call consumer before alone thread call idle own
  · intro before thread task _ inv alone _ running timely
    by_cases same : thread = consumer
    · subst same
      exact consumer_alone_own thread before inv alone task running timely
    · exact consumer_alone_other consumer before inv alone thread task running same

theorem pop_kind (inv : Invariant system) (thread : Nat) (task : Task config Data) (running : system.tasks thread = some task)
    (isPop : task.call.isPop = true) : task.pc.kind = .read .pop := by
  have runs := inv.runs thread task running
  cases called : task.call <;> rw [called] at isPop runs <;> first | (cases isPop; done) | exact runs

theorem pop_rank_bound (inv : Invariant system) (alone : ConsumerAlone consumer system) (task : Task config Data)
    (running : system.tasks consumer = some task) (kind : task.pc.kind = .read .pop) :
    0 < config.popRank system.log task.pc ∧ config.popRank system.log task.pc ≤ config.popBound := by
  have settled := fun eager => consumer_settled consumer system alone eager task running
  have tail : config.lazyPop = true ∧ config.popTail = 0 ∧ config.popBound = 6 ∨
      config.lazyPop = false ∧ config.popTail = 1 ∧ config.popBound = 4 := by
    cases lazy : config.lazyPop
    · exact .inr ⟨rfl, by simp [Config.popTail, lazy], by simp [Config.popBound, lazy]⟩
    · exact .inl ⟨rfl, by simp [Config.popTail, lazy], by simp [Config.popBound, lazy]⟩
  have known := inv.locals consumer task running
  obtain ⟨call, count, pc⟩ := task
  cases pc with
  | readLoad loop =>
      simp only [Config.popRank]
      rcases tail with ⟨_, none, bound⟩ | ⟨eager, one, bound⟩
      · split <;> omega
      · rw [if_pos (settled eager (by simp))]
        omega
  | readSlot loop rdIndex =>
      simp only [Config.popRank]
      rcases tail with ⟨_, none, bound⟩ | ⟨eager, one, bound⟩
      · split <;> omega
      · rw [if_pos (settled eager (by simp))]
        omega
  | take loop rdIndex e =>
      simp only [Config.popRank]
      omega
  | takeDone loop rdIndex e =>
      simp only [Config.popRank]
      omega
  | readAdvance loop rdIndex =>
      simp only [Config.popRank]
      rcases tail with ⟨_, none, bound⟩ | ⟨eager, one, bound⟩
      · omega
      · obtain ⟨x, position, foreign, passed⟩ := known
        have loaded := (consumer_index consumer system inv alone rdIndex x position foreign).2.1
        have equal := settled eager (by simp)
        omega
  | _ => cases kind

def PopLeft (rank : Nat) : Prop :=
  ∀ task, system.tasks consumer = some task → task.call.isPop = true ∧ config.popRank system.log task.pc ≤ rank

theorem pop_left_other (alone : ConsumerAlone consumer system) (thread : Nat) (task : Task config Data)
    (running : system.tasks thread = some task) (other : thread ≠ consumer) (rank : Nat) (left : PopLeft consumer system rank) :
    PopLeft consumer (system.stepTask thread task) rank := by
  have idle : task.call.consumes = false := by
    cases consumes : task.call.consumes with
    | false => rfl
    | true => exact absurd (alone.calls thread task running consumes) other
  obtain ⟨_, _, quiet⟩ := exec_spares system.memory system.log thread task.call task.pc (alone.spares thread task running idle)
  obtain ⟨took, read⟩ := quiet_pops _ system.log quiet
  have same (pc : Pc config Data) : config.popRank (system.stepTask thread task).log pc = config.popRank system.log pc := by
    change config.popRank (_ ++ system.log) pc = _
    cases pc <;> simp only [Config.popRank, took, read]
  intro next present
  rcases step_task_cases system thread consumer task next present with ⟨equal, _⟩ | ⟨_, before⟩
  · exact absurd equal.symm other
  · rw [same]
    exact left next before

theorem pop_left_own (inv : Invariant system) (alone : ConsumerAlone consumer system) (task : Task config Data)
    (running : system.tasks consumer = some task) (timely : system.InTime consumer task) (isPop : task.call.isPop = true) :
    PopLeft consumer (system.stepTask consumer task) (config.popRank system.log task.pc - 1) := by
  have kind := pop_kind system inv consumer task running isPop
  have moves := consumer_moves consumer system inv alone task .pop running timely kind
  intro next present
  rcases step_task_cases system consumer consumer task next present with ⟨_, continues⟩ | ⟨different, _⟩
  · refine ⟨by rw [resume_call task next _ continues]; exact isPop, ?_⟩
    have landed (after : Pc config Data) (goes : (exec system.memory task.pc).next = .goto after) :
        config.popRank (system.stepTask consumer task).log next.pc ≤ config.popRank system.log task.pc - 1 := by
      have less := moves.rank kind after goes
      rw [goes] at continues
      cases continues
      simp only at less ⊢
      omega
    rcases read_exits system.memory .pop task.pc kind _ rfl with ⟨after, goes⟩ | ⟨rdIndex, _, looked⟩ | ⟨rdIndex, e, took, _⟩
    · exact landed after goes
    · rcases pop_slot_cases rdIndex (system.memory.entry rdIndex) with ⟨after, goes⟩ | none
      · exact landed after (looked.trans goes)
      · rw [looked, readSlot, none, pop_returns task _ isPop] at continues
        cases continues
    · have popped : taken .pop rdIndex e = .popped (some (rdIndex, e.data)) := rfl
      rw [took, popped, pop_returns task _ isPop] at continues
      cases continues
  · exact absurd rfl different

theorem pop_left_none (reached : System.Reached (OneConsumer consumer) system) (left : PopLeft consumer system 0) :
    system.tasks consumer = none := by
  obtain ⟨inv, alone⟩ := consumer_alone_reached consumer system reached
  cases present : system.tasks consumer with
  | none => rfl
  | some task =>
      obtain ⟨isPop, none⟩ := left task present
      have positive := (pop_rank_bound consumer system inv alone task present (pop_kind system inv consumer task present isPop)).1
      omega

theorem pop_left_others (reached : System.Reached (OneConsumer consumer) system) (action : Action config Data) (next : System config Data)
    (rank : Nat) (left : PopLeft consumer system rank) (busy : system.tasks consumer ≠ none)
    (moved : system.next action = some next) (other : action.isStepOf consumer = false) : PopLeft consumer next rank := by
  obtain ⟨inv, alone⟩ := consumer_alone_reached consumer system reached
  cases action with
  | call thread call =>
      simp only [System.next] at moved
      split at moved
      · rename_i idle
        cases moved
        intro task present
        rcases start_call_cases system thread consumer call task present with ⟨same, _⟩ | ⟨_, before⟩
        · exact absurd (by rw [same]; exact Option.isNone_iff_eq_none.mp idle) busy
        · exact left task before
      · cases moved
  | step thread =>
      obtain ⟨task, running, result⟩ := Option.map_eq_some_iff.mp moved
      subst result
      exact pop_left_other consumer system alone thread task running (by simpa [Action.isStepOf] using other) rank left

theorem pop_left_owned (reached : System.Reached (OneConsumer consumer) system) (action : Action config Data) (next : System config Data)
    (rank : Nat) (left : PopLeft consumer system (rank + 1)) (timely : system.Timely action)
    (moved : system.next action = some next) (own : action.isStepOf consumer = true) : PopLeft consumer next rank := by
  obtain ⟨inv, alone⟩ := consumer_alone_reached consumer system reached
  cases action with
  | call thread call => cases own
  | step thread =>
      obtain rfl : thread = consumer := by simpa [Action.isStepOf] using own
      obtain ⟨task, running, result⟩ := Option.map_eq_some_iff.mp moved
      subst result
      obtain ⟨isPop, fits⟩ := left task running
      have less := pop_left_own thread system inv alone task running (timely task running) isPop
      intro later present
      obtain ⟨pops, bound⟩ := less later present
      exact ⟨pops, by omega⟩

-- While one thread alone takes, each of its pops returns after a bounded number of its own
-- accesses, whatever the producers do meanwhile.
theorem pop_wait_free (reached : System.Reached (OneConsumer consumer) system) (task : Task config Data)
    (running : system.tasks consumer = some task) (isPop : task.call.isPop = true) (actions : List (Action config Data))
    (final : System config Data)
    (path : Transition.Path (queueMachine config Data) (System.Allowed (OneConsumer consumer)) system actions final)
    (steps : config.popBound ≤ actions.countP (Action.isStepOf consumer)) :
    ∃ earlier later middle, actions = earlier ++ later ∧
      Transition.Path (queueMachine config Data) (System.Allowed (OneConsumer consumer)) system earlier middle ∧
      middle.tasks consumer = none ∧ earlier.countP (Action.isStepOf consumer) ≤ config.popBound := by
  obtain ⟨inv, alone⟩ := consumer_alone_reached consumer system reached
  have bound := (pop_rank_bound consumer system inv alone task running (pop_kind system inv consumer task running isPop)).2
  have start : PopLeft consumer system config.popBound := fun other present => by
    rw [running] at present
    cases present
    exact ⟨isPop, bound⟩
  obtain ⟨earlier, later, middle, split, early, ended, count⟩ := Transition.path_ends (queueMachine config Data)
    (System.Allowed (OneConsumer consumer)) (Action.isStepOf consumer)
    (fun state rank => System.Reached (OneConsumer consumer) state ∧ PopLeft consumer state rank)
    (fun state => state.tasks consumer = none)
    (fun state action next rank known busy allowed moved mine =>
      ⟨Transition.reachable_step _ _ state next action known.1 allowed moved,
        pop_left_others consumer state known.1 action next rank known.2 busy moved mine⟩)
    (fun state action next rank known _ allowed moved mine =>
      ⟨Transition.reachable_step _ _ state next action known.1 allowed moved,
        pop_left_owned consumer state known.1 action next rank known.2 allowed.1 moved mine⟩)
    (fun state known => pop_left_none consumer state known.1 known.2) system final actions config.popBound path ⟨reached, start⟩ steps
  exact ⟨earlier, later, middle, split, early, ended, count⟩

end

-- A pop among the pushes of two producers, all lazy, and a second pop that finds the read index
-- left behind.
def lazySlots : Config := { smallQueue with lazyPush := true, lazyPop := true }

def popAmongPushes : List (Action lazySlots Nat) := [.call 0 (.push 5), .step 0, .step 0, .step 0, .call 2 .pop, .step 2]

theorem pop_among_pushes_runs : (System.checked (OneConsumer 2) popAmongPushes).isSome = true := by decide +kernel

def pushesGoOn : List (Action lazySlots Nat) :=
  [.call 1 (.push 6), .step 1, .step 2, .step 1, .step 1, .step 2, .call 2 .pop, .call 0 (.push 7), .step 2, .step 2, .step 0, .step 2,
    .step 2]

theorem pushes_go_on_runs : (Transition.checkedRun (queueMachine lazySlots Nat) (System.Allowed (OneConsumer 2)) pushesGoOn
    ((System.checked (OneConsumer 2) popAmongPushes).get pop_among_pushes_runs)).isSome = true := by decide +kernel

theorem pop_wait_free_lazy :
    let system := (System.checked (OneConsumer 2) popAmongPushes).get pop_among_pushes_runs
    ∃ earlier later middle, pushesGoOn = earlier ++ later ∧
      Transition.Path (queueMachine lazySlots Nat) (System.Allowed (OneConsumer 2)) system earlier middle ∧
      middle.tasks 2 = none ∧ earlier.countP (Action.isStepOf 2) ≤ 6 := by
  intro system
  have path := Transition.checked_run_path (queueMachine lazySlots Nat) (System.Allowed (OneConsumer 2)) pushesGoOn system _
    (Option.some_get pushes_go_on_runs).symm
  exact pop_wait_free 2 system (reached_checked (OneConsumer 2) popAmongPushes pop_among_pushes_runs) ⟨.pop, 0, .readSlot .pop 0⟩ rfl rfl
    pushesGoOn _ path (by decide)

end LockfreeQueue
