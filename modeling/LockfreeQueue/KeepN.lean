import LockfreeQueue.PopIf

set_option autoImplicit false

namespace LockfreeQueue

section

variable {config : Config} {Data : Type}

-- The schedules of push_keep_n producers and pop consumers.
def KeepOrPop (_ : System config Data) : Action config Data → Prop
  | .call _ call => call.discards = true ∨ call.isPop = true
  | .step _ => True

instance (system : System config Data) (action : Action config Data) : Decidable (KeepOrPop system action) :=
  match action with
  | .call _ _ => inferInstanceAs (Decidable (_ ∨ _))
  | .step _ => isTrue trivial

def Event.removal : Event config Data → Option Bool
  | .took _ _ lost => some lost
  | _ => none

-- The successful pops in order: whether each one was lost inside a push_keep_n.
def removals (log : List (Event config Data)) : List Bool := log.reverse.filterMap Event.removal

def System.Quiet (system : System config Data) : Prop := ∀ thread, system.tasks thread = none

-- Each of the last `size` stored elements is still in the queue or went to a caller of pop.
def Kept (log : List (Event config Data)) : Prop :=
  ∀ k < stores log, stores log ≤ k + config.size → takes log ≤ k ∨ (removals log)[k]? = some false

instance (log : List (Event config Data)) : Decidable (Kept log) :=
  inferInstanceAs (Decidable (∀ k < stores log, stores log ≤ k + config.size → takes log ≤ k ∨ (removals log)[k]? = some false))

def Act.isTook : Act config Data → Bool
  | .took _ => true
  | _ => false

theorem removals_cons (event : Event config Data) (log : List (Event config Data)) :
    removals (event :: log) = removals log ++ event.removal.toList := by
  rw [removals, removals, List.reverse_cons, List.filterMap_append]
  cases removed : event.removal <;> simp [removed]

theorem removals_other (event : Event config Data) (log : List (Event config Data)) (other : event.removal = none) :
    removals (event :: log) = removals log := by
  rw [removals_cons, other, Option.toList_none, List.append_nil]

theorem removals_length (log : List (Event config Data)) : (removals log).length = takes log := by
  induction log with
  | nil => rfl
  | cons event log ih =>
      rw [removals_cons, takes_cons, List.length_append, ih]
      cases event <;> rfl

theorem removals_took (thread : Nat) (v : Data) (lost flag : Bool) (log : List (Event config Data)) (k : Nat)
    (known : (removals (.took thread v lost :: log))[k]? = some flag) :
    (removals log)[k]? = some flag ∨ (k = takes log ∧ lost = flag) := by
  rw [removals_cons, List.getElem?_append] at known
  split at known
  · exact .inl known
  · rename_i late
    rw [removals_length] at late known
    have bound := (List.getElem?_eq_some_iff.mp known).1
    simp only [Event.removal, Option.toList_some, List.length_singleton] at bound
    have last : k = takes log := by omega
    rw [last, Nat.sub_self] at known
    exact .inr ⟨last, Option.some.inj known⟩

theorem window_append (events log seen : List (Event config Data)) (n : Nat)
    (known : stores log + takes seen = takes log + n + stores seen) :
    stores (events ++ log) + takes (events ++ seen) = takes (events ++ log) + n + stores (events ++ seen) := by
  rw [stores, stores, takes, takes, List.countP_append, List.countP_append, List.countP_append, List.countP_append]
  rw [stores, stores, takes, takes] at known
  omega

theorem keep_kind (call : Call config Data) (kind : Kind config Data) (discards : call.discards = true) (runs : call.Runs kind) :
    kind = .read .pop ∨ ∃ d, kind = .push d := by
  cases call with
  | pushKeepN d => exact runs.elim (fun push => .inr ⟨d, push⟩) .inl
  | pushKeepNIndex d => exact runs.elim (fun push => .inr ⟨d, push⟩) .inl
  | _ => cases discards

theorem keep_resume (task : Task config Data) (discards : task.call.discards = true) :
    (∃ d, (resume task (.popped none)).1 = some { task with pc := .pushLoad d } ∧
      ∀ pair, (resume task (.popped (some pair))).1 = some { task with pc := .pushLoad d }) ∧
    (resume task (.pushed none)).1 = some { task with pc := .readLoad .pop } ∧
    ∀ wrIndex, (resume task (.pushed (some wrIndex))).1 = none := by
  cases call : task.call with
  | pushKeepN d => exact ⟨⟨d, by simp [resume, call], by simp [resume, call]⟩, by simp [resume, call], by simp [resume, call]⟩
  | pushKeepNIndex d => exact ⟨⟨d, by simp [resume, call], by simp [resume, call]⟩, by simp [resume, call], by simp [resume, call]⟩
  | _ =>
      rw [call] at discards
      cases discards

theorem keep_start (call : Call config Data) (discards : call.discards = true) : ∃ d, call.start.pc = .pushLoad d := by
  cases call with
  | pushKeepN d => exact ⟨d, rfl⟩
  | pushKeepNIndex d => exact ⟨d, rfl⟩
  | _ => cases discards

def Pc.storing : Pc config Data → Bool
  | .pushDone _ _ => true
  | _ => false

def Pc.taking : Pc config Data → Bool
  | .takeDone _ _ _ => true
  | _ => false

-- What a lost element costs: it was lost from a full queue, and until its place among the last
-- stored elements is taken, a push_keep_n that will take it is still running.
def Losses (system : System config Data) : Prop :=
  ∀ k, (removals system.log)[k]? = some true →
    k + config.size ≤ stores system.log ∧
      (k + config.size = stores system.log →
        ∃ thread task, system.tasks thread = some task ∧ task.call.discards = true ∧ task.pc.storing = false)

theorem losses_call (system : System config Data) (thread : Nat) (call : Call config Data) (losses : Losses system)
    (idle : system.tasks thread = none) : Losses (system.startCall thread call) := by
  intro k lost
  obtain ⟨bound, owner⟩ := losses k lost
  refine ⟨bound, fun last => ?_⟩
  obtain ⟨other, task, running, discards, waiting⟩ := owner last
  have different : other ≠ thread := by
    intro same
    rw [same, idle] at running
    cases running
  exact ⟨other, task, by simpa [System.startCall, different] using running, discards, waiting⟩

variable [DecidableEq Data] [Zero Data]

def System.Discards (system : System config Data) (thread : Nat) (task : Task config Data) : Prop :=
  system.tasks thread = some task ∧ task.call.discards = true ∧ (exec system.memory task.pc).act.any Act.isTook = true

-- A push_keep_n discards only while the queue, which its push has seen full, has lost no more
-- elements than it got since.
def KeepUndrained (system : System config Data) : Action config Data → Prop
  | .call _ call => call.discards = true ∨ call.isPop = true
  | .step thread => ∀ task ∈ system.tasks thread, task.call.discards = true →
      (exec system.memory task.pc).act.any Act.isTook = true → takes (system.seen thread) ≤ stores (system.seen thread)

instance (system : System config Data) (action : Action config Data) : Decidable (KeepUndrained system action) :=
  match action with
  | .call _ _ => inferInstanceAs (Decidable (_ ∨ _))
  | .step thread => inferInstanceAs (Decidable (∀ task ∈ system.tasks thread, task.call.discards = true →
      (exec system.memory task.pc).act.any Act.isTook = true → takes (system.seen thread) ≤ stores (system.seen thread)))

def SawFull (system : System config Data) : Prop :=
  ∀ thread task, system.tasks thread = some task → task.call.discards = true → task.pc.kind = .read .pop →
    task.pc.taking = false →
    stores system.log + takes (system.seen thread) = takes system.log + config.size + stores (system.seen thread)

theorem keep_turn (system : System config Data) (thread : Nat) (task next : Task config Data) (inv : Invariant system)
    (running : system.tasks thread = some task) (timely : system.InTime thread task) (discards : task.call.discards = true)
    (continues : (resume task (exec system.memory task.pc).next).1 = some next) (kind : next.pc.kind = .read .pop) :
    (task.pc.kind = .read .pop ∧ task.pc.taking = false) ∨
      (task.pc.readsSeq = true ∧ (exec system.memory task.pc).act = none ∧ stores system.log = takes system.log + config.size) := by
  obtain ⟨⟨d, empty, popped⟩, refused, pushed⟩ := keep_resume task discards
  rcases keep_kind task.call task.pc.kind discards (inv.runs thread task running) with read | ⟨value, push⟩
  · left
    refine ⟨read, ?_⟩
    by_contra taking
    cases place : task.pc with
    | takeDone loop rdIndex e =>
        have same : loop = .pop := by rw [place] at read; cases read; rfl
        rw [place, exec_take_done, same] at continues
        have outcome : (resume task (.popped (some (rdIndex, e.data)))).1 = some next := by
          split at continues <;> exact continues
        rw [popped] at outcome
        cases outcome
        cases kind
    | _ => rw [place] at taking; exact taking rfl
  · right
    obtain ⟨reads, full⟩ : task.pc.readsSeq = true ∧ (exec system.memory task.pc).next = .pushed none := by
      rcases push_exits system.memory value task.pc push _ rfl with ⟨after, goes⟩ | ⟨full, wrIndex, place, _⟩ | ⟨wrIndex, stored, _⟩
      · rw [goes] at continues
        cases continues
        rw [exec_goto_kind system.memory task.pc after goes, push] at kind
        cases kind
      · exact ⟨by rw [place]; rfl, full⟩
      · rw [stored, pushed] at continues
        cases continues
    refine ⟨reads, ?_, (push_false_full system thread task inv running timely value push full).2⟩
    cases place : task.pc with
    | pushRead d wrIndex => rfl
    | _ => rw [place] at reads; cases reads

theorem saw_full_reached (promise : System config Data → Action config Data → Prop) (system : System config Data)
    (reached : System.Reached promise system) : SawFull system := by
  refine (reached_induction promise SawFull ?_ ?_ ?_ system reached).2
  · intro thread task running
    cases running
  · intro before thread call _ _ saw _ _ other task running discards kind looking
    rcases start_call_cases before thread other call task running with ⟨_, rfl⟩ | ⟨_, earlier⟩
    · obtain ⟨d, place⟩ := keep_start call discards
      rw [place] at kind
      cases kind
    · exact saw other task earlier discards kind looking
  · intro before thread task _ inv saw _ running timely other next present discards kind looking
    simp only [System.stepTask]
    rcases step_task_cases before thread other task next present with ⟨rfl, continues⟩ | ⟨different, earlier⟩
    · rw [resume_call task next _ continues] at discards
      rcases keep_turn before other task next inv running timely discards continues kind with ⟨read, fresh⟩ | ⟨reads, silent, full⟩
      · have stays : ¬ (other = other ∧ task.pc.readsSeq = true) := by
          rintro ⟨_, reads⟩
          cases place : task.pc with
          | pushRead d wrIndex => rw [place] at read; cases read
          | _ => rw [place] at reads; cases reads
        rw [if_neg stays]
        exact window_append _ before.log (before.seen other) _ (saw other task running discards read fresh)
      · rw [if_pos ⟨rfl, reads⟩, silent]
        exact full
    · rw [if_neg (fun same => different same.1)]
      exact window_append _ before.log (before.seen other) _ (saw other next earlier discards kind looking)

theorem took_place (memory : Memory config Data) (pc : Pc config Data) (took : (exec memory pc).act.any Act.isTook = true) :
    ∃ loop rdIndex e, pc = .take loop rdIndex e := by
  cases pc with
  | take loop rdIndex e => exact ⟨loop, rdIndex, e, rfl⟩
  | pushFill d wrIndex => simp only [exec] at took; split at took <;> cases took
  | pushDone d wrIndex => rw [exec_done] at took; split at took <;> cases took
  | pushAdvance d wrIndex => rw [exec_push_advance] at took; split at took <;> cases took
  | takeDone loop rdIndex e => rw [exec_take_done] at took; split at took <;> cases took
  | readAdvance loop rdIndex => rw [exec_read_advance] at took; split at took <;> cases took
  | exchange i old new => simp only [exec] at took; split at took <;> cases took
  | _ => cases took

-- A discarding pop finds the queue full exactly when nothing more left it than came in since the
-- push saw it full.
theorem discard_full (promise : System config Data → Action config Data → Prop) (system : System config Data)
    (reached : System.Reached promise system) (thread : Nat) (task : Task config Data) (discards : system.Discards thread task) :
    stores system.log = takes system.log + config.size ↔ takes (system.seen thread) ≤ stores (system.seen thread) := by
  obtain ⟨running, keeps, took⟩ := discards
  have inv := invariant_reached promise system reached
  obtain ⟨queue, legal, _⟩ := inv.holds
  obtain ⟨total, first⟩ := contents_counts system.log queue legal
  have bound := Fifo.total_bound queue
  obtain ⟨loop, rdIndex, e, place⟩ := took_place system.memory task.pc took
  have kind : task.pc.kind = .read .pop := by
    rcases keep_kind task.call task.pc.kind keeps (inv.runs thread task running) with read | ⟨d, push⟩
    · exact read
    · rw [place] at push
      cases push
  have window := saw_full_reached promise system reached thread task running keeps kind (by rw [place]; rfl)
  omega

theorem goto_storing (memory : Memory config Data) (pc after : Pc config Data) (goes : (exec memory pc).next = .goto after)
    (storing : after.storing = true) : ∃ d, (exec memory pc).act = some (.stored d) := by
  have kind := exec_goto_kind memory pc after goes
  cases after with
  | pushDone d wrIndex =>
      cases pc with
      | pushLoad value => cases goes
      | pushRead value index =>
          simp only [exec, pushSlot] at goes
          split at goes <;> cases goes
      | pushFill value index =>
          by_cases hit : memory.entry index = ⟨0, index <<< 1⟩
          · exact ⟨value, by rw [exec_fill_hit memory value index hit]⟩
          · rw [exec_fill_miss memory value index hit] at goes
            cases goes
      | pushDone value index => cases goes
      | pushAdvance value index => cases goes
      | _ => cases kind
  | _ => cases storing

theorem keep_stays (memory : Memory config Data) (task : Task config Data) (runs : task.call.Runs task.pc.kind)
    (discards : task.call.discards = true) (waiting : task.pc.storing = false)
    (quiet : ∀ d, (exec memory task.pc).act ≠ some (.stored d)) :
    ∃ next, (resume task (exec memory task.pc).next).1 = some next ∧ next.call.discards = true ∧ next.pc.storing = false := by
  obtain ⟨⟨d, empty, popped⟩, refused, _⟩ := keep_resume task discards
  have goes : ∀ after, (exec memory task.pc).next = .goto after →
      ∃ next, (resume task (exec memory task.pc).next).1 = some next ∧ next.call.discards = true ∧ next.pc.storing = false := by
    intro after goes
    refine ⟨{ task with pc := after }, by rw [goes, resume], discards, ?_⟩
    by_contra storing
    obtain ⟨value, stored⟩ := goto_storing memory task.pc after goes (by simpa using storing)
    exact quiet value stored
  rcases keep_kind task.call task.pc.kind discards runs with read | ⟨value, push⟩
  · rcases read_exits memory .pop task.pc read _ rfl with ⟨after, same⟩ | ⟨rdIndex, _, looked⟩ | ⟨rdIndex, e, took, _⟩
    · exact goes after same
    · rcases pop_slot_cases rdIndex (memory.entry rdIndex) with ⟨after, same⟩ | none
      · exact goes after (looked.trans same)
      · exact ⟨{ task with pc := .pushLoad d }, by rw [looked.trans none]; exact empty, discards, rfl⟩
    · exact ⟨{ task with pc := .pushLoad d }, by rw [took]; exact popped (rdIndex, e.data), discards, rfl⟩
  · rcases push_exits memory value task.pc push _ rfl with ⟨after, same⟩ | ⟨full, _⟩ | ⟨wrIndex, _, exit⟩
    · exact goes after same
    · exact ⟨{ task with pc := .readLoad .pop }, by rw [full, refused], discards, rfl⟩
    · rcases exit with ⟨place, hit⟩ | place
      · rw [place, exec_fill_hit memory value wrIndex hit] at quiet
        exact absurd rfl (quiet value)
      · rw [place] at waiting
        cases waiting

-- The thread that owes an element keeps owing it, unless the step stores one.
theorem owed_step (system : System config Data) (thread : Nat) (task : Task config Data) (inv : Invariant system)
    (running : system.tasks thread = some task) (quiet : ∀ d, (exec system.memory task.pc).act ≠ some (.stored d))
    (owed : ∃ other owner, system.tasks other = some owner ∧ owner.call.discards = true ∧ owner.pc.storing = false) :
    ∃ other owner, (system.stepTask thread task).tasks other = some owner ∧ owner.call.discards = true ∧ owner.pc.storing = false := by
  obtain ⟨other, owner, held, discards, waiting⟩ := owed
  by_cases same : other = thread
  · subst same
    cases Option.some.inj (running.symm.trans held)
    obtain ⟨next, continues, keeps, left⟩ := keep_stays system.memory task (inv.runs other task running) discards waiting quiet
    exact ⟨other, next, by simpa [System.stepTask] using continues, keeps, left⟩
  · exact ⟨other, owner, by simpa [System.stepTask, same] using held, discards, waiting⟩

-- The step of a thread, when its discards meet a full queue.
theorem losses_step (system : System config Data) (thread : Nat) (task : Task config Data) (inv : Invariant system) (losses : Losses system)
    (running : system.tasks thread = some task)
    (full : task.call.discards = true → (exec system.memory task.pc).act.any Act.isTook = true →
      stores system.log = takes system.log + config.size) : Losses (system.stepTask thread task) := by
  intro k lost
  have unchanged (event : Event config Data) (silent : event.removal = none) (plain : event.isStored = false)
      (quiet : ∀ d, (exec system.memory task.pc).act ≠ some (.stored d)) (known : (removals (event :: system.log))[k]? = some true) :
      k + config.size ≤ stores (event :: system.log) ∧ (k + config.size = stores (event :: system.log) →
        ∃ other owner, (system.stepTask thread task).tasks other = some owner ∧
          owner.call.discards = true ∧ owner.pc.storing = false) := by
    rw [removals_other event system.log silent] at known
    rw [stores_cons, plain]
    obtain ⟨bound, owner⟩ := losses k known
    exact ⟨bound, fun last => owed_step system thread task inv running quiet (owner last)⟩
  have log : (system.stepTask thread task).log =
      recorded system.log thread task.call (exec system.memory task.pc).act ++ system.log := rfl
  rw [log] at lost ⊢
  cases acted : (exec system.memory task.pc).act with
  | none =>
      rw [acted] at lost
      obtain ⟨bound, owner⟩ := losses k lost
      exact ⟨bound, fun last => owed_step system thread task inv running (by simp [acted]) (owner last)⟩
  | some act =>
      rw [acted, recorded_some] at lost
      rw [recorded_some]
      cases act with
      | stored d =>
          rw [Act.event] at lost ⊢
          rw [removals_other _ _ rfl] at lost
          obtain ⟨bound, _⟩ := losses k lost
          have grown : stores (.stored thread d :: system.log) = stores system.log + 1 := stores_cons _ _
          exact ⟨by omega, fun last => by omega⟩
      | took v =>
          rw [Act.event] at lost ⊢
          have same : stores (.took thread v task.call.discards :: system.log) = stores system.log := stores_cons _ _
          rw [same]
          rcases removals_took thread v _ _ system.log k lost with earlier | ⟨last, discards⟩
          · obtain ⟨bound, owner⟩ := losses k earlier
            exact ⟨bound, fun last => owed_step system thread task inv running (by simp [acted]) (owner last)⟩
          · have many := full discards (by rw [acted]; rfl)
            obtain ⟨loop, rdIndex, e, place⟩ := took_place system.memory task.pc (by rw [acted]; rfl)
            have waiting : task.pc.storing = false := by rw [place]; rfl
            exact ⟨by omega, fun _ => owed_step system thread task inv running (by simp [acted]) ⟨thread, task, running, discards, waiting⟩⟩
      | swapped i old new => exact unchanged _ rfl rfl (by simp [acted]) lost
      | wrote => exact unchanged _ rfl rfl (by simp [acted]) lost
      | read => exact unchanged _ rfl rfl (by simp [acted]) lost

theorem losses_reached (system : System config Data) (reached : System.Reached KeepUndrained system) : Losses system := by
  refine (reached_induction KeepUndrained Losses ?_ ?_ ?_ system reached).2
  · intro k lost
    simp [System.initial, removals] at lost
  · intro before thread call _ _ losses idle _
    exact losses_call before thread call losses idle
  · intro before thread task earlier inv losses allowed running _
    refine losses_step before thread task inv losses running ?_
    intro discards took
    exact (discard_full KeepUndrained before earlier thread task ⟨running, discards, took⟩).mpr (allowed task running discards took)

theorem kept_quiet (system : System config Data) (reached : System.Reached KeepUndrained system) (quiet : system.Quiet) :
    Kept system.log := by
  intro k below recent
  rcases Nat.lt_or_ge k (takes system.log) with gone | held
  · right
    rw [← removals_length] at gone
    cases flag : (removals system.log)[k] with
    | false => rw [List.getElem?_eq_getElem gone, flag]
    | true =>
        have lost : (removals system.log)[k]? = some true := by rw [List.getElem?_eq_getElem gone, flag]
        obtain ⟨bound, owner⟩ := losses_reached system reached k lost
        obtain ⟨thread, task, running, _⟩ := owner (by omega)
        rw [quiet thread] at running
        cases running
  · exact .inl held

end

section

variable {config : Config} {Data : Type} [DecidableEq Data] [Zero Data]

-- A discard hits a full queue exactly when the queue was not drained since the push saw it full,
-- and where that holds of every discard, the last elements are kept.
theorem keep_n_undrained :
    (∀ system : System config Data, System.Reached KeepOrPop system → ∀ thread task, system.Discards thread task →
      (stores system.log = takes system.log + config.size ↔ takes (system.seen thread) ≤ stores (system.seen thread))) ∧
    ∀ system : System config Data, System.Reached KeepUndrained system → system.Quiet → Kept system.log :=
  ⟨fun system reached thread task discards => discard_full KeepOrPop system reached thread task discards, kept_quiet⟩

end

-- Thread 0 fills both slots and discards the oldest element to store a third.
def keepThree : List (Action smallQueue Nat) :=
  [.call 0 (.pushKeepN 1), .step 0, .step 0, .step 0, .step 0, .call 0 (.pushKeepN 2), .step 0, .step 0, .step 0, .step 0,
    .call 0 (.pushKeepN 3), .step 0, .step 0, .step 0, .step 0]

def keepThreeDone : List (Action smallQueue Nat) :=
  keepThree ++ [.step 0, .step 0, .step 0, .step 0, .step 0, .step 0]

theorem keep_three_runs : (System.checked KeepOrPop keepThree).isSome = true := by decide +kernel

theorem keep_three_done_runs : (System.checked KeepUndrained keepThreeDone).isSome = true := by decide +kernel

theorem keep_n_undrained_three :
    let full := (System.checked KeepOrPop keepThree).get keep_three_runs
    let system := (System.checked KeepUndrained keepThreeDone).get keep_three_done_runs
    stores full.log = takes full.log + 2 ∧ stores system.log = 3 ∧ takes system.log = 1 ∧ Kept system.log := by
  intro full system
  have kept := @keep_n_undrained smallQueue Nat _ _
  have discards : full.Discards 0 ⟨.pushKeepN 3, 0, .take .pop 0 ⟨1, 1⟩⟩ := ⟨rfl, rfl, by decide +kernel⟩
  have quiet : system.Quiet := by
    intro thread
    cases thread <;> rfl
  exact ⟨(kept.1 full (reached_checked KeepOrPop keepThree keep_three_runs) 0 _ discards).mpr (by decide +kernel),
    by decide +kernel, by decide +kernel,
    kept.2 system (reached_checked KeepUndrained keepThreeDone keep_three_done_runs) quiet⟩

-- Thread 0 sees both slots full; before it discards, thread 1 pops the element 1, and the discard
-- hits the element 2 in a queue that has room.
def keepDrained : List (Action smallQueue Nat) :=
  [.call 0 (.pushKeepN 1), .step 0, .step 0, .step 0, .step 0, .call 0 (.pushKeepN 2), .step 0, .step 0, .step 0, .step 0,
    .call 0 (.pushKeepN 3), .step 0, .step 0, .call 1 .pop, .step 1, .step 1, .step 1, .step 1,
    .step 0, .step 0, .step 0, .step 0, .step 0, .step 0, .step 0, .step 0]

theorem keep_drained_runs : (System.checked KeepOrPop keepDrained).isSome = true := by decide +kernel

theorem keep_n_loses :
    ¬ ∀ system : System smallQueue Nat, System.Reached KeepOrPop system → system.Quiet → Kept system.log := by
  intro keeps
  have quiet : ((System.checked KeepOrPop keepDrained).get keep_drained_runs).Quiet := by
    intro thread
    rcases thread with _ | _ | thread <;> rfl
  have kept := keeps _ (reached_checked KeepOrPop keepDrained keep_drained_runs) quiet
  revert kept
  decide +kernel

end LockfreeQueue
