import LockfreeQueue.Preserve

set_option autoImplicit false

namespace LockfreeQueue

section

variable {config : Config} {Data : Type}

theorem start_call_cases (system : System config Data) (thread other : Nat) (call : Call config Data) (task : Task config Data)
    (running : (system.startCall thread call).tasks other = some task) :
    (other = thread ∧ task = call.start) ∨ (other ≠ thread ∧ system.tasks other = some task) := by
  by_cases same : other = thread
  · subst same
    simp only [System.startCall, Function.update_self, Option.some.injEq] at running
    exact .inl ⟨rfl, running.symm⟩
  · simp only [System.startCall, Function.update_of_ne same] at running
    exact .inr ⟨same, running⟩

variable [DecidableEq Data] [Zero Data]

structure Invariant (system : System config Data) : Prop where
  holds : Holds system.memory system.log
  locals : ∀ thread task, system.tasks thread = some task →
    LocalInv system.memory system.log (system.since thread) (system.mark thread) thread task.pc
  runs : ∀ thread task, system.tasks thread = some task → task.call.Runs task.pc.kind

theorem invariant_initial : Invariant (System.initial config Data) := by
  refine ⟨⟨Fifo.empty, contents_nil, represents_initial⟩, ?_, ?_⟩
  · intro thread task running
    cases running
  · intro thread task running
    cases running

theorem step_task_cases (system : System config Data) (thread other : Nat) (task next : Task config Data)
    (running : (system.stepTask thread task).tasks other = some next) :
    (other = thread ∧ (resume task (exec system.memory task.pc).next).1 = some next) ∨
      (other ≠ thread ∧ system.tasks other = some next) := by
  by_cases same : other = thread
  · subst same
    simp only [System.stepTask, Function.update_self] at running
    exact .inl ⟨rfl, running⟩
  · simp only [System.stepTask, Function.update_of_ne same] at running
    exact .inr ⟨same, running⟩

theorem invariant_call (system : System config Data) (thread : Nat) (call : Call config Data) (inv : Invariant system) :
    Invariant (system.startCall thread call) := by
  refine ⟨inv.holds, ?_, ?_⟩
  · intro other task running
    rcases start_call_cases system thread other call task running with ⟨rfl, rfl⟩ | ⟨different, before⟩
    · cases call <;> trivial
    · simp only [System.startCall, Function.update_of_ne different]
      exact inv.locals other task before
  · intro other task running
    rcases start_call_cases system thread other call task running with ⟨rfl, rfl⟩ | ⟨_, before⟩
    · exact call_start_runs call
    · exact inv.runs other task before

theorem invariant_step (system : System config Data) (thread : Nat) (task : Task config Data) (inv : Invariant system)
    (running : system.tasks thread = some task) (timely : system.InTime thread task) :
    Invariant (system.stepTask thread task) := by
  obtain ⟨held, landed⟩ := exec_preserves system.memory system.log (system.since thread) (system.mark thread) thread task.call
    task.pc inv.holds (inv.locals thread task running) timely
  refine ⟨held, ?_, ?_⟩
  · intro other next present
    rcases step_task_cases system thread other task next present with ⟨rfl, continues⟩ | ⟨different, before⟩
    · simp only [System.stepTask, Function.update_self]
      rcases resume_pc task next _ continues with goes | ⟨load, _⟩
      · simpa using landed next.pc goes
      · exact local_load _ _ _ _ _ next.pc load
    · simp only [System.stepTask, Function.update_of_ne different, different, false_and, if_false]
      have known := inv.locals other next before
      rcases exec_frame system.memory system.log thread task.call task.pc with ⟨silent, unchanged⟩ | ⟨act, acted, owner, frame⟩
      · rw [silent, unchanged]
        exact known
      · rw [acted]
        exact local_keep _ system.log (system.since other) system.memory _ (system.mark other) other next.pc
          (fun mine => different (mine.symm.trans owner)) frame known
  · intro other next present
    rcases step_task_cases system thread other task next present with ⟨rfl, continues⟩ | ⟨_, before⟩
    · rw [resume_call task next _ continues]
      rcases resume_pc task next _ continues with goes | ⟨_, runs⟩
      · rw [exec_goto_kind system.memory task.pc next.pc goes]
        exact inv.runs other task running
      · exact runs
    · exact inv.runs other next before

-- The induction over runs: any threads, any calls, any interleaving within the staleness bound.
-- What is known of reached states is at hand in each step, so a property only says what it adds.
theorem reached_induction (promise : System config Data → Action config Data → Prop) (Holds : System config Data → Prop)
    (initial : Holds (System.initial config Data))
    (calls : ∀ system thread call, System.Reached promise system → Invariant system → Holds system →
      system.tasks thread = none → promise system (.call thread call) → Holds (system.startCall thread call))
    (steps : ∀ system thread task, System.Reached promise system → Invariant system → Holds system →
      promise system (.step thread) → system.tasks thread = some task → system.InTime thread task →
      Holds (system.stepTask thread task))
    (system : System config Data) (reached : System.Reached promise system) : Invariant system ∧ Holds system := by
  refine (Transition.reachable_invariant (queueMachine config Data) (System.Allowed promise)
    (fun system => System.Reached promise system ∧ Invariant system ∧ Holds system)
    ⟨Transition.reachable_start _ _, invariant_initial, initial⟩ ?_ system reached).2
  intro before action after known allowed moved
  obtain ⟨earlier, inv, holds⟩ := known
  refine ⟨Transition.reachable_step _ _ before after action earlier allowed moved, ?_⟩
  cases action with
  | call thread call =>
      simp only [queueMachine, System.next] at moved
      split at moved
      · rename_i idle
        cases moved
        exact ⟨invariant_call before thread call inv,
          calls before thread call earlier inv holds (Option.isNone_iff_eq_none.mp idle) allowed.2⟩
      · cases moved
  | step thread =>
      simp only [queueMachine, System.next] at moved
      obtain ⟨task, running, result⟩ := Option.map_eq_some_iff.mp moved
      subst result
      exact ⟨invariant_step before thread task inv running (allowed.1 task running),
        steps before thread task earlier inv holds allowed.2 running (allowed.1 task running)⟩

theorem invariant_reached (promise : System config Data → Action config Data → Prop) (system : System config Data)
    (reached : System.Reached promise system) : Invariant system :=
  (reached_induction promise (fun _ => True) trivial (fun _ _ _ _ _ _ _ _ => trivial) (fun _ _ _ _ _ _ _ _ _ => trivial) system
    reached).1

def Unrestricted (_ : System config Data) (_ : Action config Data) : Prop := True

instance (system : System config Data) (action : Action config Data) : Decidable (Unrestricted system action) := isTrue trivial

-- A schedule given as a list of actions, refused at the first action that breaks the promise.
def System.checked (promise : System config Data → Action config Data → Prop) [∀ system action, Decidable (promise system action)]
    (actions : List (Action config Data)) : Option (System config Data) :=
  Transition.checkedRun (queueMachine config Data) (System.Allowed promise) actions (System.initial config Data)

theorem reached_checked (promise : System config Data → Action config Data → Prop) [∀ system action, Decidable (promise system action)]
    (actions : List (Action config Data)) (done : (System.checked promise actions).isSome = true) :
    System.Reached promise ((System.checked promise actions).get done) :=
  ⟨actions, Transition.checked_run_path (queueMachine config Data) (System.Allowed promise) actions _ _ (Option.some_get done).symm⟩

-- The representation in the machine's own terms: the array slot by slot, the index words, and
-- the unbounded counts of the log.
structure Indexed (memory : Memory config Data) (log : List (Event config Data)) : Prop where
  room : takes log ≤ stores log ∧ stores log ≤ takes log + config.size
  full : ∀ k, takes log ≤ k → k < stores log → ∀ place : Fin config.size, place.val = k % config.size →
    (memory.array place).seq = BitVec.ofNat config.bits (2 * k + 1)
  empty : ∀ k, stores log ≤ k → k < takes log + config.size → ∀ place : Fin config.size, place.val = k % config.size →
    memory.array place = ⟨0, BitVec.ofNat config.bits (2 * k)⟩
  writeIndex : memory.writeIndex = BitVec.ofNat config.bits (writes log)
  writeLag : writes log = stores log ∨ writes log + 1 = stores log
  readIndex : memory.readIndex = BitVec.ofNat config.bits (reads log)
  readLag : reads log = takes log ∨ reads log + 1 = takes log

theorem holds_indexed (memory : Memory config Data) (log : List (Event config Data)) (holds : Holds memory log) : Indexed memory log := by
  obtain ⟨queue, legal, represents⟩ := holds
  obtain ⟨total, first⟩ := contents_counts log queue legal
  have bound := Fifo.total_bound queue
  have write := represents.writeLag
  have read := represents.readLag
  rw [total, first] at bound
  refine ⟨bound, ?_, ?_, represents.write, by omega, represents.read, by omega⟩
  · intro k lower upper place slot
    obtain ⟨v, value⟩ := Fifo.get_of_bounds queue k (by omega) (by omega)
    rw [entry_place memory k place slot, represents.full k v value]
    rfl
  · intro k lower upper place slot
    rw [entry_place memory k place slot, represents.empty k (by omega) (by omega)]
    rfl

theorem indexed_reached (promise : System config Data → Action config Data → Prop) (system : System config Data)
    (reached : System.Reached promise system) : Indexed system.memory system.log :=
  holds_indexed system.memory system.log (invariant_reached promise system reached).holds

end

-- A producer that has stored and not yet advanced the index, with an exchange in its slot.
def storedThenExchanged : List (Action smallQueue Nat) :=
  [.call 0 (.push 7), .step 0, .step 0, .step 0, .call 1 (.exchange 0 7 9), .step 1]

theorem stored_then_exchanged_runs : (System.checked Unrestricted storedThenExchanged).isSome = true := by decide +kernel

theorem indexed_exchanged :
    let system := (System.checked Unrestricted storedThenExchanged).get stored_then_exchanged_runs
    (system.memory.array (smallQueue.slot 0)).seq = 1 ∧ system.memory.array (smallQueue.slot 1) = ⟨0, 2⟩ ∧
      writes system.log + 1 = stores system.log ∧ system.memory.writeIndex = 0 := by
  intro system
  have indexed := indexed_reached Unrestricted system (reached_checked Unrestricted storedThenExchanged stored_then_exchanged_runs)
  have counts : stores system.log = 1 ∧ takes system.log = 0 ∧ writes system.log = 0 := by decide +kernel
  obtain ⟨stored, taken, written⟩ := counts
  refine ⟨indexed.full 0 (by omega) (by omega) _ rfl, indexed.empty 1 (by omega) (by rw [taken]; decide) _ rfl, by omega, ?_⟩
  rw [indexed.writeIndex, written]
  rfl

end LockfreeQueue
