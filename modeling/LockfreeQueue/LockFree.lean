import Mathlib.Algebra.Order.BigOperators.Group.Finset
import Mathlib.Algebra.BigOperators.Ring.Finset
import Mathlib.Tactic.Ring
import LockfreeQueue.Library.Program
import LockfreeQueue.Progress

set_option autoImplicit false

namespace LockfreeQueue

section

variable {config : Config} {Data : Type}

-- The calls that are one loop, which ends with the first entry that it changes.
def Call.once : Call config Data → Bool
  | .push _ | .pushIndex _ | .pop | .popIndex | .exchange _ _ _ => true
  | _ => false

def Action.thread : Action config Data → Nat
  | .call thread _ | .step thread => thread

def Action.isStep : Action config Data → Bool
  | .step _ => true
  | .call _ _ => false

def Action.isCall : Action config Data → Bool
  | .call _ _ => true
  | .step _ => false

-- The threads that run, and the calls that they run. Other threads may stand still in any call.
def OnlyOnce (threads : Finset Nat) (system : System config Data) : Action config Data → Prop
  | .call thread call => thread ∈ threads ∧ call.once = true
  | .step thread => thread ∈ threads ∧ ∀ task ∈ system.tasks thread, task.call.once = true

instance (threads : Finset Nat) (system : System config Data) (action : Action config Data) :
    Decidable (OnlyOnce threads system action) :=
  match action with
  | .call _ _ => inferInstanceAs (Decidable (_ ∧ _))
  | .step thread => inferInstanceAs (Decidable (thread ∈ threads ∧ ∀ task ∈ system.tasks thread, task.call.once = true))

-- How many accesses the iteration has made before this one.
def Pc.made : Pc config Data → Nat
  | .pushLoad _ | .readLoad _ | .exchange _ _ _ => 0
  | .pushRead _ _ | .readSlot _ _ => 1
  | .pushFill _ _ | .pushAdvance _ _ | .take _ _ _ | .readAdvance _ _ => 2
  | .pushDone _ _ | .takeDone _ _ _ => 3

-- How many entries the loop may still change: none once it has only its index to move.
def Pc.due : Pc config Data → Nat
  | .pushDone _ _ | .takeDone _ _ _ => 0
  | _ => 1

-- The entries that a thread has changed.
def entries (thread : Nat) (log : List (Event config Data)) : Nat :=
  log.countP fun event => event.onEntry && event.thread == thread

def System.inProgress (system : System config Data) (threads : Finset Nat) : Nat :=
  ∑ thread ∈ threads, if (system.tasks thread).isSome then 1 else 0

theorem made_bound (pc : Pc config Data) : pc.made ≤ 3 := by
  cases pc <;> simp [Pc.made]

theorem load_outside (pc : Pc config Data) (head : pc.isLoad = true) : pc.inIteration = false := by
  cases pc with
  | pushLoad d => rfl
  | readLoad loop => rfl
  | _ => cases head

theorem due_bound (pc : Pc config Data) : pc.due ≤ 1 := by
  cases pc <;> simp [Pc.due]

theorem once_returns (task : Task config Data) (next : Next config Data) (once : task.call.once = true) :
    (∃ after, next = .goto after) ∨ (resume task next).1 = none := by
  cases next with
  | goto pc => exact .inl ⟨pc, rfl⟩
  | pushed result => cases result <;> cases called : task.call <;> simp [called, Call.once] at once <;> simp [resume, called]
  | popped result => cases result <;> cases called : task.call <;> simp [called, Call.once] at once <;> simp [resume, called]
  | peeked e => cases called : task.call <;> simp [called, Call.once] at once <;> simp [resume, called]
  | reply reply => exact .inr rfl

theorem slot_goes (loop : ReadLoop config Data) (rdIndex : Index config) (e : Entry config Data) (after : Pc config Data)
    (goes : readSlot loop rdIndex e = .goto after) :
    after = .take loop rdIndex e ∨ after = .readAdvance loop rdIndex ∨ after = .readLoad loop := by
  cases loop with
  | pop =>
      simp only [readSlot, popSlot] at goes
      split at goes <;> cases goes <;> simp
  | popIf f =>
      simp only [readSlot, popIfSlot] at goes
      split at goes
      · cases goes
      · split at goes <;> cases goes
        simp
      · cases goes
        simp
      · cases goes
        simp
  | peek =>
      simp only [readSlot, peekSlot] at goes
      split at goes <;> cases goes <;> simp
  | empty =>
      simp only [readSlot, emptySlot] at goes
      split at goes <;> cases goes

theorem recorded_few (log : List (Event config Data)) (thread : Nat) (call : Call config Data) (act : Option (Act config Data)) :
    entries thread (recorded log thread call act) ≤ 1 := by
  cases act with
  | none => exact Nat.zero_le 1
  | some act => exact List.countP_le_length

variable [DecidableEq Data] [Zero Data] (memory : Memory config Data)

-- An access is the load, one more of the iteration, or the last of it, which goes round.
inductive GoesOn (pc after : Pc config Data) : Prop where
  | load (head : pc.isLoad = true) (inside : after.inIteration = true) (one : after.made = 1)
  | within (here : pc.inIteration = true) (inside : after.inIteration = true) (more : after.made = pc.made + 1)
  | again (here : pc.inIteration = true) (head : after.isLoad = true) (few : pc.made ≤ 2)

theorem goto_goes_on (pc after : Pc config Data) (goes : (exec memory pc).next = .goto after) : GoesOn pc after := by
  cases pc with
  | pushLoad d =>
      cases goes
      exact .load rfl rfl rfl
  | pushRead d wrIndex =>
      simp only [exec, pushSlot] at goes
      split at goes <;> cases goes
      · exact .within rfl rfl rfl
      · exact .within rfl rfl rfl
      · exact .again rfl rfl (Nat.le_succ 1)
  | pushFill d wrIndex =>
      by_cases hit : memory.entry wrIndex = ⟨0, wrIndex <<< 1⟩
      · rw [exec_fill_hit memory d wrIndex hit] at goes
        simp only at goes
        split at goes <;> cases goes
        exact .within rfl rfl rfl
      · rw [exec_fill_miss memory d wrIndex hit] at goes
        cases goes
        exact .again rfl rfl (Nat.le_refl 2)
  | pushDone d wrIndex => cases goes
  | pushAdvance d wrIndex =>
      cases goes
      exact .again rfl rfl (Nat.le_refl 2)
  | readLoad loop =>
      cases goes
      exact .load rfl rfl rfl
  | readSlot loop rdIndex =>
      rcases slot_goes loop rdIndex _ after goes with rfl | rfl | rfl
      · exact .within rfl rfl rfl
      · exact .within rfl rfl rfl
      · exact .again rfl rfl (Nat.le_succ 1)
  | take loop rdIndex e =>
      by_cases hit : memory.entry rdIndex = e
      · rw [exec_take_hit memory loop rdIndex e hit] at goes
        simp only at goes
        split at goes
        · exact absurd goes (taken_no_goto loop rdIndex e after)
        · cases goes
          exact .within rfl rfl rfl
      · rw [exec_take_miss memory loop rdIndex e hit] at goes
        cases goes
        exact .again rfl rfl (Nat.le_refl 2)
  | takeDone loop rdIndex e => exact absurd goes (taken_no_goto loop rdIndex e after)
  | readAdvance loop rdIndex =>
      cases goes
      exact .again rfl rfl (Nat.le_refl 2)
  | exchange i old new =>
      simp only [exec] at goes
      split at goes <;> cases goes

variable (log : List (Event config Data)) (thread : Nat) (call : Call config Data)

theorem recorded_entries (pc : Pc config Data) :
    entries thread (recorded log thread call (exec memory pc).act) ≤ pc.due ∧
      ∀ after, (exec memory pc).next = .goto after →
        entries thread (recorded log thread call (exec memory pc).act) + after.due ≤ pc.due := by
  cases pc with
  | pushLoad d =>
      refine ⟨recorded_few log thread call _, fun after goes => ?_⟩
      cases goes
      exact Nat.le_refl 1
  | pushRead d wrIndex =>
      refine ⟨recorded_few log thread call _, fun after goes => ?_⟩
      simp only [exec, pushSlot] at goes
      split at goes <;> cases goes <;> exact Nat.le_refl 1
  | pushFill d wrIndex =>
      refine ⟨recorded_few log thread call _, fun after goes => ?_⟩
      by_cases hit : memory.entry wrIndex = ⟨0, wrIndex <<< 1⟩
      · rw [exec_fill_hit memory d wrIndex hit] at goes ⊢
        simp only at goes
        split at goes <;> cases goes
        exact recorded_few log thread call _
      · rw [exec_fill_miss memory d wrIndex hit] at goes ⊢
        cases goes
        exact Nat.le_refl 1
  | pushDone d wrIndex =>
      rw [exec_done]
      split
      · refine ⟨Nat.le_refl 0, fun after goes => ?_⟩
        cases goes
      · refine ⟨Nat.le_refl 0, fun after goes => ?_⟩
        cases goes
  | pushAdvance d wrIndex =>
      refine ⟨recorded_few log thread call _, fun after goes => ?_⟩
      cases goes
      rw [exec_push_advance]
      split
      · exact Nat.le_refl 1
      · exact Nat.le_refl 1
  | readLoad loop =>
      refine ⟨recorded_few log thread call _, fun after goes => ?_⟩
      cases goes
      exact Nat.le_refl 1
  | readSlot loop rdIndex =>
      refine ⟨recorded_few log thread call _, fun after goes => ?_⟩
      rcases slot_goes loop rdIndex _ after goes with rfl | rfl | rfl <;> exact Nat.le_refl 1
  | take loop rdIndex e =>
      refine ⟨recorded_few log thread call _, fun after goes => ?_⟩
      by_cases hit : memory.entry rdIndex = e
      · rw [exec_take_hit memory loop rdIndex e hit] at goes ⊢
        simp only at goes
        split at goes
        · exact absurd goes (taken_no_goto loop rdIndex e after)
        · cases goes
          exact recorded_few log thread call _
      · rw [exec_take_miss memory loop rdIndex e hit] at goes ⊢
        cases goes
        exact Nat.le_refl 1
  | takeDone loop rdIndex e =>
      rw [exec_take_done]
      split
      · exact ⟨Nat.le_refl 0, fun after goes => absurd goes (taken_no_goto loop rdIndex e after)⟩
      · exact ⟨Nat.le_refl 0, fun after goes => absurd goes (taken_no_goto loop rdIndex e after)⟩
  | readAdvance loop rdIndex =>
      refine ⟨recorded_few log thread call _, fun after goes => ?_⟩
      cases goes
      rw [exec_read_advance]
      split
      · exact Nat.le_refl 1
      · exact Nat.le_refl 1
  | exchange i old new =>
      refine ⟨recorded_few log thread call _, fun after goes => ?_⟩
      simp only [exec] at goes
      split at goes <;> cases goes

theorem recorded_owner (pc : Pc config Data) :
    ∀ event ∈ recorded log thread call (exec memory pc).act, event.thread = thread := by
  intro event member
  rcases exec_frame memory log thread call pc with ⟨silent, _⟩ | ⟨act, acted, owner, _⟩
  · rw [silent] at member
    cases member
  · rw [acted] at member
    rw [List.mem_singleton.mp member]
    exact owner

theorem foreign_entries (other : Nat) (pc : Pc config Data) (different : other ≠ thread) :
    entries other (recorded log thread call (exec memory pc).act) = 0 := by
  refine List.countP_eq_zero.mpr fun event member => ?_
  rw [recorded_owner memory log thread call pc event member]
  simp [Ne.symm different]

end

section

variable {config : Config} {Data : Type}

theorem entries_append (thread : Nat) (first second : List (Event config Data)) :
    entries thread (first ++ second) = entries thread first + entries thread second := List.countP_append

-- The accounts of a thread over a run. Each iteration that goes round makes at most three accesses
-- and is paid by a CAS recorded after its load, and each call has four more for its last iteration.
structure Paced (start : System config Data) (thread calls steps : Nat) (system : System config Data) : Prop where
  grown : start.log.length ≤ system.log.length
  idle : system.tasks thread = none → steps ≤ 3 * (system.log.length + 1 - start.log.length) + 4 * calls ∧
    entries thread system.log ≤ entries thread start.log + calls
  outside : ∀ task, system.tasks thread = some task → task.pc.inIteration = false →
    steps + 4 ≤ 3 * (system.log.length + 1 - start.log.length) + 4 * calls
  inside : ∀ task, system.tasks thread = some task → task.pc.inIteration = true →
    steps + 4 ≤ 3 * (system.log.length + 1 - (start.log.length + (system.since thread).length)) + task.pc.made + 4 * calls
  due : ∀ task, system.tasks thread = some task → entries thread system.log + task.pc.due ≤ entries thread start.log + calls

variable (start system : System config Data) (thread : Nat)

theorem paced_start : Paced system thread (if (system.tasks thread).isSome then 1 else 0) 0 system := by
  refine ⟨Nat.le_refl _, fun idle => ?_, fun task running _ => ?_, fun task running _ => ?_, fun task running => ?_⟩
  · rw [idle]
    exact ⟨Nat.zero_le _, Nat.le_refl _⟩
  · rw [running, Option.isSome_some, if_pos rfl]
    omega
  · rw [running, Option.isSome_some, if_pos rfl]
    omega
  · have bound := due_bound task.pc
    rw [running, Option.isSome_some, if_pos rfl]
    omega

theorem paced_bound (calls steps : Nat) (paced : Paced start thread calls steps system) :
    steps ≤ 3 * (system.log.length + 1 - start.log.length) + 4 * calls ∧
      entries thread system.log ≤ entries thread start.log + calls := by
  cases present : system.tasks thread with
  | none => exact paced.idle present
  | some task =>
      have due := paced.due task present
      have made := made_bound task.pc
      refine ⟨?_, by omega⟩
      cases place : task.pc.inIteration with
      | false =>
          have outside := paced.outside task present place
          omega
      | true =>
          have inside := paced.inside task present place
          omega

theorem paced_call (calls steps : Nat) (paced : Paced start thread calls steps system) (call : Call config Data)
    (idle : system.tasks thread = none) : Paced start thread (calls + 1) steps (system.startCall thread call) := by
  obtain ⟨steps, changed⟩ := paced.idle idle
  have running : (system.startCall thread call).tasks thread = some call.start := Function.update_self ..
  have outside : call.start.pc.inIteration = false := by cases call <;> rfl
  refine ⟨paced.grown, fun none => ?_, fun task present _ => ?_, fun task present place => ?_, fun task present => ?_⟩
  · rw [running] at none
    cases none
  · change _ ≤ 3 * (system.log.length + 1 - _) + _
    omega
  · rw [running] at present
    cases present
    rw [outside] at place
    cases place
  · have bound := due_bound task.pc
    change entries thread system.log + _ ≤ _
    omega

theorem paced_call_other (calls steps : Nat) (paced : Paced start thread calls steps system) (caller : Nat) (call : Call config Data)
    (different : thread ≠ caller) : Paced start thread calls steps (system.startCall caller call) := by
  have same : (system.startCall caller call).tasks thread = system.tasks thread := Function.update_of_ne different _ _
  refine ⟨paced.grown, fun none => paced.idle (same.symm.trans none), fun task present => paced.outside task (same.symm.trans present),
    fun task present => paced.inside task (same.symm.trans present), fun task present => paced.due task (same.symm.trans present)⟩

variable [DecidableEq Data] [Zero Data]

-- What a step adds to the log, to the part of it that a thread has seen since its load, and to
-- the count of entries.
theorem step_task_log (runner : Nat) (task : Task config Data) : (system.stepTask runner task).log.length =
    (recorded system.log runner task.call (exec system.memory task.pc).act).length + system.log.length := List.length_append

theorem step_task_since (runner : Nat) (task : Task config Data) (kept : thread ≠ runner ∨ task.pc.isLoad = false) :
    ((system.stepTask runner task).since thread).length =
      (recorded system.log runner task.call (exec system.memory task.pc).act).length + (system.since thread).length := by
  have out : ¬ (thread = runner ∧ task.pc.isLoad = true) := by
    rintro ⟨same, head⟩
    rcases kept with different | away
    · exact different same
    · rw [away] at head
      cases head
  change (if thread = runner ∧ task.pc.isLoad = true then [] else _).length = _
  rw [if_neg out, List.length_append]

theorem step_task_entries (runner : Nat) (task : Task config Data) : entries thread (system.stepTask runner task).log =
    entries thread (recorded system.log runner task.call (exec system.memory task.pc).act) + entries thread system.log :=
  entries_append thread _ _

theorem paced_step_other (calls steps : Nat) (paced : Paced start thread calls steps system) (runner : Nat) (task : Task config Data)
    (different : thread ≠ runner) : Paced start thread calls steps (system.stepTask runner task) := by
  have same : (system.stepTask runner task).tasks thread = system.tasks thread := Function.update_of_ne different _ _
  have silent := foreign_entries system.memory system.log runner task.call thread task.pc different
  have log := step_task_log system runner task
  have since := step_task_since system thread runner task (.inl different)
  have changed := step_task_entries system thread runner task
  have grown := paced.grown
  refine ⟨by omega, fun none => ?_, fun other present place => ?_, fun other present place => ?_, fun other present => ?_⟩
  · obtain ⟨paid, few⟩ := paced.idle (same.symm.trans none)
    exact ⟨by omega, by omega⟩
  · have paid := paced.outside other (same.symm.trans present) place
    omega
  · have paid := paced.inside other (same.symm.trans present) place
    omega
  · have few := paced.due other (same.symm.trans present)
    omega

-- Some CAS has been recorded since the load when an iteration goes round.
theorem again_charged (inv : Invariant system) (task : Task config Data) (after : Pc config Data)
    (running : system.tasks thread = some task) (timely : system.InTime thread task) (once : task.call.once = true)
    (goes : (exec system.memory task.pc).next = .goto after) (inside : task.pc.inIteration = true) (head : after.isLoad = true) :
    0 < (recorded system.log thread task.call (exec system.memory task.pc).act).length + (system.since thread).length := by
  have known := inv.locals thread task running
  have fresh := timely inside
  have interfered (onIndex : Event config Data → Bool) (between : Interfered thread onIndex (system.since thread)) :
      0 < (system.since thread).length := by
    obtain ⟨event, member, _⟩ := between
    exact List.length_pos_of_mem member
  have runs := inv.runs thread task running
  have kinds : (∃ d, task.pc.kind = .push d) ∨ task.pc.kind = .read .pop ∨ ∃ i old new, task.pc.kind = .exchange i old new := by
    cases called : task.call <;> simp [called, Call.once] at once <;> rw [called] at runs
    · exact .inl ⟨_, runs⟩
    · exact .inl ⟨_, runs⟩
    · exact .inr (.inl runs)
    · exact .inr (.inl runs)
    · exact .inr (.inr ⟨_, _, _, runs⟩)
  rcases kinds with ⟨d, kind⟩ | kind | ⟨i, old, new, kind⟩
  · rcases push_again (system.since thread) thread system.memory system.log (system.mark thread) d task.pc after kind inv.holds known
      fresh.1 inside goes head with ⟨_, wrote⟩ | between
    · rw [wrote]
      change 0 < 1 + _
      omega
    · have charged := interfered Event.isWrote between
      omega
  · rcases pop_again (system.since thread) thread system.memory system.log (system.mark thread) task.pc after kind inv.holds known
      fresh.2 inside goes head with ⟨_, read⟩ | between
    · rw [read]
      change 0 < 1 + _
      omega
    · have charged := interfered Event.isRead between
      omega
  · rw [exchange_place task.pc i old new kind] at inside
    cases inside

section

variable (calls steps : Nat) (paced : Paced start thread calls steps system) (task : Task config Data)
variable (running : system.tasks thread = some task)
include paced running

theorem paced_returns (returns : (resume task (exec system.memory task.pc).next).1 = none) :
    Paced start thread calls (steps + 1) (system.stepTask thread task) := by
  have present : (system.stepTask thread task).tasks thread = none := (Function.update_self ..).trans returns
  have few := (recorded_entries system.memory system.log thread task.call task.pc).1
  have log := step_task_log system thread task
  have changed := step_task_entries system thread thread task
  have due := paced.due task running
  have made := made_bound task.pc
  have grown := paced.grown
  refine ⟨by omega, fun _ => ⟨?_, by omega⟩, fun next there => ?_, fun next there => ?_, fun next there => ?_⟩
  · cases place : task.pc.inIteration with
    | false =>
        have paid := paced.outside task running place
        omega
    | true =>
        have paid := paced.inside task running place
        omega
  · rw [present] at there
    cases there
  · rw [present] at there
    cases there
  · rw [present] at there
    cases there

theorem paced_goes (inv : Invariant system) (timely : system.InTime thread task) (once : task.call.once = true)
    (after : Pc config Data) (goes : (exec system.memory task.pc).next = .goto after) :
    Paced start thread calls (steps + 1) (system.stepTask thread task) := by
  have present : (system.stepTask thread task).tasks thread = some { task with pc := after } := by
    change Function.update system.tasks thread (resume task (exec system.memory task.pc).next).1 thread = _
    rw [Function.update_self, goes]
    rfl
  have same (next : Task config Data) (there : (system.stepTask thread task).tasks thread = some next) : next.pc = after := by
    rw [present] at there
    cases there
    rfl
  have more := (recorded_entries system.memory system.log thread task.call task.pc).2 after goes
  have log := step_task_log system thread task
  have changed := step_task_entries system thread thread task
  have grown := paced.grown
  refine ⟨by omega, fun none => ?_, fun next there place => ?_, fun next there place => ?_, fun next there => ?_⟩
  · rw [present] at none
    cases none
  · rw [same next there] at place
    cases goto_goes_on system.memory task.pc after goes with
    | load _ inside _ => rw [place] at inside; cases inside
    | within _ inside _ => rw [place] at inside; cases inside
    | again here head few =>
        have charged := again_charged system thread inv task after running timely once goes here head
        have paid := paced.inside task running here
        omega
  · rw [same next there] at place ⊢
    cases goto_goes_on system.memory task.pc after goes with
    | load head _ one =>
        have paid := paced.outside task running (load_outside task.pc head)
        have since : (system.stepTask thread task).since thread = [] := if_pos ⟨rfl, head⟩
        rw [since, List.length_nil]
        omega
    | within here _ further =>
        have away : task.pc.isLoad = false := by
          cases head : task.pc.isLoad with
          | false => rfl
          | true => rw [load_outside task.pc head] at here; cases here
        have since := step_task_since system thread thread task (.inr away)
        have paid := paced.inside task running here
        omega
    | again _ head _ => rw [load_outside after head] at place; cases place
  · have due := paced.due task running
    rw [same next there]
    omega

theorem paced_step (inv : Invariant system) (timely : system.InTime thread task) (once : task.call.once = true) :
    Paced start thread calls (steps + 1) (system.stepTask thread task) := by
  rcases once_returns task (exec system.memory task.pc).next once with ⟨after, goes⟩ | returns
  · exact paced_goes start system thread calls steps paced task running inv timely once after goes
  · exact paced_returns start system thread calls steps paced task running returns

end

end

section

variable {config : Config} {Data : Type}

theorem log_counts (log : List (Event config Data)) :
    log.length = log.countP Event.onEntry + writes log + reads log ∧ stores log + takes log ≤ log.countP Event.onEntry := by
  induction log with
  | nil => exact ⟨rfl, Nat.le_refl 0⟩
  | cons event log ih =>
      obtain ⟨total, below⟩ := ih
      rw [writes_cons, reads_cons, stores_cons, takes_cons, List.countP_cons, List.length_cons]
      cases event <;> simp [Event.onEntry, Event.isWrote, Event.isRead, Event.isStored, Event.isTook] <;> omega

theorem progress_bound (threads : Finset Nat) (system : System config Data) : system.inProgress threads ≤ threads.card := by
  have each : ∀ thread ∈ threads, (if (system.tasks thread).isSome then 1 else 0) ≤ 1 := fun thread _ => by split <;> omega
  rw [Finset.card_eq_sum_ones]
  exact Finset.sum_le_sum each

theorem actors_more (threads : Finset Nat) (taken : List (Action config Data)) (action : Action config Data)
    (actors : ∀ earlier ∈ taken, earlier.thread ∈ threads) (member : action.thread ∈ threads) :
    ∀ earlier ∈ taken ++ [action], earlier.thread ∈ threads := by
  intro earlier among
  rcases List.mem_append.mp among with before | last
  · exact actors earlier before
  · rw [List.mem_singleton.mp last]
    exact member

variable [DecidableEq Data] [Zero Data]

def System.finishes (system : System config Data) : Action config Data → Bool
  | .step thread => (system.tasks thread).any fun task => (resume task (exec system.memory task.pc).next).1.isNone
  | .call _ _ => false

-- The calls that return in a run.
def System.returned (system : System config Data) : List (Action config Data) → Nat
  | [] => 0
  | action :: rest => (if system.finishes action then 1 else 0) + (system.next action).elim 0 fun next => next.returned rest

variable (threads : Finset Nat)

-- A call that is made returns or is in progress at the end.
theorem calls_balance (system final : System config Data) (actions : List (Action config Data))
    (path : Transition.Path (queueMachine config Data) (System.Allowed (OnlyOnce threads)) system actions final) :
    system.inProgress threads + actions.countP Action.isCall = final.inProgress threads + system.returned actions := by
  induction path with
  | done system => rfl
  | step system middle final action rest allowed moved later ih =>
      have member : action.thread ∈ threads := by cases action <;> exact allowed.2.1
      have kept : system.inProgress threads + (if action.isCall then 1 else 0) =
          middle.inProgress threads + if system.finishes action then 1 else 0 := by
        cases action with
        | call thread call =>
            simp only [queueMachine, System.next] at moved
            split at moved
            · rename_i idle
              cases moved
              have update := Service.total_update threads (fun task : Option (Task config Data) => if task.isSome then 1 else 0)
                system.tasks thread (some call.start) member
              rw [Option.isNone_iff_eq_none.mp idle] at update
              exact update.symm
            · cases moved
        | step thread =>
            obtain ⟨task, running, result⟩ := Option.map_eq_some_iff.mp moved
            subst result
            have update := Service.total_update threads (fun task : Option (Task config Data) => if task.isSome then 1 else 0)
              system.tasks thread (resume task (exec system.memory task.pc).next).1 member
            have ends : system.finishes (.step thread) = (resume task (exec system.memory task.pc).next).1.isNone := by
              rw [System.finishes, running]
              rfl
            rw [ends, System.inProgress, System.inProgress, System.stepTask]
            rw [running] at update
            generalize (resume task (exec system.memory task.pc).next).1 = after at update ⊢
            cases after with
            | none => exact update.symm
            | some next => exact (Nat.add_right_cancel update).symm
      have moved : system.next action = some middle := moved
      rw [List.countP_cons, System.returned, moved, Option.elim_some]
      omega

-- What holds after the actions of a run.
structure Accounts (start : System config Data) (taken : List (Action config Data)) (system : System config Data) : Prop where
  inv : Invariant system
  paced : ∀ thread, Paced start thread
    ((if (start.tasks thread).isSome then 1 else 0) + taken.countP fun action => action.isCall && action.thread == thread)
    (taken.countP fun action => action.isStep && action.thread == thread) system
  grows : ∃ events, system.log = events ++ start.log ∧ ∀ event ∈ events, event.thread ∈ threads
  actors : ∀ action ∈ taken, action.thread ∈ threads

variable (start : System config Data) (taken : List (Action config Data)) (system : System config Data)

theorem accounts_call (accounts : Accounts threads start taken system) (thread : Nat) (call : Call config Data)
    (idle : system.tasks thread = none) (member : thread ∈ threads) :
    Accounts threads start (taken ++ [.call thread call]) (system.startCall thread call) := by
  refine ⟨invariant_call system thread call accounts.inv, fun other => ?_, accounts.grows,
    actors_more threads taken (.call thread call) accounts.actors member⟩
  · have paced := accounts.paced other
    rw [List.countP_append, List.countP_append, List.countP_singleton, List.countP_singleton]
    by_cases same : other = thread
    · subst same
      have more := paced_call start system other _ _ paced call idle
      simpa [Action.isCall, Action.isStep, Action.thread, Nat.add_assoc] using more
    · have kept := paced_call_other start system other _ _ paced thread call same
      simpa [Action.isCall, Action.isStep, Action.thread, Ne.symm same] using kept

theorem accounts_step (accounts : Accounts threads start taken system) (thread : Nat) (task : Task config Data)
    (running : system.tasks thread = some task) (timely : system.InTime thread task) (once : task.call.once = true)
    (member : thread ∈ threads) : Accounts threads start (taken ++ [.step thread]) (system.stepTask thread task) := by
  refine ⟨invariant_step system thread task accounts.inv running timely, fun other => ?_, ?_,
    actors_more threads taken (.step thread) accounts.actors member⟩
  · have paced := accounts.paced other
    rw [List.countP_append, List.countP_append, List.countP_singleton, List.countP_singleton]
    by_cases same : other = thread
    · subst same
      have more := paced_step start system other _ _ paced task running accounts.inv timely once
      simpa [Action.isCall, Action.isStep, Action.thread] using more
    · have kept := paced_step_other start system other _ _ paced thread task same
      simpa [Action.isCall, Action.isStep, Action.thread, Ne.symm same] using kept
  · obtain ⟨events, split, owned⟩ := accounts.grows
    refine ⟨recorded system.log thread task.call (exec system.memory task.pc).act ++ events, ?_, fun event among => ?_⟩
    · rw [List.append_assoc, ← split]
      rfl
    · rcases List.mem_append.mp among with new | old
      · rw [recorded_owner system.memory system.log thread task.call task.pc event new]
        exact member
      · exact owned event old

theorem accounts_run (final : System config Data) (actions : List (Action config Data)) (inv : Invariant start)
    (path : Transition.Path (queueMachine config Data) (System.Allowed (OnlyOnce threads)) start actions final) :
    Accounts threads start actions final := by
  have initial : Accounts threads start [] start :=
    ⟨inv, fun thread => paced_start start thread, ⟨[], rfl, fun _ member => nomatch member⟩, fun _ member => nomatch member⟩
  refine Transition.path_history (queueMachine config Data) (System.Allowed (OnlyOnce threads)) (Accounts threads start) ?_ start final []
    actions path initial
  intro taken before action after accounts allowed moved
  cases action with
  | call thread call =>
      simp only [queueMachine, System.next] at moved
      split at moved
      · rename_i idle
        cases moved
        exact accounts_call threads start taken before accounts thread call (Option.isNone_iff_eq_none.mp idle) allowed.2.1
      · cases moved
  | step thread =>
      obtain ⟨task, running, result⟩ := Option.map_eq_some_iff.mp moved
      subst result
      exact accounts_step threads start taken before accounts thread task running (allowed.1 task running) (allowed.2.2 task running)
        allowed.2.1

-- The index CASes of a run are no more than the entries that it changes, but for the one by which
-- each index may have lagged at its beginning.
theorem recorded_bound (events : List (Event config Data)) (split : system.log = events ++ start.log) (before : Invariant start)
    (inv : Invariant system) : events.length ≤ 2 * events.countP Event.onEntry + 2 := by
  obtain ⟨total, below⟩ := log_counts events
  have was := holds_indexed start.memory start.log before.holds
  have is_ := holds_indexed system.memory system.log inv.holds
  have stored : stores system.log = stores events + stores start.log := by rw [split]; exact List.countP_append
  have took : takes system.log = takes events + takes start.log := by rw [split]; exact List.countP_append
  have wrote : writes system.log = writes events + writes start.log := by rw [split]; exact List.countP_append
  have read : reads system.log = reads events + reads start.log := by rw [split]; exact List.countP_append
  have lags := And.intro was.writeLag was.readLag
  have later := And.intro is_.writeLag is_.readLag
  omega

-- The accounts of all threads together.
theorem accounts_total (accounts : Accounts threads start taken system) (before : Invariant start) :
    taken.countP Action.isStep ≤
      (6 * threads.card + 4) * (start.inProgress threads + taken.countP Action.isCall) + 9 * threads.card := by
  obtain ⟨events, split, owned⟩ := accounts.grows
  have few := recorded_bound start system events split before accounts.inv
  have bound (thread : Nat) := paced_bound start system thread _ _ (accounts.paced thread)
  have calls : ∑ thread ∈ threads, ((if (start.tasks thread).isSome then 1 else 0) +
      taken.countP fun action => action.isCall && action.thread == thread) =
        start.inProgress threads + taken.countP Action.isCall := by
    rw [Finset.sum_add_distrib, Service.total_counts threads Action.thread Action.isCall taken accounts.actors]
    rfl
  have changed : events.countP Event.onEntry ≤ start.inProgress threads + taken.countP Action.isCall := by
    rw [← calls, ← Service.total_counts threads Event.thread Event.onEntry events owned]
    refine Finset.sum_le_sum fun thread _ => ?_
    have most := (bound thread).2
    rw [split, entries_append] at most
    rw [entries] at most
    omega
  have length : system.log.length + 1 - start.log.length = events.length + 1 := by
    rw [split, List.length_append]
    omega
  generalize start.inProgress threads + taken.countP Action.isCall = total at calls changed
  calc taken.countP Action.isStep
      = ∑ thread ∈ threads, taken.countP (fun action => action.isStep && action.thread == thread) :=
        (Service.total_counts threads Action.thread Action.isStep taken accounts.actors).symm
    _ ≤ ∑ thread ∈ threads, (3 * (system.log.length + 1 - start.log.length) +
          4 * ((if (start.tasks thread).isSome then 1 else 0) +
            taken.countP fun action => action.isCall && action.thread == thread)) :=
        Finset.sum_le_sum fun thread _ => (bound thread).1
    _ = threads.card * (3 * (events.length + 1)) + 4 * total := by
        rw [Finset.sum_add_distrib, Finset.sum_const_nat fun _ _ => rfl, ← Finset.mul_sum, calls, length]
    _ ≤ threads.card * (3 * (2 * total + 3)) + 4 * total :=
        Nat.add_le_add_right (Nat.mul_le_mul_left _ (by omega)) _
    _ = (6 * threads.card + 4) * total + 9 * threads.card := by ring

-- Whatever the schedule, the threads together take a bounded number of steps for each call: where
-- no more calls are made they all return, and a long run is one in which many calls return.
theorem lock_free (system final : System config Data) (reached : System.Reached Unrestricted system) (actions : List (Action config Data))
    (path : Transition.Path (queueMachine config Data) (System.Allowed (OnlyOnce threads)) system actions final) :
    actions.countP Action.isStep ≤
        (6 * threads.card + 4) * (system.inProgress threads + actions.countP Action.isCall) + 9 * threads.card ∧
      actions.countP Action.isStep ≤ (6 * threads.card + 4) * system.returned actions + threads.card * (6 * threads.card + 13) := by
  have inv := invariant_reached Unrestricted system reached
  have total := accounts_total threads system actions final (accounts_run threads system final actions inv path) inv
  refine ⟨total, ?_⟩
  have balance := calls_balance threads system final actions path
  have open_ := progress_bound threads final
  calc actions.countP Action.isStep
      ≤ (6 * threads.card + 4) * (system.inProgress threads + actions.countP Action.isCall) + 9 * threads.card := total
    _ ≤ (6 * threads.card + 4) * (threads.card + system.returned actions) + 9 * threads.card :=
        Nat.add_le_add_right (Nat.mul_le_mul_left _ (by omega)) _
    _ = (6 * threads.card + 4) * system.returned actions + threads.card * (6 * threads.card + 13) := by ring

end

-- Thread 0 first moves the index on for the suspended thread, which then fails to, and a third one
-- pops what it stored.
def contended : List (Action smallQueue Nat) :=
  [.step 0, .call 2 .pop, .step 2, .step 0, .step 2, .step 1, .step 2, .step 0, .step 2, .call 1 .popIndex, .step 0, .step 1, .step 0]

theorem contended_runs : (Transition.checkedRun (queueMachine smallQueue Nat) (System.Allowed (OnlyOnce {0, 1, 2})) contended
    ((System.checked Unrestricted suspendedPush).get suspended_push_runs)).isSome = true := by decide +kernel

theorem lock_free_contended :
    let system := (System.checked Unrestricted suspendedPush).get suspended_push_runs
    contended.countP Action.isStep ≤ 22 * (system.inProgress {0, 1, 2} + 2) + 27 ∧
      contended.countP Action.isStep ≤ 22 * system.returned contended + 93 := by
  intro system
  have path := Transition.checked_run_path (queueMachine smallQueue Nat) (System.Allowed (OnlyOnce {0, 1, 2})) contended system _
    (Option.some_get contended_runs).symm
  exact lock_free {0, 1, 2} system _ (reached_checked Unrestricted suspendedPush suspended_push_runs) contended path

end LockfreeQueue
