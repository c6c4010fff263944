import LockfreeQueue.Answers
import LockfreeQueue.Solo

set_option autoImplicit false

namespace LockfreeQueue

section

variable {config : Config} {Data : Type}

-- A CAS of another thread on an entry or on the index, since the thread loaded that index.
def Interfered (thread : Nat) (onIndex : Event config Data → Bool) (since : List (Event config Data)) : Prop :=
  ∃ event ∈ since, event.thread ≠ thread ∧ (event.onEntry = true ∨ onIndex event = true)

variable (since : List (Event config Data)) (thread : Nat)

theorem stored_interferes (foreign : Foreign thread since) (positive : 0 < stores since) :
    Interfered thread Event.isWrote since := by
  obtain ⟨event, member, stored⟩ := stored_event since positive
  refine ⟨event, member, foreign event member, .inl ?_⟩
  cases event <;> simp [Event.isStored] at stored
  rfl

theorem wrote_interferes (foreign : Foreign thread since) (positive : 0 < writes since) :
    Interfered thread Event.isWrote since := by
  obtain ⟨event, member, wrote⟩ := wrote_event since positive
  exact ⟨event, member, foreign event member, .inr wrote⟩

theorem read_interferes (foreign : Foreign thread since) (positive : 0 < reads since) :
    Interfered thread Event.isRead since := by
  obtain ⟨event, member, read⟩ := read_event since positive
  exact ⟨event, member, foreign event member, .inr read⟩

variable (memory : Memory config Data) (log : List (Event config Data)) (mark : Option Nat)

theorem take_interfered (loop : ReadLoop config Data) (rdIndex : Index config) (e : Entry config Data)
    (known : LocalInv memory log since mark thread (.take loop rdIndex e)) (miss : memory.entry rdIndex ≠ e) :
    Interfered thread Event.isRead since := by
  obtain ⟨x, _, foreign, _, _, unchanged⟩ := known
  have touched : ¬ ∀ event ∈ since, event.onEntry = false := fun quiet => miss (unchanged quiet)
  simp only [not_forall, Bool.not_eq_false] at touched
  obtain ⟨event, member, entry⟩ := touched
  exact ⟨event, member, foreign event member, .inl entry⟩

variable [DecidableEq Data] [Zero Data]

theorem fill_interfered (d : Data) (wrIndex : Index config) (holds : Holds memory log)
    (known : LocalInv memory log since mark thread (.pushFill d wrIndex)) (miss : memory.entry wrIndex ≠ ⟨0, wrIndex <<< 1⟩) :
    Interfered thread Event.isWrote since := by
  obtain ⟨queue, legal, represents⟩ := holds
  obtain ⟨total, first⟩ := contents_counts log queue legal
  obtain ⟨x, position, foreign, free, room⟩ := known
  have lag := represents.writeLag
  have loaded := position.loaded
  apply stored_interferes since thread foreign
  by_contra none
  have current : x = queue.total := by omega
  apply miss
  rw [position.index, current]
  exact fill_complete memory queue _ _ represents (by omega)

theorem write_interfered (wrIndex : Index config) (x : Nat) (holds : Holds memory log)
    (position : PushLocal log since wrIndex x) (foreign : Foreign thread since) (miss : memory.writeIndex ≠ wrIndex) :
    Interfered thread Event.isWrote since := by
  obtain ⟨queue, _, represents⟩ := holds
  apply wrote_interferes since thread foreign
  by_contra none
  have current : writes log = x := by rw [position.loaded]; omega
  exact miss (by rw [represents.write, current, position.index])

theorem read_interfered (rdIndex : Index config) (x : Nat) (holds : Holds memory log)
    (position : PopLocal log since rdIndex x) (foreign : Foreign thread since) (miss : memory.readIndex ≠ rdIndex) :
    Interfered thread Event.isRead since := by
  obtain ⟨queue, _, represents⟩ := holds
  apply read_interferes since thread foreign
  by_contra none
  have current : reads log = x := by rw [position.loaded]; omega
  exact miss (by rw [represents.read, current, position.index])

-- Falling through every test tells that the shared index has moved since it was loaded.
theorem push_retry_interfered (d : Data) (wrIndex : Index config) (holds : Holds memory log)
    (known : LocalInv memory log since mark thread (.pushRead d wrIndex)) (timely : stores since < config.limit)
    (branch : pushBranch config wrIndex (memory.entry wrIndex).seq = .retry) : Interfered thread Event.isWrote since := by
  obtain ⟨queue, legal, represents⟩ := holds
  obtain ⟨x, position, foreign⟩ := known
  have behind : x ≤ writes log := by rw [position.loaded]; omega
  have sound := push_branch_sound memory queue _ _ x represents behind
    (push_window log since queue wrIndex x legal position timely)
  rw [← position.index, branch] at sound
  have passed : x < writes log := sound
  exact wrote_interferes since thread foreign (by rw [position.loaded] at passed; omega)

theorem pop_retry_interfered (loop : ReadLoop config Data) (rdIndex : Index config) (holds : Holds memory log)
    (known : LocalInv memory log since mark thread (.readSlot loop rdIndex)) (timely : takes since < config.limit)
    (branch : popBranch config rdIndex (memory.entry rdIndex).seq = .retry) : Interfered thread Event.isRead since := by
  obtain ⟨queue, legal, represents⟩ := holds
  obtain ⟨x, position, foreign⟩ := known
  have behind : x ≤ reads log := by rw [position.loaded]; omega
  have sound := pop_branch_sound memory queue _ _ x represents behind
    (pop_window log since queue rdIndex x legal position timely)
  rw [← position.index, branch] at sound
  have passed : x < reads log := sound
  exact read_interferes since thread foreign (by rw [position.loaded] at passed; omega)

theorem push_again (d : Data) (pc again : Pc config Data) (kind : pc.kind = .push d) (holds : Holds memory log)
    (known : LocalInv memory log since mark thread pc) (timely : stores since < config.limit)
    (inside : pc.inIteration = true) (goes : (exec memory pc).next = .goto again) (head : again.isLoad = true) :
    ((exec memory pc).memory.writeIndex = memory.writeIndex + 1 ∧ (exec memory pc).act = some .wrote) ∨
      Interfered thread Event.isWrote since := by
  cases pc with
  | pushLoad value => cases inside
  | pushRead value wrIndex =>
      simp only [exec, pushSlot] at goes
      split at goes
      · cases goes; cases head
      · cases goes; cases head
      · cases goes
      · rename_i branch
        exact .inr (push_retry_interfered since thread memory log mark value wrIndex holds known timely branch)
  | pushFill value wrIndex =>
      by_cases hit : memory.entry wrIndex = ⟨0, wrIndex <<< 1⟩
      · rw [exec_fill_hit memory value wrIndex hit] at goes
        simp only at goes
        split at goes <;> cases goes
        cases head
      · exact .inr (fill_interfered since thread memory log mark value wrIndex holds known hit)
  | pushDone value wrIndex => cases goes
  | pushAdvance value wrIndex =>
      obtain ⟨x, position, foreign, _⟩ := known
      rw [exec_push_advance]
      by_cases hit : memory.writeIndex = wrIndex
      · rw [if_pos hit, hit]
        exact .inl ⟨rfl, rfl⟩
      · exact .inr (write_interfered since thread memory log wrIndex x holds position foreign hit)
  | readLoad loop => cases kind
  | readSlot loop rdIndex => cases kind
  | take loop rdIndex e => cases kind
  | takeDone loop rdIndex e => cases kind
  | readAdvance loop rdIndex => cases kind
  | exchange i old new => cases kind

theorem pop_again (pc again : Pc config Data) (kind : pc.kind = .read .pop) (holds : Holds memory log)
    (known : LocalInv memory log since mark thread pc) (timely : takes since < config.limit)
    (inside : pc.inIteration = true) (goes : (exec memory pc).next = .goto again) (head : again.isLoad = true) :
    ((exec memory pc).memory.readIndex = memory.readIndex + 1 ∧ (exec memory pc).act = some .read) ∨
      Interfered thread Event.isRead since := by
  cases pc with
  | pushLoad value => cases kind
  | pushRead value wrIndex => cases kind
  | pushFill value wrIndex => cases kind
  | pushDone value wrIndex => cases kind
  | pushAdvance value wrIndex => cases kind
  | readLoad loop => cases inside
  | readSlot loop rdIndex =>
      cases kind
      simp only [exec, readSlot, popSlot] at goes
      split at goes
      · cases goes; cases head
      · cases goes; cases head
      · cases goes
      · rename_i branch
        exact .inr (pop_retry_interfered since thread memory log mark .pop rdIndex holds known timely branch)
  | take loop rdIndex e =>
      by_cases hit : memory.entry rdIndex = e
      · rw [exec_take_hit memory loop rdIndex e hit] at goes
        simp only at goes
        split at goes
        · exact absurd goes (taken_no_goto loop rdIndex e again)
        · cases goes; cases head
      · exact .inr (take_interfered since thread memory log mark loop rdIndex e known hit)
  | takeDone loop rdIndex e => exact absurd goes (taken_no_goto loop rdIndex e again)
  | readAdvance loop rdIndex =>
      obtain ⟨x, position, foreign, _⟩ := known
      rw [exec_read_advance]
      by_cases hit : memory.readIndex = rdIndex
      · rw [if_pos hit, hit]
        exact .inl ⟨rfl, rfl⟩
      · exact .inr (read_interfered since thread memory log rdIndex x holds position foreign hit)
  | exchange i old new => cases kind

-- The memory moves through a call run alone as the system moves through the thread's own steps.
theorem call_alone_run (system : System config Data) (task : Task config Data) (loads : Nat) (final : Memory config Data)
    (reply : Reply config Data) (alone : CallAlone memory task loads final reply) (same : system.memory = memory)
    (running : system.tasks thread = some task) :
    ∃ steps after, Transition.run (queueMachine config Data) (List.replicate steps (.step thread)) system = some after ∧
      after.memory = final ∧ after.tasks = Function.update system.tasks thread none := by
  induction alone generalizing system with
  | returns memory task reply ended =>
      refine ⟨1, system.stepTask thread task, ?_, ?_, ?_⟩
      · simp [Transition.run, queueMachine, System.next, running]
      · rw [← same]
        rfl
      · rw [← same] at ended
        simp only [System.stepTask, ended]
  | goes memory final task after loads reply continues later ih =>
      rw [← same] at continues
      obtain ⟨steps, last, run, memory, tasks⟩ := ih (system.stepTask thread task) (by rw [← same]; rfl)
        (by simp only [System.stepTask, Function.update_self, continues])
      refine ⟨steps + 1, last, ?_, memory, ?_⟩
      · rw [List.replicate_succ, Transition.run]
        simp only [queueMachine, System.next, running, Option.map_some, Option.bind_some]
        exact run
      · rw [tasks]
        simp only [System.stepTask, Function.update_idem]

theorem push_call_alone (queue : Fifo Data config.size) (written consumed : Nat) (call : Call config Data)
    (represents : Represents memory queue written consumed) (isPush : call.isPush = true) :
    ∃ loads final reply, loads ≤ 2 ∧ CallAlone memory call.start loads final reply := by
  obtain ⟨d, entry⟩ : ∃ d, call.entry = .pushLoad d := by
    cases call <;> simp_all [Call.isPush, Call.entry]
  obtain ⟨loads, final, outcome, bound, run, answer⟩ := push_alone memory queue written consumed d 1 represents represents.writeLag.2
  obtain ⟨result, pushed⟩ : ∃ result, outcome = .pushed result := by
    rw [PushAnswer] at answer
    split at answer
    · exact ⟨_, answer.1⟩
    · exact ⟨_, answer.1⟩
  obtain ⟨reply, ended⟩ : ∃ reply, resume call.start outcome = (none, some reply) := by
    subst pushed
    cases result <;> cases call <;> simp_all [Call.isPush, resume, Call.start]
  have whole := call_loop_returns memory final call.start (.pushLoad d) loads outcome reply run ended
  rw [← entry] at whole
  exact ⟨loads, final, reply, bound, whole⟩

theorem pop_call_alone (queue : Fifo Data config.size) (written consumed : Nat) (call : Call config Data)
    (represents : Represents memory queue written consumed) (isPop : call.isPop = true) :
    ∃ loads final reply, loads ≤ 2 ∧ CallAlone memory call.start loads final reply := by
  have entry : call.entry = .readLoad .pop := by
    cases call <;> simp_all [Call.isPop, Call.entry]
  obtain ⟨loads, final, outcome, bound, run, answer⟩ := pop_alone memory queue written consumed represents
  obtain ⟨result, popped⟩ : ∃ result, outcome = .popped result := by
    rw [PopAnswer] at answer
    split at answer
    · exact ⟨_, answer.1⟩
    · exact ⟨_, answer.1⟩
  obtain ⟨reply, ended⟩ : ∃ reply, resume call.start outcome = (none, some reply) := by
    subst popped
    cases result <;> cases call <;> simp_all [Call.isPop, resume, Call.start]
  have whole := call_loop_returns memory final call.start (.readLoad .pop) loads outcome reply run ended
  rw [← entry] at whole
  exact ⟨loads, final, reply, bound, whole⟩

-- A loop goes round again only when its iteration moved the index or another thread's CAS got in
-- between, and a push or pop whose thread alone is running needs at most two iterations.
theorem push_pop_lock_free (promise : System config Data → Action config Data → Prop) (system : System config Data)
    (reached : System.Reached promise system) :
    (∀ thread task again, system.Timely (.step thread) → system.tasks thread = some task → task.pc.inIteration = true →
      (exec system.memory task.pc).next = .goto again → again.isLoad = true →
      (∀ d, task.pc.kind = .push d →
        ((exec system.memory task.pc).memory.writeIndex = system.memory.writeIndex + 1 ∧
          (exec system.memory task.pc).act = some .wrote) ∨ Interfered thread Event.isWrote (system.since thread)) ∧
      (task.pc.kind = .read .pop →
        ((exec system.memory task.pc).memory.readIndex = system.memory.readIndex + 1 ∧
          (exec system.memory task.pc).act = some .read) ∨ Interfered thread Event.isRead (system.since thread))) ∧
    ∀ thread call, system.tasks thread = none → call.isPush = true ∨ call.isPop = true →
      ∃ loads final reply, loads ≤ 2 ∧ CallAlone system.memory call.start loads final reply ∧
        ∃ steps after,
          Transition.run (queueMachine config Data) (.call thread call :: List.replicate steps (.step thread)) system = some after ∧
          after.memory = final ∧ after.tasks = system.tasks := by
  have inv := invariant_reached promise system reached
  constructor
  · intro thread task again timely running inside goes head
    have known := inv.locals thread task running
    have fresh := timely task running inside
    constructor
    · intro d kind
      exact push_again (system.since thread) thread system.memory system.log (system.mark thread) d task.pc again kind inv.holds
        known fresh.1 inside goes head
    · intro kind
      exact pop_again (system.since thread) thread system.memory system.log (system.mark thread) task.pc again kind inv.holds
        known fresh.2 inside goes head
  · intro thread call idle kind
    obtain ⟨queue, _, represents⟩ := inv.holds
    obtain ⟨loads, final, reply, bound, alone⟩ : ∃ loads final reply, loads ≤ 2 ∧
        CallAlone system.memory call.start loads final reply := by
      rcases kind with isPush | isPop
      · exact push_call_alone system.memory queue _ _ call represents isPush
      · exact pop_call_alone system.memory queue _ _ call represents isPop
    obtain ⟨steps, after, run, memory, tasks⟩ := call_alone_run thread system.memory (system.startCall thread call) call.start loads
      final reply alone rfl (by simp [System.startCall])
    refine ⟨loads, final, reply, bound, alone, steps, after, ?_, memory, ?_⟩
    · simpa [Transition.run, queueMachine, System.next, idle] using run
    · rw [tasks, System.startCall, Function.update_idem, ← idle, Function.update_eq_self]

end

-- Thread 1 is suspended between its two CASes, and thread 0 has seen the slot it filled.
def suspendedPush : List (Action smallQueue Nat) :=
  [.call 1 (.push 5), .step 1, .step 1, .step 1, .call 0 (.push 6), .step 0, .step 0]

theorem suspended_push_runs : (System.checked Unrestricted suspendedPush).isSome = true := by decide +kernel

theorem push_pop_lock_free_suspended :
    let system := (System.checked Unrestricted suspendedPush).get suspended_push_runs
    (((exec system.memory (.pushAdvance 6 0)).memory.writeIndex = system.memory.writeIndex + 1 ∧
        (exec system.memory (.pushAdvance 6 0)).act = some .wrote) ∨ Interfered 0 Event.isWrote (system.since 0)) ∧
      ∃ loads final reply, loads ≤ 2 ∧ CallAlone system.memory (Call.pop : Call smallQueue Nat).start loads final reply := by
  intro system
  have free := push_pop_lock_free Unrestricted system (reached_checked Unrestricted suspendedPush suspended_push_runs)
  have timely : system.Timely (.step 0) := by decide +kernel
  have running : system.tasks 0 = some ⟨.push 6, 0, .pushAdvance 6 0⟩ := rfl
  refine ⟨(free.1 0 _ (.pushLoad 6) timely running rfl rfl rfl).1 6 rfl, ?_⟩
  obtain ⟨loads, final, reply, bound, alone, _⟩ := free.2 2 .pop rfl (.inr rfl)
  exact ⟨loads, final, reply, bound, alone⟩

end LockfreeQueue
