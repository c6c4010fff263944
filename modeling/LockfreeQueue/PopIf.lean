import LockfreeQueue.Exchange

set_option autoImplicit false

namespace LockfreeQueue

section

variable {config : Config} {Data : Type}

theorem pop_if_look_fails (task : Task config Data) (f : Data → Index config → Bool) (rdIndex : Index config)
    (e : Entry config Data) (data : Option Data) (number : Option (Index config)) :
    (resume task (readSlot (.popIf f) rdIndex e)).2 ≠ some (.done data number) := by
  rcases pop_if_slot_cases f rdIndex e with ⟨pc, goes⟩ | failed
  · simp [readSlot, goes, resume]
  · simp [readSlot, failed, resume]

theorem pop_if_look_reply (task : Task config Data) (f : Data → Index config → Bool) (rdIndex : Index config)
    (e : Entry config Data) (reply : (resume task (readSlot (.popIf f) rdIndex e)).2 = some .failed) :
    popIfSlot f rdIndex e = .reply .failed := by
  rcases pop_if_slot_cases f rdIndex e with ⟨pc, goes⟩ | failed
  · simp [readSlot, goes, resume] at reply
  · exact failed

theorem pop_if_failed (f : Data → Index config → Bool) (rdIndex : Index config) (e : Entry config Data)
    (looked : popIfSlot f rdIndex e = .reply .failed) :
    peekBranch config rdIndex e.seq = .empty ∨ (peekBranch config rdIndex e.seq = .take ∧ f e.data e.seq = false) := by
  rw [popIfSlot] at looked
  split at looked
  · rename_i branch
    exact .inl branch
  · rename_i branch
    split at looked
    · cases looked
    · rename_i rejected
      exact .inr ⟨branch, by simpa using rejected⟩
  · cases looked
  · cases looked

variable [DecidableEq Data] [Zero Data]

theorem pop_if_takes (system : System config Data) (thread : Nat) (task : Task config Data) (f : Data → Index config → Bool)
    (v : Data) (inv : Invariant system) (running : system.tasks thread = some task) (timely : system.InTime thread task)
    (call : task.call = .popIf f) (acts : (exec system.memory task.pc).act = some (.took v)) :
    oldest system.log = some v ∧ f v (config.fullSeq (takes system.log)) = true := by
  have kind : task.pc.kind = .read (.popIf f) := by simpa [call, Call.Runs] using inv.runs thread task running
  have known := inv.locals thread task running
  obtain ⟨queue, legal, represents⟩ := inv.holds
  obtain ⟨_, first⟩ := contents_counts system.log queue legal
  cases place : task.pc with
  | take loop rdIndex e =>
      rw [place] at known kind acts
      have same : loop = .popIf f := by cases kind; rfl
      subst same
      have inside : task.pc.inIteration = true := by rw [place]; rfl
      by_cases hit : system.memory.entry rdIndex = e
      · obtain ⟨_, _, head, _, full, accepted⟩ := take_current system.memory system.log (system.since thread) (system.mark thread)
          thread (.popIf f) rdIndex e queue legal represents known (timely inside).2 hit
        rw [exec_take_hit system.memory (.popIf f) rdIndex e hit] at acts
        cases acts
        rw [oldest_eq system.log queue legal, ← first, ← full]
        exact ⟨head, accepted⟩
      · rw [exec_take_miss system.memory (.popIf f) rdIndex e hit] at acts
        cases acts
  | takeDone loop rdIndex e =>
      rw [place, exec_take_done] at acts
      split at acts <;> cases acts
  | readAdvance loop rdIndex =>
      rw [place, exec_read_advance] at acts
      split at acts <;> cases acts
  | readLoad loop => rw [place] at acts; cases acts
  | readSlot loop rdIndex => rw [place] at acts; cases acts
  | _ => rw [place] at kind; cases kind

theorem pop_if_removes (system : System config Data) (thread : Nat) (task : Task config Data) (f : Data → Index config → Bool) (v : Data)
    (inv : Invariant system) (running : system.tasks thread = some task) (timely : system.InTime thread task)
    (call : task.call = .popIf f) (acts : (exec system.memory task.pc).act = some (.took v)) :
    oldest system.log = some v ∧ f v (config.fullSeq (takes system.log)) = true ∧
      (system.stepTask thread task).mark thread = some (takes system.log) ∧
        ∃ queue rest, contents system.log = some queue ∧ queue.pop? = some (v, rest) ∧
          contents (system.stepTask thread task).log = some rest := by
  obtain ⟨head, accepted⟩ := pop_if_takes system thread task f v inv running timely call acts
  refine ⟨head, accepted, by simp [System.stepTask, acts, marked], ?_⟩
  obtain ⟨queue, legal, _⟩ := inv.holds
  obtain ⟨rest, stepped, represents⟩ := (invariant_step system thread task inv running timely).holds
  refine ⟨queue, rest, legal, ?_, stepped⟩
  simp only [System.stepTask, acts] at stepped
  rw [recorded_some, contents_op _ system.log (.pop v) rfl, legal] at stepped
  exact Fifo.perform_pop queue rest v stepped

theorem pop_if_returns (system : System config Data) (thread : Nat) (task : Task config Data) (f : Data → Index config → Bool)
    (data : Option Data) (number : Option (Index config)) (inv : Invariant system) (running : system.tasks thread = some task)
    (timely : system.InTime thread task) (call : task.call = .popIf f)
    (reply : (resume task (exec system.memory task.pc).next).2 = some (.done data number)) :
    ∃ k v, data = some v ∧ (system.stepTask thread task).mark thread = some k ∧
      (takenValues (system.stepTask thread task).log)[k]? = some v ∧ f v (config.fullSeq k) = true := by
  have kind : task.pc.kind = .read (.popIf f) := by simpa [call, Call.Runs] using inv.runs thread task running
  rcases read_loop_step thread system task (.popIf f) inv running timely kind with
    ⟨pc, goes⟩ | ⟨rdIndex, _, looked⟩ | ⟨e, k, took, full, accepted, stamped, value⟩
  · simp [goes, resume] at reply
  · rw [looked] at reply
    exact absurd reply (pop_if_look_fails task f rdIndex _ data number)
  · rw [took] at reply
    cases reply
    refine ⟨k, e.data, rfl, stamped, value, ?_⟩
    rw [← full]
    exact accepted

theorem pop_if_refuses (promise : System config Data → Action config Data → Prop) (system : System config Data)
    (reached : System.Reached promise system) (thread : Nat) (task : Task config Data) (f : Data → Index config → Bool)
    (running : system.tasks thread = some task) (timely : system.InTime thread task) (call : task.call = .popIf f)
    (reply : (resume task (exec system.memory task.pc).next).2 = some .failed) :
    (system.stepTask thread task).mark thread = none ∧ (system.stepTask thread task).log = system.log ∧ system.LoadsSlot thread ∧
      (stores system.log = takes system.log ∨
        ∃ v, oldest system.log = some v ∧ f v (config.fullSeq (takes system.log)) = false) := by
  have inv := invariant_reached promise system reached
  have kind : task.pc.kind = .read (.popIf f) := by simpa [call, Call.Runs] using inv.runs thread task running
  have known := inv.locals thread task running
  rcases read_loop_step thread system task (.popIf f) inv running timely kind with
    ⟨pc, goes⟩ | ⟨rdIndex, place, looked⟩ | ⟨e, k, took, _⟩
  · simp [goes, resume] at reply
  · have unmarked := unmarked_step thread promise system reached task running (by rw [call]; rfl) (by rw [place]; rfl) (by rw [place]; rfl)
    have inside : task.pc.inIteration = true := by rw [place]; rfl
    rw [place] at known
    obtain ⟨queue, x, legal, _, sound, index⟩ := look_sound system.memory system.log (system.since thread) (system.mark thread)
      thread (.popIf f) rdIndex inv.holds known (timely inside).2
    refine ⟨unmarked, ?_, ⟨task, .popIf f, rdIndex, running, place⟩, ?_⟩
    · simp [System.stepTask, place, exec, recorded]
    · rw [looked] at reply
      rcases pop_if_failed f rdIndex _ (pop_if_look_reply task f rdIndex _ reply) with empty | ⟨take, rejected⟩
      · exact .inl (empty_answer system.memory system.log queue x _ legal (sound (by rw [empty]; simp)) empty)
      · obtain ⟨head, seq⟩ := head_answer system.memory system.log queue x _ legal (sound (by rw [take]; simp)) take
        rw [← index] at head seq
        exact .inr ⟨_, head, by rw [← seq]; exact rejected⟩
  · rw [took] at reply
    cases reply

-- pop_if tests and removes the head in one step: what it returns was accepted and was the oldest
-- element when it was removed, and when it returns false it has removed nothing.
theorem pop_if_atomic (promise : System config Data → Action config Data → Prop) (system : System config Data)
    (reached : System.Reached promise system) (thread : Nat) (f : Data → Index config → Bool)
    (timely : system.Timely (.step thread)) (after : System config Data) (moved : system.next (.step thread) = some after) :
    (∀ task v, system.tasks thread = some task → task.call = .popIf f → (exec system.memory task.pc).act = some (.took v) →
      oldest system.log = some v ∧ f v (config.fullSeq (takes system.log)) = true ∧ after.mark thread = some (takes system.log) ∧
        ∃ queue rest, contents system.log = some queue ∧ queue.pop? = some (v, rest) ∧ contents after.log = some rest) ∧
    (∀ data number, system.Returns thread (.popIf f) (.done data number) →
      ∃ k v, data = some v ∧ after.mark thread = some k ∧ (takenValues after.log)[k]? = some v ∧ f v (config.fullSeq k) = true) ∧
    (system.Returns thread (.popIf f) .failed →
      after.mark thread = none ∧ after.log = system.log ∧ system.LoadsSlot thread ∧
        (stores system.log = takes system.log ∨
          ∃ v, oldest system.log = some v ∧ f v (config.fullSeq (takes system.log)) = false)) := by
  have inv := invariant_reached promise system reached
  refine ⟨?_, ?_, ?_⟩
  · intro task v running call acts
    have result : system.stepTask thread task = after := by simpa [System.next, running] using moved
    subst result
    exact pop_if_removes system thread task f v inv running (timely task running) call acts
  · rintro data number ⟨task, running, call, reply⟩
    have result : system.stepTask thread task = after := by simpa [System.next, running] using moved
    subst result
    exact pop_if_returns system thread task f data number inv running (timely task running) call reply
  · rintro ⟨task, running, call, reply⟩
    have result : system.stepTask thread task = after := by simpa [System.next, running] using moved
    subst result
    exact pop_if_refuses promise system reached thread task f running (timely task running) call reply

end

-- A pop_if that has looked at the only element and is about to take it.
def popIfSeven : List (Action smallQueue Nat) :=
  [.call 0 (.push 7), .step 0, .step 0, .step 0, .step 0, .call 1 (.popIf fun v _ => v == 7), .step 1, .step 1]

theorem pop_if_seven_runs : (System.checked Unrestricted popIfSeven).isSome = true := by decide +kernel

theorem pop_if_atomic_seven :
    let system := (System.checked Unrestricted popIfSeven).get pop_if_seven_runs
    let after := system.stepTask 1 ⟨.popIf fun v _ => v == 7, 0, .take (.popIf fun v _ => v == 7) 0 ⟨7, 1⟩⟩
    oldest system.log = some 7 ∧ after.mark 1 = some 0 := by
  intro system after
  have timely : system.Timely (.step 1) := by decide +kernel
  have atomic := pop_if_atomic Unrestricted system (reached_checked Unrestricted popIfSeven pop_if_seven_runs) 1
    (fun v _ => v == 7) timely after rfl
  obtain ⟨head, _, stamped, _⟩ := atomic.1 _ 7 rfl rfl rfl
  exact ⟨head, stamped⟩

end LockfreeQueue
