import LockfreeQueue.Returns

set_option autoImplicit false

namespace LockfreeQueue

section

variable {config : Config} {Data : Type}

def Call.isPush : Call config Data → Bool
  | .push _ | .pushIndex _ => true
  | _ => false

def Call.isPop : Call config Data → Bool
  | .pop | .popIndex => true
  | _ => false

-- The schedules of producers that push and consumers that pop, by any of the overloads.
def PushPopOnly (_ : System config Data) : Action config Data → Prop
  | .call _ call => call.isPush = true ∨ call.isPop = true
  | .step _ => True

instance (system : System config Data) (action : Action config Data) : Decidable (PushPopOnly system action) :=
  match action with
  | .call _ _ => inferInstanceAs (Decidable (_ ∨ _))
  | .step _ => isTrue trivial

def Event.isSwapped : Event config Data → Bool
  | .swapped _ _ _ _ _ => true
  | _ => false

theorem history_untouched (log : List (Event config Data)) (none : ∀ event ∈ log, event.isSwapped = false) :
    Fifo.Untouched (history log) := by
  intro number old new member
  obtain ⟨event, present, acts⟩ := List.mem_filterMap.mp member
  have plain := none event (List.mem_reverse.mp present)
  cases event <;> simp [Event.op, Event.isSwapped] at acts plain

variable [DecidableEq Data] [Zero Data]

structure NoSwap (system : System config Data) : Prop where
  calls : ∀ thread task, system.tasks thread = some task → task.call.isPush = true ∨ task.call.isPop = true
  log : ∀ event ∈ system.log, event.isSwapped = false

theorem exec_swap_kind (memory : Memory config Data) (pc : Pc config Data) (i : Index config) (old new : Data)
    (acts : (exec memory pc).act = some (.swapped i old new)) : pc.kind = .exchange i old new := by
  cases pc with
  | pushLoad d => cases acts
  | pushRead d wrIndex => cases acts
  | pushFill d wrIndex => simp only [exec] at acts; split at acts <;> cases acts
  | pushDone d wrIndex => rw [exec_done] at acts; split at acts <;> cases acts
  | pushAdvance d wrIndex => rw [exec_push_advance] at acts; split at acts <;> cases acts
  | readLoad loop => cases acts
  | readSlot loop rdIndex => cases acts
  | take loop rdIndex e => simp only [exec] at acts; split at acts <;> cases acts
  | takeDone loop rdIndex e => rw [exec_take_done] at acts; split at acts <;> cases acts
  | readAdvance loop rdIndex => rw [exec_read_advance] at acts; split at acts <;> cases acts
  | exchange i old new => simp only [exec] at acts; split at acts <;> cases acts; rfl

theorem no_swap_reached (system : System config Data) (reached : System.Reached PushPopOnly system) : NoSwap system := by
  refine (reached_induction PushPopOnly NoSwap ⟨by simp [System.initial], by simp [System.initial]⟩ ?_ ?_ system reached).2
  · intro before thread call _ _ quiet _ allowed
    refine ⟨?_, quiet.log⟩
    intro other task running
    rcases start_call_cases before thread other call task running with ⟨_, rfl⟩ | ⟨_, earlier⟩
    · exact allowed
    · exact quiet.calls other task earlier
  · intro before thread task _ inv quiet _ running _
    refine ⟨?_, ?_⟩
    · intro other next present
      rcases step_task_cases before thread other task next present with ⟨rfl, continues⟩ | ⟨_, earlier⟩
      · rw [resume_call task next _ continues]
        exact quiet.calls other task running
      · exact quiet.calls other next earlier
    · intro event member
      rcases List.mem_append.mp member with fresh | old
      · obtain ⟨act, acts, same⟩ := Option.map_eq_some_iff.mp (Option.mem_toList.mp fresh)
        subst same
        cases act with
        | swapped i old new =>
            have kind := exec_swap_kind before.memory task.pc i old new acts
            have runs := inv.runs thread task running
            have calls := quiet.calls thread task running
            rw [kind] at runs
            cases call : task.call <;> simp [call, Call.Runs, Call.isPush, Call.isPop] at runs calls
        | _ => rfl
      · exact quiet.log event old

-- What a call that is one push gives back: `told` is what it does with its index.
theorem push_answers (promise : System config Data → Action config Data → Prop) (system : System config Data)
    (reached : System.Reached promise system) (thread : Nat) (task : Task config Data) (d : Data) (reply : Reply config Data)
    (running : system.tasks thread = some task) (timely : system.InTime thread task) (single : task.call.single = true)
    (kind : task.pc.kind = .push d) (given : (resume task (exec system.memory task.pc).next).2 = some reply)
    (told : Index config → Option (Index config)) (refused : (resume task (.pushed none)).2 = some .failed)
    (accepted : ∀ i, (resume task (.pushed (some i))).2 = some (.done none (told i))) :
    reply = .failed ∧ (system.stepTask thread task).mark thread = none ∨
      ∃ k, (system.stepTask thread task).mark thread = some k ∧ (storedValues (system.stepTask thread task).log)[k]? = some d ∧
        reply = .done none (told (config.number k)) := by
  have inv := invariant_reached promise system reached
  rcases push_loop_step thread system task d inv running timely kind with ⟨pc, goes⟩ | full | ⟨k, stored, stamped, value⟩
  · rw [goes] at given
    cases given
  · refine .inl ⟨?_, ?_⟩
    · rw [full, refused] at given
      exact (Option.some.inj given).symm
    · rcases push_exits system.memory d task.pc kind _ full with ⟨pc, goes⟩ | ⟨_, wrIndex, place, _⟩ | ⟨wrIndex, stored, _⟩
      · cases goes
      · exact unmarked_step thread promise system reached task running single (by rw [place]; rfl) (by rw [place]; rfl)
      · cases stored
  · rw [stored, accepted] at given
    exact .inr ⟨k, stamped, value, (Option.some.inj given).symm⟩

theorem pop_answers (promise : System config Data → Action config Data → Prop) (system : System config Data)
    (reached : System.Reached promise system) (thread : Nat) (task : Task config Data) (reply : Reply config Data)
    (running : system.tasks thread = some task) (timely : system.InTime thread task) (single : task.call.single = true)
    (kind : task.pc.kind = .read .pop) (given : (resume task (exec system.memory task.pc).next).2 = some reply)
    (told : Index config → Option (Index config)) (refused : (resume task (.popped none)).2 = some .failed)
    (accepted : ∀ i v, (resume task (.popped (some (i, v)))).2 = some (.done (some v) (told i))) :
    reply = .failed ∧ (system.stepTask thread task).mark thread = none ∨
      ∃ k v, (system.stepTask thread task).mark thread = some k ∧ (takenValues (system.stepTask thread task).log)[k]? = some v ∧
        reply = .done (some v) (told (config.number k)) := by
  have inv := invariant_reached promise system reached
  rcases read_loop_step thread system task .pop inv running timely kind with
    ⟨pc, goes⟩ | ⟨rdIndex, place, looked⟩ | ⟨e, k, took, _, _, stamped, value⟩
  · rw [goes] at given
    cases given
  · rcases pop_slot_cases rdIndex (system.memory.entry rdIndex) with ⟨pc, goes⟩ | none
    · rw [looked, readSlot, goes] at given
      cases given
    · rw [looked, readSlot, none, refused] at given
      exact .inl ⟨(Option.some.inj given).symm,
        unmarked_step thread promise system reached task running single (by rw [place]; rfl) (by rw [place]; rfl)⟩
  · rw [took] at given
    exact .inr ⟨k, e.data, stamped, value, (Option.some.inj ((accepted _ _).symm.trans given)).symm⟩

-- The k-th pop takes what the k-th push stored, and the queue never holds fewer than none or more
-- than its size. A call that returns true has the number of its own CAS: it stored or took the
-- element of that number, and the index it reports is the index of that number.
theorem push_pop_fifo (system : System config Data) (reached : System.Reached PushPopOnly system) :
    (∀ (k : Nat) (v : Data), (takenValues system.log)[k]? = some v → (storedValues system.log)[k]? = some v) ∧
      (takes system.log ≤ stores system.log ∧ stores system.log ≤ takes system.log + config.size) ∧
      ∀ thread after, system.Timely (.step thread) → system.next (.step thread) = some after →
        (∀ d reply, system.Returns thread (.push d) reply → reply = .failed ∧ after.mark thread = none ∨
          ∃ k, after.mark thread = some k ∧ (storedValues after.log)[k]? = some d ∧ reply = .done none none) ∧
        (∀ d reply, system.Returns thread (.pushIndex d) reply → reply = .failed ∧ after.mark thread = none ∨
          ∃ k, after.mark thread = some k ∧ (storedValues after.log)[k]? = some d ∧ reply = .done none (some (config.number k))) ∧
        (∀ reply, system.Returns thread .pop reply → reply = .failed ∧ after.mark thread = none ∨
          ∃ k v, after.mark thread = some k ∧ (takenValues after.log)[k]? = some v ∧ reply = .done (some v) none) ∧
        (∀ reply, system.Returns thread .popIndex reply → reply = .failed ∧ after.mark thread = none ∨
          ∃ k v, after.mark thread = some k ∧ (takenValues after.log)[k]? = some v ∧
            reply = .done (some v) (some (config.number k))) := by
  have inv := invariant_reached PushPopOnly system reached
  have quiet := no_swap_reached system reached
  obtain ⟨queue, legal, represents⟩ := inv.holds
  obtain ⟨total, first⟩ := contents_counts system.log queue legal
  have bound := Fifo.total_bound queue
  refine ⟨?_, by omega, ?_⟩
  · intro k v taken
    have order : storedValues system.log = takenValues system.log ++ queue.items :=
      Fifo.history_order (history system.log) queue (history_untouched system.log quiet.log) legal
    rw [order, List.getElem?_append_left (List.getElem?_eq_some_iff.mp taken).1]
    exact taken
  · intro thread after timely moved
    have stepped (task : Task config Data) (running : system.tasks thread = some task) : system.stepTask thread task = after := by
      simpa [System.next, running] using moved
    have kind (task : Task config Data) (running : system.tasks thread = some task) : task.call.Runs task.pc.kind :=
      inv.runs thread task running
    refine ⟨?_, ?_, ?_, ?_⟩
    · rintro d reply ⟨⟨call, count, pc⟩, running, rfl, given⟩
      rw [← stepped _ running]
      exact push_answers PushPopOnly system reached thread _ d reply running (timely _ running) rfl (kind _ running) given
        (fun _ => none) rfl fun _ => rfl
    · rintro d reply ⟨⟨call, count, pc⟩, running, rfl, given⟩
      rw [← stepped _ running]
      exact push_answers PushPopOnly system reached thread _ d reply running (timely _ running) rfl (kind _ running) given
        some rfl fun _ => rfl
    · rintro reply ⟨⟨call, count, pc⟩, running, rfl, given⟩
      rw [← stepped _ running]
      exact pop_answers PushPopOnly system reached thread _ reply running (timely _ running) rfl (kind _ running) given
        (fun _ => none) rfl fun _ _ => rfl
    · rintro reply ⟨⟨call, count, pc⟩, running, rfl, given⟩
      rw [← stepped _ running]
      exact pop_answers PushPopOnly system reached thread _ reply running (timely _ running) rfl (kind _ running) given
        some rfl fun _ _ => rfl

end

-- A producer and a consumer one after the other; the consumer is about to report its index.
def pushThenPop : List (Action smallQueue Nat) :=
  [.call 0 (.pushIndex 7), .step 0, .step 0, .step 0, .step 0, .call 1 .popIndex, .step 1, .step 1, .step 1]

theorem push_then_pop_runs : (System.checked PushPopOnly pushThenPop).isSome = true := by decide +kernel

theorem push_pop_fifo_run :
    let system := (System.checked PushPopOnly pushThenPop).get push_then_pop_runs
    let after := system.stepTask 1 ⟨.popIndex, 0, .takeDone .pop 0 ⟨7, 1⟩⟩
    (storedValues system.log)[0]? = some 7 ∧ (takes system.log ≤ stores system.log ∧ stores system.log ≤ takes system.log + 2) ∧
      ∃ k, after.mark 1 = some k ∧ (takenValues after.log)[k]? = some 7 ∧ (0 : Index smallQueue) = smallQueue.number k := by
  intro system after
  have fifo := push_pop_fifo system (reached_checked PushPopOnly pushThenPop push_then_pop_runs)
  have running : system.tasks 1 = some ⟨.popIndex, 0, .takeDone .pop 0 ⟨7, 1⟩⟩ := by rfl
  have timely : system.Timely (.step 1) := by decide +kernel
  have moved : system.next (.step 1) = some after := by rfl
  obtain ⟨_, _, _, reports⟩ := fifo.2.2 1 after timely moved
  obtain ⟨k, v, stamped, value, same⟩ :=
    (reports (.done (some 7) (some 0)) ⟨_, running, rfl, rfl⟩).resolve_left fun failed => by cases failed.1
  obtain ⟨rfl, index⟩ : 7 = v ∧ (0 : Index smallQueue) = smallQueue.number k := by simpa using same
  exact ⟨fifo.1 0 7 (by decide +kernel), fifo.2.1, k, stamped, value, index⟩

end LockfreeQueue
