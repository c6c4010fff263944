import LockfreeQueue.Reached

set_option autoImplicit false

namespace LockfreeQueue

section

variable {config : Config} {Data : Type}

-- The places after the CAS on a slot, where only an index is left to move.
def Pc.committed : Pc config Data → Bool
  | .pushDone _ _ | .takeDone _ _ _ => true
  | _ => false

-- The calls that return with their first loop, and so push or remove one element at most.
def Call.single : Call config Data → Bool
  | .pushKeepN _ | .pushKeepNIndex _ | .consume _ => false
  | _ => true

theorem single_goes (task after : Task config Data) (next : Next config Data) (single : task.call.single = true)
    (continues : (resume task next).1 = some after) : next = .goto after.pc := by
  cases next with
  | goto pc =>
      cases continues
      rfl
  | pushed result => cases result <;> cases call : task.call <;> simp [resume, call, Call.single] at continues single
  | popped result => cases result <;> cases call : task.call <;> simp [resume, call, Call.single] at continues single
  | peeked e => cases call : task.call <;> simp [resume, call] at continues
  | reply reply => cases continues

variable [DecidableEq Data]

def oldest (log : List (Event config Data)) : Option Data := (contents log).bind fun queue => queue.get? queue.first

theorem oldest_eq (log : List (Event config Data)) (queue : Fifo Data config.size) (legal : contents log = some queue) :
    oldest log = queue.get? queue.first := by
  rw [oldest, legal, Option.bind_some]

theorem empty_answer (memory : Memory config Data) (log : List (Event config Data)) (queue : Fifo Data config.size) (x : Nat)
    (branch : PopBranch) (legal : contents log = some queue)
    (sound : PopSound memory queue (reads log) x branch) (empty : branch = .empty) : stores log = takes log := by
  obtain ⟨total, first⟩ := contents_counts log queue legal
  subst empty
  rw [← total, ← first]
  exact sound

theorem head_answer (memory : Memory config Data) (log : List (Event config Data)) (queue : Fifo Data config.size) (x : Nat)
    (branch : PopBranch) (legal : contents log = some queue)
    (sound : PopSound memory queue (reads log) x branch) (take : branch = .take) :
    oldest log = some (memory.entry (config.number x)).data ∧
      (memory.entry (config.number x)).seq = config.fullSeq (takes log) := by
  obtain ⟨_, first⟩ := contents_counts log queue legal
  subst take
  obtain ⟨current, v, value, stored⟩ := sound
  rw [oldest_eq log queue legal, stored, value, current, first]
  exact ⟨rfl, rfl⟩

variable [Zero Data] (memory : Memory config Data) (log since : List (Event config Data)) (mark : Option Nat) (thread : Nat)
variable (call : Call config Data)

theorem push_exits (d : Data) (pc : Pc config Data) (kind : pc.kind = .push d) (next : Next config Data)
    (step : (exec memory pc).next = next) :
    (∃ after, next = .goto after) ∨
      (next = .pushed none ∧ ∃ wrIndex, pc = .pushRead d wrIndex ∧ pushBranch config wrIndex (memory.entry wrIndex).seq = .full) ∨
      ∃ wrIndex, next = .pushed (some wrIndex) ∧
        (pc = .pushFill d wrIndex ∧ memory.entry wrIndex = ⟨0, wrIndex <<< 1⟩ ∨ pc = .pushDone d wrIndex) := by
  subst step
  cases pc with
  | pushLoad value => exact .inl ⟨_, rfl⟩
  | pushRead value wrIndex =>
      cases kind
      simp only [exec, pushSlot]
      split
      · exact .inl ⟨_, rfl⟩
      · exact .inl ⟨_, rfl⟩
      · rename_i branch
        exact .inr (.inl ⟨rfl, wrIndex, rfl, branch⟩)
      · exact .inl ⟨_, rfl⟩
  | pushFill value wrIndex =>
      cases kind
      by_cases hit : memory.entry wrIndex = ⟨0, wrIndex <<< 1⟩
      · rw [exec_fill_hit memory d wrIndex hit]
        by_cases lazy : config.lazyPush = true
        · exact .inr (.inr ⟨wrIndex, if_pos lazy, .inl ⟨rfl, hit⟩⟩)
        · exact .inl ⟨_, if_neg lazy⟩
      · rw [exec_fill_miss memory d wrIndex hit]
        exact .inl ⟨_, rfl⟩
  | pushDone value wrIndex =>
      cases kind
      exact .inr (.inr ⟨wrIndex, rfl, .inr rfl⟩)
  | pushAdvance value wrIndex => exact .inl ⟨_, rfl⟩
  | readLoad loop => cases kind
  | readSlot loop rdIndex => cases kind
  | take loop rdIndex e => cases kind
  | takeDone loop rdIndex e => cases kind
  | readAdvance loop rdIndex => cases kind
  | exchange i old new => cases kind

theorem read_exits (loop : ReadLoop config Data) (pc : Pc config Data) (kind : pc.kind = .read loop) (next : Next config Data)
    (step : (exec memory pc).next = next) :
    (∃ after, next = .goto after) ∨
      (∃ rdIndex, pc = .readSlot loop rdIndex ∧ next = readSlot loop rdIndex (memory.entry rdIndex)) ∨
      ∃ rdIndex e, next = taken loop rdIndex e ∧
        (pc = .take loop rdIndex e ∧ memory.entry rdIndex = e ∨ pc = .takeDone loop rdIndex e) := by
  subst step
  cases pc with
  | pushLoad value => cases kind
  | pushRead value wrIndex => cases kind
  | pushFill value wrIndex => cases kind
  | pushDone value wrIndex => cases kind
  | pushAdvance value wrIndex => cases kind
  | readLoad loop => exact .inl ⟨_, rfl⟩
  | readSlot loop rdIndex =>
      cases kind
      exact .inr (.inl ⟨rdIndex, rfl, rfl⟩)
  | take loop rdIndex e =>
      cases kind
      by_cases hit : memory.entry rdIndex = e
      · rw [exec_take_hit memory loop rdIndex e hit]
        by_cases lazy : config.lazyPop = true
        · exact .inr (.inr ⟨rdIndex, e, if_pos lazy, .inl ⟨rfl, hit⟩⟩)
        · exact .inl ⟨_, if_neg lazy⟩
      · rw [exec_take_miss memory loop rdIndex e hit]
        exact .inl ⟨_, rfl⟩
  | takeDone loop rdIndex e =>
      cases kind
      exact .inr (.inr ⟨rdIndex, e, rfl, .inr rfl⟩)
  | readAdvance loop rdIndex => exact .inl ⟨_, rfl⟩
  | exchange i old new => cases kind

theorem push_outcome (d : Data) (pc : Pc config Data) (wrIndex : Index config) (holds : Holds memory log)
    (known : LocalInv memory log since mark thread pc)
    (timely : pc.inIteration = true → stores since < config.limit ∧ takes since < config.limit)
    (exit : pc = .pushFill d wrIndex ∧ memory.entry wrIndex = ⟨0, wrIndex <<< 1⟩ ∨ pc = .pushDone d wrIndex) :
    ∃ k, marked log mark (exec memory pc).act = some k ∧ wrIndex = config.number k ∧
      (storedValues (recorded log thread call (exec memory pc).act ++ log))[k]? = some d := by
  rcases exit with ⟨rfl, hit⟩ | rfl
  · obtain ⟨queue, legal, represents⟩ := holds
    obtain ⟨total, _⟩ := contents_counts log queue legal
    obtain ⟨index, _, _, _⟩ := fill_current memory log since mark thread d wrIndex queue legal represents known (timely rfl).1 hit
    rw [exec_fill_hit memory d wrIndex hit]
    exact ⟨stores log, rfl, by rw [index, total], stored_values_last log thread d⟩
  · obtain ⟨x, position, stamped, stored⟩ := known
    refine ⟨x, ?_, position.index, ?_⟩
    · rw [exec_done]
      split <;> exact stamped
    · rw [exec_done]
      split
      · exact stored_values_keep _ log x d stored
      · exact stored

-- A pop that returns true gives the value that the log records under its number, and pop_if
-- accepted that value together with the sequence of that number.
theorem take_outcome (loop : ReadLoop config Data) (pc : Pc config Data) (rdIndex : Index config) (e : Entry config Data)
    (holds : Holds memory log) (known : LocalInv memory log since mark thread pc)
    (timely : pc.inIteration = true → stores since < config.limit ∧ takes since < config.limit)
    (exit : pc = .take loop rdIndex e ∧ memory.entry rdIndex = e ∨ pc = .takeDone loop rdIndex e) :
    ∃ k, marked log mark (exec memory pc).act = some k ∧ rdIndex = config.number k ∧ e.seq = config.fullSeq k ∧ Accepts loop e ∧
      (takenValues (recorded log thread call (exec memory pc).act ++ log))[k]? = some e.data := by
  rcases exit with ⟨rfl, hit⟩ | rfl
  · obtain ⟨queue, legal, represents⟩ := holds
    obtain ⟨_, first⟩ := contents_counts log queue legal
    obtain ⟨index, _, _, _, full, accepted⟩ :=
      take_current memory log since mark thread loop rdIndex e queue legal represents known (timely rfl).2 hit
    rw [exec_take_hit memory loop rdIndex e hit]
    exact ⟨takes log, rfl, by rw [index, first], by rw [full, first], accepted, taken_values_last log thread e.data call.discards⟩
  · obtain ⟨x, position, stamped, removed, full, accepted⟩ := known
    refine ⟨x, ?_, position.index, full, accepted, ?_⟩
    · rw [exec_take_done]
      split <;> exact stamped
    · rw [exec_take_done]
      split
      · exact taken_values_keep _ log x e.data removed
      · exact removed

theorem full_answer (d : Data) (wrIndex : Index config) (holds : Holds memory log)
    (known : LocalInv memory log since mark thread (.pushRead d wrIndex)) (timely : stores since < config.limit)
    (branch : pushBranch config wrIndex (memory.entry wrIndex).seq = .full) : stores log = takes log + config.size := by
  obtain ⟨queue, legal, represents⟩ := holds
  obtain ⟨total, first⟩ := contents_counts log queue legal
  obtain ⟨x, position, _⟩ := known
  have behind : x ≤ writes log := by rw [position.loaded]; omega
  have sound := push_branch_sound memory queue _ _ x represents behind
    (push_window log since queue wrIndex x legal position timely)
  rw [← position.index, branch] at sound
  rw [← total, ← first]
  exact sound

theorem look_sound (loop : ReadLoop config Data) (rdIndex : Index config) (holds : Holds memory log)
    (known : LocalInv memory log since mark thread (.readSlot loop rdIndex)) (timely : takes since < config.limit) :
    ∃ queue x, contents log = some queue ∧
      PopSound memory queue (reads log) x (popBranch config rdIndex (memory.entry rdIndex).seq) ∧
      (peekBranch config rdIndex (memory.entry rdIndex).seq ≠ .retry →
        PopSound memory queue (reads log) x (peekBranch config rdIndex (memory.entry rdIndex).seq)) ∧
      rdIndex = config.number x := by
  obtain ⟨queue, legal, represents⟩ := holds
  obtain ⟨x, position, _⟩ := known
  have behind : x ≤ reads log := by rw [position.loaded]; omega
  have fresh := pop_window log since queue rdIndex x legal position timely
  refine ⟨queue, x, legal, ?_, ?_, position.index⟩
  · rw [position.index]
    exact pop_branch_sound memory queue _ _ x represents behind fresh
  · rw [position.index]
    exact peek_branch_sound memory queue _ _ x represents behind fresh

theorem read_loop_step (system : System config Data) (task : Task config Data) (loop : ReadLoop config Data)
    (inv : Invariant system) (running : system.tasks thread = some task) (timely : system.InTime thread task)
    (kind : task.pc.kind = .read loop) :
    (∃ after, (exec system.memory task.pc).next = .goto after) ∨
      (∃ rdIndex, task.pc = .readSlot loop rdIndex ∧
        (exec system.memory task.pc).next = readSlot loop rdIndex (system.memory.entry rdIndex)) ∨
      ∃ e k, (exec system.memory task.pc).next = taken loop (config.number k) e ∧ e.seq = config.fullSeq k ∧ Accepts loop e ∧
        (system.stepTask thread task).mark thread = some k ∧ (takenValues (system.stepTask thread task).log)[k]? = some e.data := by
  have known := inv.locals thread task running
  rcases read_exits system.memory loop task.pc kind _ rfl with goes | looked | ⟨rdIndex, e, took, exit⟩
  · exact .inl goes
  · exact .inr (.inl looked)
  · obtain ⟨k, stamped, number, full, accepted, value⟩ := take_outcome system.memory system.log (system.since thread)
      (system.mark thread) thread task.call loop task.pc rdIndex e inv.holds known timely exit
    refine .inr (.inr ⟨e, k, by rw [took, number], full, accepted, ?_, value⟩)
    simpa [System.stepTask] using stamped

theorem push_loop_step (system : System config Data) (task : Task config Data) (d : Data) (inv : Invariant system)
    (running : system.tasks thread = some task) (timely : system.InTime thread task) (kind : task.pc.kind = .push d) :
    (∃ after, (exec system.memory task.pc).next = .goto after) ∨ (exec system.memory task.pc).next = .pushed none ∨
      ∃ k, (exec system.memory task.pc).next = .pushed (some (config.number k)) ∧
        (system.stepTask thread task).mark thread = some k ∧ (storedValues (system.stepTask thread task).log)[k]? = some d := by
  have known := inv.locals thread task running
  rcases push_exits system.memory d task.pc kind _ rfl with goes | ⟨full, _⟩ | ⟨wrIndex, stored, exit⟩
  · exact .inl goes
  · exact .inr (.inl full)
  · obtain ⟨k, stamped, number, value⟩ := push_outcome system.memory system.log (system.since thread) (system.mark thread)
      thread task.call d task.pc wrIndex inv.holds known timely exit
    refine .inr (.inr ⟨k, by rw [stored, number], ?_, value⟩)
    simpa [System.stepTask] using stamped

-- A step that goes on inside its loop has not done the CAS, or has just done it.
theorem step_goes (pc after : Pc config Data) (goes : (exec memory pc).next = .goto after) :
    after.committed = true ∨ (pc.committed = false ∧ marked log mark (exec memory pc).act = mark) := by
  cases pc with
  | pushLoad d => exact .inr ⟨rfl, rfl⟩
  | pushRead d wrIndex => exact .inr ⟨rfl, rfl⟩
  | pushFill d wrIndex =>
      by_cases hit : memory.entry wrIndex = ⟨0, wrIndex <<< 1⟩
      · rw [exec_fill_hit memory d wrIndex hit] at goes
        simp only at goes
        split at goes <;> cases goes
        exact .inl rfl
      · rw [exec_fill_miss memory d wrIndex hit]
        exact .inr ⟨rfl, rfl⟩
  | pushDone d wrIndex => rw [exec_done] at goes; split at goes <;> cases goes
  | pushAdvance d wrIndex =>
      refine .inr ⟨rfl, ?_⟩
      rw [exec_push_advance]
      split <;> rfl
  | readLoad loop => exact .inr ⟨rfl, rfl⟩
  | readSlot loop rdIndex => exact .inr ⟨rfl, rfl⟩
  | take loop rdIndex e =>
      by_cases hit : memory.entry rdIndex = e
      · rw [exec_take_hit memory loop rdIndex e hit] at goes
        simp only at goes
        split at goes
        · exact absurd goes (taken_no_goto loop rdIndex e after)
        · cases goes
          exact .inl rfl
      · rw [exec_take_miss memory loop rdIndex e hit]
        exact .inr ⟨rfl, rfl⟩
  | takeDone loop rdIndex e =>
      rw [exec_take_done] at goes
      split at goes <;> exact absurd goes (taken_no_goto loop rdIndex e after)
  | readAdvance loop rdIndex =>
      refine .inr ⟨rfl, ?_⟩
      rw [exec_read_advance]
      split <;> rfl
  | exchange i old new => simp only [exec] at goes; split at goes <;> cases goes

-- A call that is one loop has no number before its CAS.
def Unmarked (system : System config Data) : Prop :=
  ∀ thread task, system.tasks thread = some task → task.call.single = true → task.pc.committed = true ∨ system.mark thread = none

theorem unmarked_reached (promise : System config Data → Action config Data → Prop) (system : System config Data)
    (reached : System.Reached promise system) : Unmarked system := by
  refine (reached_induction promise Unmarked ?_ ?_ ?_ system reached).2
  · intro thread task running
    cases running
  · intro before thread call _ _ unmarked _ _ other task running single
    rcases start_call_cases before thread other call task running with ⟨rfl, rfl⟩ | ⟨different, earlier⟩
    · exact .inr (by simp [System.startCall])
    · simp only [System.startCall, Function.update_of_ne different]
      exact unmarked other task earlier single
  · intro before thread task _ _ unmarked _ running _ other next present single
    rcases step_task_cases before thread other task next present with ⟨rfl, continues⟩ | ⟨different, earlier⟩
    · rw [resume_call task next _ continues] at single
      simp only [System.stepTask, Function.update_self]
      have goes := single_goes task next _ single continues
      rcases step_goes before.memory before.log (before.mark other) task.pc next.pc goes with committed | ⟨looking, same⟩
      · exact .inl committed
      · rw [same]
        exact .inr ((unmarked other task running single).resolve_left (by rw [looking]; simp))
    · simp only [System.stepTask, Function.update_of_ne different]
      exact unmarked other next earlier single

-- A step that answers without its CAS leaves the call unmarked.
theorem unmarked_step (promise : System config Data → Action config Data → Prop) (system : System config Data)
    (reached : System.Reached promise system) (task : Task config Data) (running : system.tasks thread = some task)
    (single : task.call.single = true) (looking : task.pc.committed = false) (quiet : (exec system.memory task.pc).act = none) :
    (system.stepTask thread task).mark thread = none := by
  simp only [System.stepTask, Function.update_self, quiet, marked]
  exact (unmarked_reached promise system reached thread task running single).resolve_left (by rw [looking]; simp)

end

end LockfreeQueue
