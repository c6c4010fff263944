import LockfreeQueue.System

set_option autoImplicit false

namespace LockfreeQueue

section

variable {config : Config} {Data : Type} (event : Event config Data) (log : List (Event config Data))

@[simp] theorem stores_nil : stores ([] : List (Event config Data)) = 0 := rfl
@[simp] theorem takes_nil : takes ([] : List (Event config Data)) = 0 := rfl

theorem stores_cons : stores (event :: log) = stores log + if event.isStored then 1 else 0 := List.countP_cons
theorem takes_cons : takes (event :: log) = takes log + if event.isTook then 1 else 0 := List.countP_cons
theorem writes_cons : writes (event :: log) = writes log + if event.isWrote then 1 else 0 := List.countP_cons
theorem reads_cons : reads (event :: log) = reads log + if event.isRead then 1 else 0 := List.countP_cons

theorem history_cons : history (event :: log) = history log ++ event.op.toList := by
  rw [history, history, List.reverse_cons, List.filterMap_append]
  cases stored : event.op <;> simp [stored]

theorem stored_values_cons : storedValues (event :: log) = storedValues log ++ Fifo.pushed event.op.toList := by
  rw [storedValues, storedValues, history_cons, Fifo.pushed, Fifo.pushed, Fifo.pushed, List.filterMap_append]

theorem taken_values_cons : takenValues (event :: log) = takenValues log ++ Fifo.popped event.op.toList := by
  rw [takenValues, takenValues, history_cons, Fifo.popped, Fifo.popped, Fifo.popped, List.filterMap_append]

theorem stored_values_length : (storedValues log).length = stores log := by
  induction log with
  | nil => rfl
  | cons event log ih =>
      rw [stored_values_cons, stores_cons, List.length_append, ih]
      cases event <;> rfl

theorem taken_values_length : (takenValues log).length = takes log := by
  induction log with
  | nil => rfl
  | cons event log ih =>
      rw [taken_values_cons, takes_cons, List.length_append, ih]
      cases event <;> rfl

theorem stored_values_keep (k : Nat) (d : Data) (recorded : (storedValues log)[k]? = some d) :
    (storedValues (event :: log))[k]? = some d := by
  rw [stored_values_cons, List.getElem?_append_left (List.getElem?_eq_some_iff.mp recorded).1, recorded]

theorem taken_values_keep (k : Nat) (d : Data) (recorded : (takenValues log)[k]? = some d) :
    (takenValues (event :: log))[k]? = some d := by
  rw [taken_values_cons, List.getElem?_append_left (List.getElem?_eq_some_iff.mp recorded).1, recorded]

theorem stored_values_last (thread : Nat) (d : Data) :
    (storedValues (.stored thread d :: log))[stores log]? = some d := by
  rw [stored_values_cons, ← stored_values_length, List.getElem?_append_right (Nat.le_refl _), Nat.sub_self]
  rfl

theorem taken_values_last (thread : Nat) (d : Data) (lost : Bool) :
    (takenValues (.took thread d lost :: log))[takes log]? = some d := by
  rw [taken_values_cons, ← taken_values_length, List.getElem?_append_right (Nat.le_refl _), Nat.sub_self]
  rfl

theorem stored_values_bound (k : Nat) (d : Data) (recorded : (storedValues log)[k]? = some d) : k < stores log := by
  rw [← stored_values_length]
  exact (List.getElem?_eq_some_iff.mp recorded).1

theorem taken_values_bound (k : Nat) (d : Data) (recorded : (takenValues log)[k]? = some d) : k < takes log := by
  rw [← taken_values_length]
  exact (List.getElem?_eq_some_iff.mp recorded).1

theorem taken_values_other (other : event.isTook = false) : takenValues (event :: log) = takenValues log := by
  rw [taken_values_cons]
  cases event with
  | took thread d lost => cases other
  | _ => exact List.append_nil _

theorem taken_values_took (thread : Nat) (d v : Data) (lost : Bool) (k : Nat)
    (recorded : (takenValues (.took thread d lost :: log))[k]? = some v) :
    (takenValues log)[k]? = some v ∨ (k = takes log ∧ v = d) := by
  rcases Nat.lt_or_ge k (takenValues log).length with earlier | last
  · rw [taken_values_cons, List.getElem?_append_left earlier] at recorded
    exact .inl recorded
  · have bound := taken_values_bound _ k v recorded
    have removes : (Event.took thread d lost : Event config Data).isTook = true := rfl
    rw [takes_cons, removes, if_pos rfl] at bound
    rw [taken_values_length] at last
    have same : k = takes log := by omega
    rw [same, taken_values_last] at recorded
    exact .inr ⟨same, (Option.some.inj recorded).symm⟩

theorem stored_event (positive : 0 < stores log) : ∃ event ∈ log, event.isStored = true := List.countP_pos_iff.mp positive
theorem wrote_event (positive : 0 < writes log) : ∃ event ∈ log, event.isWrote = true := List.countP_pos_iff.mp positive
theorem read_event (positive : 0 < reads log) : ∃ event ∈ log, event.isRead = true := List.countP_pos_iff.mp positive

variable [DecidableEq Data]

theorem contents_nil : contents ([] : List (Event config Data)) = some Fifo.empty := rfl

theorem contents_op (op : Fifo.Op Data) (acts : event.op = some op) :
    contents (event :: log) = (contents log).bind fun queue => queue.perform op := by
  rw [contents, contents, history_cons, Transition.run_append, acts]
  congr 1
  funext queue
  simp [Transition.run, Fifo.machine]

theorem contents_silent (silent : event.op = none) : contents (event :: log) = contents log := by
  rw [contents, contents, history_cons, silent, Option.toList_none, List.append_nil]

theorem contents_counts (queue : Fifo Data config.size) (legal : contents log = some queue) :
    queue.total = stores log ∧ queue.first = takes log := by
  rw [← stored_values_length, ← taken_values_length]
  exact Fifo.history_counts (history log) queue legal

end

end LockfreeQueue
