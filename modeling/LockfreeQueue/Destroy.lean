import LockfreeQueue.Lagging
import LockfreeQueue.Reached

set_option autoImplicit false

namespace LockfreeQueue

section

variable {config : Config} {Data : Type} [Zero Data] (memory : Memory config Data) (queue : Fifo Data config.size)
variable (written consumed : Nat)

-- An empty queue has every slot cleared and marked for a push to come.
theorem represents_cleared (represents : Represents memory queue written consumed) (empty : queue.items = []) (place : Fin config.size) :
    ∃ k, memory.array place = ⟨0, config.emptySeq k⟩ := by
  have none : queue.total = queue.first := by rw [Fifo.total, empty]; rfl
  obtain ⟨k, lower, _, _, ⟨held, _⟩ | ⟨_, stored⟩⟩ := slot_cases memory queue written consumed place.val represents
  · omega
  · refine ⟨k, ?_⟩
    rw [entry_place memory place.val place (Nat.mod_eq_of_lt place.isLt).symm, stored]

variable [DecidableEq Data]

-- ~mpmc_queue(): it pops until pop returns false. The values are those it has popped, and the
-- count is that of its loads of the read index.
inductive Destroyed : Memory config Data → List Data → Nat → Memory config Data → Prop where
  | stop (memory final : Memory config Data) (loads : Nat)
      (alone : CallAlone memory (Call.pop : Call config Data).start loads final .failed) : Destroyed memory [] loads final
  | next (memory middle final : Memory config Data) (v : Data) (values : List Data) (loads rest : Nat)
      (alone : CallAlone memory (Call.pop : Call config Data).start loads middle (.done (some v) none))
      (later : Destroyed middle values rest final) : Destroyed memory (v :: values) (loads + rest) final

-- What one pop of the destructor leaves, in whatever mode and wherever the read index lags.
def PopLeaves : Prop :=
  match queue.pop? with
  | some (v, next) => ∃ loads final consumed, loads ≤ 2 ∧
      CallAlone memory (Call.pop : Call config Data).start loads final (.done (some v) none) ∧ Represents final next written consumed
  | none => ∃ loads final consumed, loads ≤ 2 ∧ CallAlone memory (Call.pop : Call config Data).start loads final .failed ∧
      Represents final queue written consumed

theorem pop_leaves (represents : Represents memory queue written consumed) : PopLeaves memory queue written := by
  obtain ⟨loads, final, outcome, bound, run, answer⟩ := pop_alone memory queue written consumed represents
  rw [PopAnswer] at answer
  rw [PopLeaves]
  cases popped : queue.pop? with
  | none =>
      rw [popped] at answer
      obtain ⟨rfl, consumed, left⟩ := answer
      exact ⟨loads, final, consumed, bound, call_loop_returns memory final (Call.pop).start _ loads _ _ run rfl, left⟩
  | some pair =>
      obtain ⟨v, next⟩ := pair
      rw [popped] at answer
      obtain ⟨rfl, consumed, left⟩ := answer
      exact ⟨loads, final, consumed, bound, call_loop_returns memory final (Call.pop).start _ loads _ _ run rfl, left⟩

-- The induction is on the elements that are left.
theorem destroyed_drains (represents : Represents memory queue written consumed) :
    ∃ loads final left consumed, loads ≤ 2 * (queue.items.length + 1) ∧ Destroyed memory queue.items loads final ∧
      left.items = [] ∧ Represents final left written consumed := by
  induction items : queue.items generalizing memory queue consumed with
  | nil =>
      have popped : queue.pop? = none := by
        apply (Fifo.pop_none queue).mpr
        rw [Fifo.total, items]
        rfl
      have leaves := pop_leaves memory queue written consumed represents
      rw [PopLeaves, popped] at leaves
      obtain ⟨loads, final, after, bound, alone, left⟩ := leaves
      exact ⟨loads, final, queue, after, bound, .stop memory final loads alone, items, left⟩
  | cons v values ih =>
      obtain ⟨head, next, popped⟩ := Fifo.pop_held queue (by rw [items]; exact List.cons_ne_nil v values)
      obtain ⟨split, _⟩ := Fifo.pop_items queue next head popped
      rw [items] at split
      obtain ⟨rfl, rest⟩ := List.cons.inj split
      have leaves := pop_leaves memory queue written consumed represents
      rw [PopLeaves, popped] at leaves
      obtain ⟨loads, middle, after, bound, alone, left⟩ := leaves
      obtain ⟨more, final, empty, last, few, later, none, ended⟩ := ih middle next after left rest.symm
      refine ⟨loads + more, final, empty, last, ?_, .next memory middle final v values loads more alone later, none, ended⟩
      rw [List.length_cons]
      omega

theorem destroyed_unique (values others : List Data) (loads more : Nat) (final last : Memory config Data)
    (first : Destroyed memory values loads final) (second : Destroyed memory others more last) : values = others ∧ final = last := by
  induction first generalizing others more with
  | stop memory final loads alone =>
      cases second with
      | stop _ _ _ again => exact ⟨rfl, (call_alone_unique memory _ _ _ _ _ _ _ alone again).1⟩
      | next _ _ _ v _ _ _ again later => cases (call_alone_unique memory _ _ _ _ _ _ _ alone again).2
  | next memory middle final v values loads rest alone later ih =>
      cases second with
      | stop _ _ _ again => cases (call_alone_unique memory _ _ _ _ _ _ _ alone again).2
      | next _ between _ other _ _ _ again further =>
          obtain ⟨same, reply⟩ := call_alone_unique memory _ _ _ _ _ _ _ alone again
          subst same
          cases reply
          obtain ⟨equal, ended⟩ := ih _ _ further
          exact ⟨by rw [equal], ended⟩

-- From whatever state the calls have left, the destructor ends and takes out the elements that
-- nobody has popped, each once and in their order, and leaves every slot cleared.
theorem destructor_drains (system : System config Data) (reached : System.Reached Unrestricted system) :
    ∃ queue loads final, contents system.log = some queue ∧ Destroyed system.memory queue.items loads final ∧
      loads ≤ 2 * (queue.items.length + 1) ∧
      (∀ values more last, Destroyed system.memory values more last → values = queue.items ∧ last = final) ∧
      (Fifo.Untouched (history system.log) → storedValues system.log = takenValues system.log ++ queue.items) ∧
      ∀ place, ∃ k, final.array place = ⟨0, config.emptySeq k⟩ := by
  obtain ⟨queue, legal, represents⟩ := (invariant_reached Unrestricted system reached).holds
  obtain ⟨loads, final, left, consumed, few, drained, empty, last⟩ := destroyed_drains system.memory queue _ _ represents
  refine ⟨queue, loads, final, legal, drained, few, fun values more other again => ?_, fun untouched => ?_, fun place => ?_⟩
  · exact destroyed_unique system.memory values queue.items more loads other final again drained
  · exact Fifo.history_order (history system.log) queue untouched legal
  · exact represents_cleared final left _ _ last empty place

end

-- Three pushes on two slots, and a pop that leaves the read index behind.
def lazyPushes : List (Action lazyQueue Nat) :=
  .call 0 (.push 7) :: List.replicate 4 (.step 0) ++ .call 1 (.push 8) :: List.replicate 4 (.step 1) ++
    .call 0 .pop :: List.replicate 3 (.step 0) ++ .call 1 (.push 9) :: List.replicate 4 (.step 1)

theorem lazy_pushes_run : (System.checked Unrestricted lazyPushes).isSome = true := by decide +kernel

theorem destructor_drains_lazy :
    let system := (System.checked Unrestricted lazyPushes).get lazy_pushes_run
    ∃ loads final, loads ≤ 6 ∧ Destroyed system.memory [8, 9] loads final := by
  intro system
  have reached : System.Reached Unrestricted system := reached_checked Unrestricted lazyPushes lazy_pushes_run
  have left : (contents system.log).map Fifo.items = some [8, 9] := by decide +kernel
  clear_value system
  obtain ⟨queue, loads, final, legal, drained, few, _⟩ := destructor_drains system reached
  rw [legal] at left
  have items : queue.items = [8, 9] := Option.some.inj left
  rw [items] at drained few
  exact ⟨loads, final, few, drained⟩

end LockfreeQueue
