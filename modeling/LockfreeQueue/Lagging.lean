import LockfreeQueue.Histories

set_option autoImplicit false

namespace LockfreeQueue

section

variable {config : Config} {Data : Type} [DecidableEq Data]

theorem peek_succeeds (queue : Fifo Data config.size) :
    ((Call.peek : Call config Data).reference queue).2.succeeds = true ↔ queue.first < queue.total := by
  have bound := Fifo.total_bound queue
  rw [Call.reference]
  cases popped : queue.pop? with
  | none =>
      have emptied := (Fifo.pop_none queue).mp popped
      simp [Reply.succeeds]
      omega
  | some pair =>
      have held : queue.total ≠ queue.first := fun emptied => by rw [(Fifo.pop_none queue).mpr emptied] at popped; cases popped
      simp [Reply.succeeds]
      omega

theorem peek_index_succeeds (queue : Fifo Data config.size) : (peekIndexReply queue).succeeds = true ↔ queue.first < queue.total := by
  rw [← peek_succeeds queue, peekIndexReply, Call.reference]
  cases queue.pop? <;> simp [Reply.succeeds]

variable [Zero Data] (memory : Memory config Data)
variable (queue : Fifo Data config.size) (calls : List (Call config Data)) (replies : List (Reply config Data))

-- What the two peeks and pop_if owe a caller that runs alone: they return, and a peek succeeds
-- just where there is an element.
def LooksReturn : Prop :=
  (∃ reply, Replies memory .peek reply ∧ (reply.succeeds = true ↔ queue.first < queue.total)) ∧
    (∃ reply, Replies memory .peekIndex reply ∧ (reply.succeeds = true ↔ queue.first < queue.total)) ∧
    ∀ f, ∃ reply, Replies memory (.popIf f) reply

def EmptyExact : Prop :=
  ∃ reply, Replies memory .empty reply ∧ (reply.succeeds = true ↔ queue.total = queue.first)

-- In a lazy mode the read index may be one behind, and the carry into its top bit then hides
-- the slot's next lap from peek and pop_if, which load the same slot for ever.
theorem looks_return_iff (settled : Settled memory queue) : LooksReturn memory queue ↔ memory.Visible queue.first := by
  constructor
  · intro ⟨⟨reply, ⟨loads, final, alone⟩, _⟩, _⟩
    by_contra hidden
    exact hidden_never_returns memory final queue .peek loads reply settled rfl hidden alone
  · intro visible
    obtain ⟨peek, peekIndex⟩ := peek_call memory queue settled visible
    refine ⟨⟨_, settles_replies memory queue _ _ peek, peek_succeeds queue⟩,
      ⟨_, settles_replies memory queue _ _ peekIndex, peek_index_succeeds queue⟩, ?_⟩
    intro f
    exact ⟨_, settles_replies memory _ _ _ (pop_if_call memory queue f settled visible)⟩

theorem empty_exact_settled (settled : Settled memory queue) :
    EmptyExact memory queue ↔ queue.first < queue.total ∨ memory.readIndex = config.number queue.first := by
  have bound := Fifo.total_bound queue
  have answer := settles_replies memory queue _ _ (empty_call memory queue settled)
  constructor
  · intro ⟨reply, given, exact⟩
    rw [replies_unique memory .empty reply _ given answer, emptyReply] at exact
    by_contra wrong
    rw [not_or] at wrong
    rw [if_neg (fun both => wrong.2 both.1)] at exact
    exact absurd (exact.mpr (by omega)) Bool.noConfusion
  · intro condition
    refine ⟨_, answer, ?_⟩
    rw [emptyReply]
    by_cases emptied : queue.total = queue.first
    · rw [if_pos ⟨condition.resolve_left (by omega), emptied⟩]
      exact ⟨fun _ => emptied, fun _ => rfl⟩
    · rw [if_neg (fun both => emptied both.2)]
      exact ⟨fun failed => Bool.noConfusion failed, fun same => absurd same emptied⟩

-- Where pop is not lazy, both are as the callers expect at any age of the queue.
theorem eager_exact (run : History (Memory.initial config Data) calls replies memory) (eager : config.lazyPop = false) :
    LooksReturn memory (after calls) ∧ EmptyExact memory (after calls) := by
  have settled := reached_settled memory calls replies run
  have read := settled_read memory (after calls) settled eager
  exact ⟨(looks_return_iff memory _ settled).mpr (.inl read), (empty_exact_settled memory _ settled).mpr (.inr read)⟩

theorem peek_returns_iff (run : History (Memory.initial config Data) calls replies memory) :
    LooksReturn memory (after calls) ↔ memory.Visible (after calls).first :=
  looks_return_iff memory (after calls) (reached_settled memory calls replies run)

theorem empty_exact_iff (run : History (Memory.initial config Data) calls replies memory) :
    EmptyExact memory (after calls) ↔
      (after calls).first < (after calls).total ∨ memory.readIndex = config.number (after calls).first :=
  empty_exact_settled memory (after calls) (reached_settled memory calls replies run)

end

-- The same queue with a lazy pop.
def lazyQueue : Config := ⟨32, 2, smallQueue.power, smallQueue.wide, false, true⟩

theorem lazy_pair : ∃ memory,
    History (Memory.initial lazyQueue Nat) [.push 7, .pop] [.done none none, .done (some 7) none] memory ∧ memory.readIndex = 0 := by
  have computed : (runCalls 20 (Memory.initial lazyQueue Nat) [.push 7, .pop]).map (fun result => (result.1, result.2.readIndex)) =
      some ([.done none none, .done (some 7) none], 0) := by decide +kernel
  obtain ⟨⟨replies, memory⟩, ran, same⟩ := Option.map_eq_some_iff.mp computed
  obtain ⟨rfl, read⟩ := Prod.mk.inj same
  exact ⟨memory, run_calls_history _ memory 20 _ _ ran, read⟩

theorem peek_returns_pair : ∃ memory,
    History (Memory.initial lazyQueue Nat) [.push 7, .pop] [.done none none, .done (some 7) none] memory ∧
      LooksReturn memory (after [.push 7, .pop]) := by
  obtain ⟨memory, run, read⟩ := lazy_pair
  exact ⟨memory, run, (peek_returns_iff memory _ _ run).mpr (.inr (by rw [read]; decide))⟩

-- After 2 ^ 31 - 1 elements the queue is empty and no call that looks at it returns.
theorem peek_returns_carried : ∃ replies memory,
    History (Memory.initial lazyQueue Nat) (pairs 0 (2 ^ 31 - 1)) replies memory ∧
      ¬ LooksReturn memory (after (pairs 0 (2 ^ 31 - 1))) ∧
      ∀ call, call.looks = true → ∀ reply, ¬ Replies memory call reply := by
  obtain ⟨replies, memory, run, read⟩ := @pairs_run lazyQueue Nat _ _ 0 (2 ^ 31 - 1)
  have settled := reached_settled memory _ replies run
  have index := read (by decide)
  have first := (@pairs_after lazyQueue Nat _ 0 (2 ^ 31 - 1)).1
  have hidden : ¬ memory.Visible (after (pairs 0 (2 ^ 31 - 1) : List (Call lazyQueue Nat))).first := by
    rw [Memory.Visible, index, first]
    decide
  refine ⟨replies, memory, run, fun returns => hidden ((looks_return_iff memory _ settled).mp returns), ?_⟩
  rintro call looks reply ⟨loads, final, alone⟩
  exact hidden_never_returns memory final _ call loads reply settled looks hidden alone

theorem empty_exact_held : ∃ replies memory, History (Memory.initial lazyQueue Nat) [.push 7] replies memory ∧
    EmptyExact memory (after [.push 7]) := by
  obtain ⟨reply, memory, run⟩ := reached_call (Memory.initial lazyQueue Nat) [] [] (.push 7) (.done _) rfl
  exact ⟨_, memory, run, (empty_exact_iff memory _ _ run).mpr (.inl (by decide))⟩

-- After one push and one pop nothing is held, and empty answers that something is.
theorem empty_exact_lagging : ∃ memory,
    History (Memory.initial lazyQueue Nat) [.push 7, .pop] [.done none none, .done (some 7) none] memory ∧
      Replies memory .empty .failed ∧ ¬ EmptyExact memory (after [.push 7, .pop]) := by
  obtain ⟨memory, run, read⟩ := lazy_pair
  have settled := reached_settled memory _ _ run
  have answer := settles_replies memory _ _ _ (empty_call memory _ settled)
  have first : (after [.push 7, .pop] : Fifo Nat lazyQueue.size).first = 1 := by decide
  have total : (after [.push 7, .pop] : Fifo Nat lazyQueue.size).total = 1 := by decide
  have lags : memory.readIndex ≠ lazyQueue.number 1 := by rw [read]; decide
  rw [emptyReply, first, if_neg (fun both => lags both.1)] at answer
  refine ⟨memory, run, answer, fun exact => ?_⟩
  rcases (empty_exact_settled memory _ settled).mp exact with held | current
  · omega
  · rw [first] at current
    exact lags current

end LockfreeQueue
