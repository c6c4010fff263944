import LockfreeQueue.Sequential

set_option autoImplicit false

namespace LockfreeQueue

section

variable {config : Config} {Data : Type}

def Call.looks : Call config Data → Bool
  | .peek | .peekIndex | .popIf _ => true
  | _ => false

def Call.stores : Call config Data → Bool
  | .push _ | .pushIndex _ | .pushKeepN _ | .pushKeepNIndex _ => true
  | _ => false

def Call.takes : Call config Data → Bool
  | .pop | .popIndex | .popIf _ => true
  | _ => false

def Reply.succeeds : Reply config Data → Bool
  | .done _ _ => true
  | _ => false

def pushes (calls : List (Call config Data)) (replies : List (Reply config Data)) : Nat :=
  (calls.zip replies).countP fun pair => pair.1.stores && pair.2.succeeds

def pops (calls : List (Call config Data)) (replies : List (Reply config Data)) : Nat :=
  (calls.zip replies).countP fun pair => pair.1.takes && pair.2.succeeds

theorem pushes_cons (call : Call config Data) (reply : Reply config Data) (calls : List (Call config Data))
    (replies : List (Reply config Data)) : pushes (call :: calls) (reply :: replies) =
      (if call.stores && reply.succeeds then 1 else 0) + pushes calls replies := by
  rw [pushes, pushes, List.zip_cons_cons, List.countP_cons, Nat.add_comm]

theorem pops_cons (call : Call config Data) (reply : Reply config Data) (calls : List (Call config Data))
    (replies : List (Reply config Data)) : pops (call :: calls) (reply :: replies) =
      (if call.takes && reply.succeeds then 1 else 0) + pops calls replies := by
  rw [pops, pops, List.zip_cons_cons, List.countP_cons, Nat.add_comm]

-- Histories that only age the queue: each pair of calls pushes an element and pops it again.
def pairs (d : Data) : Nat → List (Call config Data)
  | 0 => []
  | n + 1 => pairs d n ++ [.push d, .pop]

variable [DecidableEq Data]

-- The queue that a call leaves when it returns, at any age of the queue: an exchange reaches the
-- element whose number has the residue of its index.
def Call.effect (queue : Fifo Data config.size) : Call config Data → Fifo Data config.size
  | .exchange i old new => exchanged queue i old new
  | call => (call.reference queue).1

def afterwards (queue : Fifo Data config.size) (calls : List (Call config Data)) : Fifo Data config.size :=
  calls.foldl Call.effect queue

-- The queue after a history: `total` counts the elements pushed and `first` those removed.
def after (calls : List (Call config Data)) : Fifo Data config.size := afterwards Fifo.empty calls

-- The reply of a call that returns. That of empty also depends on the read index.
def Call.Answers (queue : Fifo Data config.size) (reply : Reply config Data) : Call config Data → Prop
  | .exchange i old _ => reply = exchangeReply queue i old
  | .peekIndex => reply = peekIndexReply queue
  | .empty => reply = .done none none ∨ reply = .failed
  | call => reply = (call.reference queue).2

theorem afterwards_append (queue : Fifo Data config.size) (before later : List (Call config Data)) :
    afterwards queue (before ++ later) = afterwards (afterwards queue before) later :=
  List.foldl_append

theorem exchanged_bounds (queue : Fifo Data config.size) (i : Index config) (old new : Data) :
    (exchanged queue i old new).total = queue.total ∧ (exchanged queue i old new).first = queue.first := by
  rw [exchanged]
  split
  · rename_i next replaced
    exact ⟨Fifo.replace_total queue next _ old new replaced, (Fifo.replace_fields queue next _ old new replaced).2.1⟩
  · exact ⟨rfl, rfl⟩

theorem peek_effect (queue : Fifo Data config.size) (call : Call config Data) (peeks : call = .peek ∨ call = .peekIndex) :
    call.effect queue = queue := by
  rcases peeks with rfl | rfl
  · rw [Call.effect, Call.reference]
    · split <;> rfl
    · simp
  · rw [Call.effect, Call.reference]
    · split <;> rfl
    · simp

theorem push_succeeds (queue : Fifo Data config.size) (d : Data) :
    ((Call.push d).reference queue).2.succeeds = (queue.push? d).isSome ∧
      ((Call.pushIndex d).reference queue).2.succeeds = (queue.push? d).isSome := by
  rw [Call.reference, Call.reference]
  cases queue.push? d with
  | none => exact ⟨rfl, rfl⟩
  | some next => exact ⟨rfl, rfl⟩

theorem pop_succeeds (queue : Fifo Data config.size) :
    ((Call.pop : Call config Data).reference queue).2.succeeds = (queue.pop?).isSome ∧
      ((Call.popIndex : Call config Data).reference queue).2.succeeds = (queue.pop?).isSome := by
  rw [Call.reference, Call.reference]
  cases queue.pop? with
  | none => exact ⟨rfl, rfl⟩
  | some pair => exact ⟨rfl, rfl⟩

-- A successful push adds one to the total, whichever call makes it.
theorem effect_total (queue : Fifo Data config.size) (call : Call config Data) (reply : Reply config Data)
    (answers : call.Answers queue reply) :
    (call.effect queue).total = queue.total + if call.stores && reply.succeeds then 1 else 0 := by
  cases call with
  | push d =>
      change reply = _ at answers
      rw [answers, (push_succeeds queue d).1]
      exact (push_reference_counts queue d).1
  | pushIndex d =>
      change reply = _ at answers
      rw [answers, (push_succeeds queue d).2]
      exact (congrArg Fifo.total (push_twin queue d)).trans (push_reference_counts queue d).1
  | pop => exact (pop_reference_counts queue).1
  | popIndex => exact (congrArg Fifo.total (pop_twin queue)).trans (pop_reference_counts queue).1
  | pushKeepN d =>
      change reply = _ at answers
      rw [answers]
      exact Fifo.push_dropping_total queue config.size_positive d
  | pushKeepNIndex d =>
      change reply = _ at answers
      rw [answers]
      exact Fifo.push_dropping_total queue config.size_positive d
  | exchange i old new => exact (exchanged_bounds queue i old new).1
  | peek => exact congrArg Fifo.total (peek_effect queue .peek (.inl rfl))
  | peekIndex => exact congrArg Fifo.total (peek_effect queue .peekIndex (.inr rfl))
  | popIf f => exact pop_if_reference_total queue f
  | consume f => exact Fifo.drop_total queue _ (Fifo.drained_bound _ _ _)
  | empty => rfl

-- So does a successful pop for the elements removed, where nothing is dropped or consumed.
theorem effect_first (queue : Fifo Data config.size) (call : Call config Data) (reply : Reply config Data)
    (answers : call.Answers queue reply) (single : call.single = true) :
    (call.effect queue).first = queue.first + if call.takes && reply.succeeds then 1 else 0 := by
  cases call with
  | push d => exact (push_reference_counts queue d).2
  | pushIndex d => exact (congrArg Fifo.first (push_twin queue d)).trans (push_reference_counts queue d).2
  | pop =>
      change reply = _ at answers
      rw [answers, (pop_succeeds queue).1]
      exact (pop_reference_counts queue).2
  | popIndex =>
      change reply = _ at answers
      rw [answers, (pop_succeeds queue).2]
      exact (congrArg Fifo.first (pop_twin queue)).trans (pop_reference_counts queue).2
  | pushKeepN d => cases single
  | pushKeepNIndex d => cases single
  | exchange i old new => exact (exchanged_bounds queue i old new).2
  | peek => exact congrArg Fifo.first (peek_effect queue .peek (.inl rfl))
  | peekIndex => exact congrArg Fifo.first (peek_effect queue .peekIndex (.inr rfl))
  | popIf f =>
      simp only [Call.Answers, Call.reference] at answers
      simp only [Call.effect, Call.reference]
      cases popped : queue.pop? with
      | none => simp [answers, popped, Reply.succeeds]
      | some pair =>
          by_cases accepted : f pair.1 (config.fullSeq queue.first) = true
          · simp [answers, popped, accepted, Call.takes, Reply.succeeds, (Fifo.pop_items queue pair.2 pair.1 popped).2]
          · simp [answers, popped, accepted, Reply.succeeds]
  | consume f => cases single
  | empty => rfl

theorem push_effect (queue : Fifo Data config.size) (d : Data) (room : queue.items.length < config.size) :
    ((Call.push d).effect queue).first = queue.first ∧ ((Call.push d).effect queue).items = queue.items ++ [d] := by
  obtain ⟨next, pushed⟩ := Fifo.push_room queue d (by rw [Fifo.total]; omega)
  rw [Call.effect, Call.reference, pushed]
  · exact (Fifo.push_items queue next d pushed).2
  · simp

theorem aging_pair (queue : Fifo Data config.size) (d : Data) (emptied : queue.items = []) :
    (afterwards queue [.push d, .pop]).first = queue.first + 1 ∧ (afterwards queue [.push d, .pop]).items = [] := by
  have positive := config.size_positive
  obtain ⟨first, items⟩ := push_effect queue d (by rw [emptied]; exact positive)
  rw [afterwards, List.foldl_cons, List.foldl_cons, List.foldl_nil]
  generalize (Call.push d).effect queue = next at first items
  rw [emptied, List.nil_append] at items
  obtain ⟨v, last, popped⟩ := Fifo.pop_held next (by rw [items]; exact List.cons_ne_nil d [])
  obtain ⟨rest, moved⟩ := Fifo.pop_items next last v popped
  rw [items] at rest
  rw [Call.effect, Call.reference, popped]
  · exact ⟨by rw [moved, first], (List.cons.inj rest).2.symm⟩
  · simp

theorem aged_queue (queue : Fifo Data config.size) (d : Data) (n : Nat) (emptied : queue.items = []) :
    (afterwards queue (pairs d n)).first = queue.first + n ∧ (afterwards queue (pairs d n)).items = [] := by
  induction n with
  | zero => exact ⟨rfl, emptied⟩
  | succ n ih =>
      obtain ⟨first, items⟩ := aging_pair (afterwards queue (pairs d n)) d ih.2
      rw [pairs, afterwards_append]
      exact ⟨by rw [first, ih.1, Nat.add_assoc], items⟩

theorem pairs_after (d : Data) (n : Nat) : (after (pairs d n : List (Call config Data))).first = n ∧
    (after (pairs d n : List (Call config Data))).items = [] := by
  obtain ⟨first, items⟩ := aged_queue (Fifo.empty : Fifo Data config.size) d n rfl
  rw [Fifo.empty_first, Nat.zero_add] at first
  exact ⟨first, items⟩

variable [Zero Data] (memory final : Memory config Data) (queue : Fifo Data config.size)

def Replies (call : Call config Data) (reply : Reply config Data) : Prop :=
  ∃ loads final, CallAlone memory call.start loads final reply

theorem settles_replies (next : Fifo Data config.size) (call : Call config Data) (reply : Reply config Data)
    (settles : Settles memory call next reply) : Replies memory call reply := by
  obtain ⟨loads, final, run, _⟩ := settles
  exact ⟨loads, final, run⟩

theorem replies_unique (call : Call config Data) (reply other : Reply config Data) (first : Replies memory call reply)
    (second : Replies memory call other) : reply = other := by
  obtain ⟨loads, final, run⟩ := first
  obtain ⟨more, last, again⟩ := second
  exact (call_alone_unique memory call.start loads more final last reply other run again).2

-- empty looks at one slot through the read index as it stands.
def emptyReply : Reply config Data :=
  if memory.readIndex = config.number queue.first ∧ queue.total = queue.first then .done none none else .failed

theorem empty_call (settled : Settled memory queue) : Settles memory .empty queue (emptyReply memory queue) := by
  have kept := settled
  obtain ⟨written, consumed, represents, _, _⟩ := settled
  have look := look_alone memory queue written consumed .empty _ represents rfl (by
    intro pc goes
    rw [readSlot, emptySlot] at goes
    split at goes <;> cases goes)
  have answer : readSlot .empty (config.number consumed) (memory.entry (config.number consumed)) =
      .reply (emptyReply memory queue) := by
    have lag := represents.readLag
    have positive := config.size_positive
    have fits := config.size_half
    have half := config.half_positive
    rw [readSlot, emptySlot, config.number_shift, emptyReply]
    by_cases current : consumed = queue.first
    · have read := (read_current_iff memory queue written consumed represents).mpr current
      rcases head_entry memory queue written consumed represents current with ⟨v, next, popped, entry⟩ | ⟨popped, entry⟩
      · have held : ¬ queue.total = queue.first := fun emptied => by rw [(Fifo.pop_none queue).mpr emptied] at popped; cases popped
        rw [entry, if_neg (config.empty_ne_full _ _).symm, if_neg (fun both => held both.2)]
      · rw [entry, if_pos rfl, if_pos ⟨read, (Fifo.pop_none queue).mp popped⟩]
    · have unread : memory.readIndex ≠ config.number queue.first := fun same =>
        current ((read_current_iff memory queue written consumed represents).mp same)
      rw [if_neg (fun both : _ ∧ _ => unread both.1), if_neg]
      intro hit
      rcases lap_entry memory queue written consumed represents (by omega) with entry | entry
      · rw [entry] at hit
        exact config.empty_ne_full _ _ hit.symm
      · rw [entry] at hit
        have same := (empty_seq_window config (consumed + config.size) consumed (by omega) (by omega)).mp hit
        omega
  rw [answer] at look
  exact loop_settles memory queue .empty 1 memory _ _ look rfl kept

theorem call_settles (call : Call config Data) (settled : Settled memory queue)
    (visible : call.looks = true → memory.Visible queue.first) :
    ∃ reply, call.Answers queue reply ∧ Settles memory call (call.effect queue) reply := by
  cases call with
  | push d => exact ⟨_, rfl, (push_call memory queue d settled).1⟩
  | pushIndex d => exact ⟨_, rfl, (push_call memory queue d settled).2⟩
  | pop => exact ⟨_, rfl, (pop_call memory queue settled).1⟩
  | popIndex => exact ⟨_, rfl, (pop_call memory queue settled).2⟩
  | pushKeepN d => exact ⟨_, rfl, keep_call memory queue (.pushKeepN d) d _ settled (.inl rfl) rfl⟩
  | pushKeepNIndex d => exact ⟨_, rfl, keep_call memory queue (.pushKeepNIndex d) d _ settled (.inr rfl) rfl⟩
  | exchange i old new => exact ⟨_, rfl, exchange_call memory queue i old new settled⟩
  | peek =>
      rw [peek_effect queue .peek (.inl rfl)]
      exact ⟨_, rfl, (peek_call memory queue settled (visible rfl)).1⟩
  | peekIndex =>
      rw [peek_effect queue .peekIndex (.inr rfl)]
      exact ⟨_, rfl, (peek_call memory queue settled (visible rfl)).2⟩
  | popIf f => exact ⟨_, rfl, pop_if_call memory queue f settled (visible rfl)⟩
  | consume f =>
      obtain ⟨loads, final, run, held⟩ := consume_call memory queue f 0 settled
      rw [Nat.zero_add] at run
      exact ⟨_, rfl, loads, final, run, held⟩
  | empty =>
      refine ⟨_, ?_, empty_call memory queue settled⟩
      rw [Call.Answers, emptyReply]
      split
      · exact .inl rfl
      · exact .inr rfl

-- A loop whose look at the slot falls through every test comes back to the same look for ever.
theorem retry_never_returns (task : Task config Data) (loop : ReadLoop config Data) (loads : Nat) (reply : Reply config Data)
    (retries : readSlot loop memory.readIndex (memory.entry memory.readIndex) = .goto (.readLoad loop))
    (here : task.pc = .readLoad loop ∨ task.pc = .readSlot loop memory.readIndex) : ¬ CallAlone memory task loads final reply := by
  intro run
  induction run with
  | returns memory task reply ended =>
      rcases here with load | look
      · rw [load] at ended
        cases ended
      · rw [look] at ended
        simp only [exec, retries, resume] at ended
        cases ended
  | goes memory final task after loads reply continues later ih =>
      rcases here with load | look
      · rw [load] at continues ih
        cases continues
        exact ih retries (.inr rfl)
      · rw [look] at continues ih
        simp only [exec, retries, resume] at continues
        cases continues
        exact ih retries (.inl rfl)

theorem hidden_never_returns (call : Call config Data) (loads : Nat) (reply : Reply config Data) (settled : Settled memory queue)
    (looks : call.looks = true) (hidden : ¬ memory.Visible queue.first) : ¬ CallAlone memory call.start loads final reply := by
  obtain ⟨written, consumed, represents, _, _⟩ := settled
  have branch := peek_lost memory queue written consumed represents hidden
  rw [← represents.read] at branch
  have peeks : readSlot .peek memory.readIndex (memory.entry memory.readIndex) = .goto (.readLoad .peek) := by
    simp only [readSlot, peekSlot, branch]
  cases call with
  | peek => exact retry_never_returns memory final _ .peek loads reply peeks (.inl rfl)
  | peekIndex => exact retry_never_returns memory final _ .peek loads reply peeks (.inl rfl)
  | popIf f =>
      refine retry_never_returns memory final _ (.popIf f) loads reply ?_ (.inl rfl)
      simp only [readSlot, popIfSlot, branch]
  | _ => cases looks

-- Whatever call returned, it left the queue of its effect: a call that would not have returned
-- is no step of the history.
theorem call_effect (call : Call config Data) (loads : Nat) (reply : Reply config Data) (settled : Settled memory queue)
    (run : CallAlone memory call.start loads final reply) :
    Settled final (call.effect queue) ∧ call.Answers queue reply := by
  have visible : call.looks = true → memory.Visible queue.first := by
    intro looks
    by_contra hidden
    exact hidden_never_returns memory final queue call loads reply settled looks hidden run
  obtain ⟨expected, answers, more, last, again, held⟩ := call_settles memory queue call settled visible
  obtain ⟨same, equal⟩ := call_alone_unique memory call.start loads more final last reply expected run again
  rw [same, equal]
  exact ⟨held, answers⟩

theorem history_settles (calls : List (Call config Data)) (replies : List (Reply config Data)) (settled : Settled memory queue)
    (run : History memory calls replies final) : Settled final (afterwards queue calls) := by
  induction run generalizing queue with
  | done memory => exact settled
  | call memory middle final call rest loads reply replies alone later ih =>
      exact ih (call.effect queue) (call_effect memory middle queue call loads reply settled alone).1

theorem history_counts (calls : List (Call config Data)) (replies : List (Reply config Data)) (settled : Settled memory queue)
    (run : History memory calls replies final) :
    (afterwards queue calls).total = queue.total + pushes calls replies ∧
      ((∀ call ∈ calls, call.single = true) → (afterwards queue calls).first = queue.first + pops calls replies) := by
  induction run generalizing queue with
  | done memory => exact ⟨rfl, fun _ => rfl⟩
  | call memory middle final call rest loads reply replies alone later ih =>
      obtain ⟨held, answers⟩ := call_effect memory middle queue call loads reply settled alone
      obtain ⟨total, first⟩ := ih (call.effect queue) held
      rw [effect_total queue call reply answers] at total
      refine ⟨?_, ?_⟩
      · rw [afterwards, List.foldl_cons, ← afterwards, total, pushes_cons, Nat.add_assoc]
      · intro single
        have here := effect_first queue call reply answers (single call (List.mem_cons_self ..))
        have removed := first (fun other member => single other (List.mem_cons_of_mem _ member))
        rw [afterwards, List.foldl_cons, ← afterwards, removed, here, pops_cons, Nat.add_assoc]

theorem reached_settled (calls : List (Call config Data)) (replies : List (Reply config Data))
    (run : History (Memory.initial config Data) calls replies memory) : Settled memory (after calls) :=
  history_settles _ memory Fifo.empty calls replies settled_initial run

theorem reached_counts (calls : List (Call config Data)) (replies : List (Reply config Data))
    (run : History (Memory.initial config Data) calls replies memory) :
    (after calls).total = pushes calls replies ∧
      ((∀ call ∈ calls, call.single = true) → (after calls).first = pops calls replies) := by
  obtain ⟨total, first⟩ := history_counts _ memory Fifo.empty calls replies settled_initial run
  rw [Fifo.empty_total, Nat.zero_add] at total
  rw [Fifo.empty_first, Nat.zero_add] at first
  exact ⟨total, first⟩

theorem history_append (middle : Memory config Data) (calls more : List (Call config Data)) (replies answers : List (Reply config Data))
    (early : History memory calls replies middle) (late : History middle more answers final) :
    History memory (calls ++ more) (replies ++ answers) final := by
  induction early with
  | done memory => exact late
  | call memory between _ call rest loads reply replies alone later ih =>
      exact .call memory between final call (rest ++ more) loads reply (replies ++ answers) alone (ih late)

theorem call_history (call : Call config Data) (loads : Nat) (reply : Reply config Data)
    (run : CallAlone memory call.start loads final reply) : History memory [call] [reply] final :=
  .call memory final final call [] loads reply [] run (.done final)

theorem reached_call (calls : List (Call config Data)) (replies : List (Reply config Data)) (call : Call config Data)
    (run : History (Memory.initial config Data) calls replies memory) (quiet : call.looks = false) :
    ∃ reply final, History (Memory.initial config Data) (calls ++ [call]) (replies ++ [reply]) final := by
  obtain ⟨reply, _, loads, final, alone, _⟩ := call_settles memory (after calls) call (reached_settled memory calls replies run)
    (fun looks => by rw [quiet] at looks; cases looks)
  exact ⟨reply, final, history_append _ final memory calls [call] replies [reply] run
    (call_history memory final call loads reply alone)⟩

-- A pop that removed the head leaves the read index as the mode has it.
theorem pop_read (v : Data) (next : Fifo Data config.size) (loads : Nat) (reply : Reply config Data) (settled : Settled memory queue)
    (popped : queue.pop? = some (v, next)) (run : CallAlone memory (Call.pop : Call config Data).start loads final reply) :
    final.readIndex = config.number (config.poppedIndex queue.first) := by
  obtain ⟨written, consumed, represents, _, _⟩ := settled
  obtain ⟨more, last, outcome, _, alone, answer⟩ := pop_settles memory queue written consumed represents
  rw [PopSettled, popped] at answer
  obtain ⟨rfl, held⟩ := answer
  have again := call_loop_returns memory last (Call.pop : Call config Data).start _ more _ (.done (some v) none) alone rfl
  rw [(call_alone_unique memory _ loads more final last reply _ run again).1]
  exact held.read

theorem aged_run (d : Data) (n : Nat) (settled : Settled memory queue) (emptied : queue.items = []) :
    ∃ replies final, History memory (pairs d n) replies final ∧
      (0 < n → final.readIndex = config.number (config.poppedIndex (queue.first + n - 1))) := by
  induction n with
  | zero => exact ⟨[], _, .done _, fun none => absurd none (Nat.lt_irrefl 0)⟩
  | succ n ih =>
      obtain ⟨replies, before, run, _⟩ := ih
      have held := history_settles memory before queue _ replies settled run
      obtain ⟨first, items⟩ := aged_queue queue d n emptied
      obtain ⟨reply, _, loads, middle, pushRun, stored⟩ := call_settles before _ (.push d) held (fun looks => by cases looks)
      have positive := config.size_positive
      obtain ⟨same, one⟩ := push_effect (afterwards queue (pairs d n)) d (by rw [items]; exact positive)
      generalize (Call.push d).effect (afterwards queue (pairs d n)) = next at stored same one
      obtain ⟨answer, _, more, final, popRun, _⟩ := call_settles middle next .pop stored (fun looks => by cases looks)
      obtain ⟨v, last, popped⟩ := Fifo.pop_held next (by rw [one]; exact List.append_ne_nil_of_right_ne_nil _ (List.cons_ne_nil d []))
      have read := pop_read middle final next v last more answer stored popped popRun
      rw [same, first] at read
      exact ⟨_, final, history_append memory final before _ _ replies [reply, answer] run
        (.call before middle final _ _ loads reply _ pushRun (call_history middle final .pop more answer popRun)), fun _ => read⟩

theorem pairs_run (d : Data) (n : Nat) :
    ∃ replies memory, History (Memory.initial config Data) (pairs d n) replies memory ∧
      (0 < n → memory.readIndex = config.number (config.poppedIndex (n - 1))) := by
  obtain ⟨replies, memory, run, read⟩ := aged_run (Memory.initial config Data) Fifo.empty d n settled_initial rfl
  rw [Fifo.empty_first, Nat.zero_add] at read
  exact ⟨replies, memory, run, read⟩

-- A run of fueled steps that ends is a run of the call.
def runCall : Nat → Memory config Data → Task config Data → Option (Memory config Data × Reply config Data)
  | 0, _, _ => none
  | fuel + 1, memory, task =>
      match resume task (exec memory task.pc).next with
      | (some after, _) => runCall fuel (exec memory task.pc).memory after
      | (none, some reply) => some ((exec memory task.pc).memory, reply)
      | (none, none) => none

def runCalls (fuel : Nat) : Memory config Data → List (Call config Data) → Option (List (Reply config Data) × Memory config Data)
  | memory, [] => some ([], memory)
  | memory, call :: rest =>
      match runCall fuel memory call.start with
      | some (middle, reply) => (runCalls fuel middle rest).map fun result => (reply :: result.1, result.2)
      | none => none

theorem run_call_alone (fuel : Nat) (task : Task config Data) (reply : Reply config Data)
    (ran : runCall fuel memory task = some (final, reply)) : ∃ loads, CallAlone memory task loads final reply := by
  induction fuel generalizing memory task with
  | zero => cases ran
  | succ fuel ih =>
      rw [runCall] at ran
      split at ran
      · rename_i after _ continues
        obtain ⟨loads, later⟩ := ih _ _ ran
        exact ⟨_, .goes memory final task after loads reply (by rw [continues]) later⟩
      · rename_i answer ended
        cases Option.some.inj ran
        exact ⟨_, .returns memory task reply ended⟩
      · cases ran

theorem run_calls_history (fuel : Nat) (calls : List (Call config Data)) (replies : List (Reply config Data))
    (ran : runCalls fuel memory calls = some (replies, final)) : History memory calls replies final := by
  induction calls generalizing memory replies with
  | nil =>
      cases Option.some.inj ran
      exact .done final
  | cons call rest ih =>
      rw [runCalls] at ran
      split at ran
      · rename_i middle reply one
        obtain ⟨⟨answers, last⟩, many, same⟩ := Option.map_eq_some_iff.mp ran
        cases same
        obtain ⟨loads, alone⟩ := run_call_alone memory middle fuel call.start reply one
        exact .call memory middle last call rest loads reply answers alone (ih middle answers many)
      · cases ran

end

end LockfreeQueue
