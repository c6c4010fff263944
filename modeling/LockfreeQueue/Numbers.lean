import LockfreeQueue.Histories

set_option autoImplicit false

namespace LockfreeQueue

section

variable {config : Config} {Data : Type}

-- The calls that report the number of the element they stored.
def Call.reports : Call config Data → Bool
  | .pushIndex _ | .pushKeepNIndex _ => true
  | _ => false

-- The slot keeps all but the top bit of a number, so an exchange finds its own element or the
-- one pushed half a word of numbers later.
theorem named_held (queue : Fifo Data config.size) (i : Index config) (v : Data) (below : i.toNat < queue.total) (few : queue.total < 2 * config.half)
    (held : queue.get? (named queue i) = some v) :
    named queue i = i.toNat ∨ named queue i = i.toNat + config.half ∧ i.toNat < queue.first := by
  have bound := Fifo.total_bound queue
  have fits := config.size_half
  have positive := config.size_positive
  have inside := Fifo.get_bounds queue (named queue i) v held
  have residue := Word.at_least_mod config.half queue.first i.toNat config.half_positive
  rw [← named] at residue
  by_cases near : named queue i < i.toNat + config.half
  · exact .inl (Word.window_unique config.half _ _ residue near (by omega))
  · refine .inr ⟨Word.window_unique config.half _ _ (by rw [Nat.add_mod_right, residue]) (by omega) (by omega), by omega⟩

-- That other element is the one addressed whenever it is in the queue.
theorem named_later (queue : Fifo Data config.size) (k : Nat) (v : Data) (index : (config.number k).toNat = k)
    (later : queue.get? (k + config.half) = some v) : named queue (config.number k) = k + config.half := by
  have bound := Fifo.total_bound queue
  have fits := config.size_half
  have positive := config.size_positive
  have inside := Fifo.get_bounds queue (k + config.half) v later
  obtain ⟨lower, upper, residue⟩ := Word.at_least_spec config.half queue.first (config.number k).toNat config.half_positive
  rw [← named] at lower upper residue
  rw [index] at residue
  exact Word.window_unique config.half _ _ (by rw [residue, Nat.add_mod_right]) (by omega) (by omega)

theorem named_own (queue : Fifo Data config.size) (k : Nat) (v : Data) (index : (config.number k).toNat = k) (below : k < queue.total)
    (few : queue.total < 2 * config.half) (absent : queue.get? (k + config.half) ≠ some v)
    (held : queue.get? (named queue (config.number k)) = some v) : named queue (config.number k) = k := by
  have places := named_held queue (config.number k) v (by rw [index]; exact below) few held
  rw [index] at places
  rcases places with same | ⟨later, _⟩
  · exact same
  · rw [later] at held
    exact absurd held absent

variable [DecidableEq Data]

theorem exchanged_get (queue : Fifo Data config.size) (i : Index config) (old new : Data) (k : Nat) :
    (exchanged queue i old new).get? k =
      if queue.get? (named queue i) = some old ∧ k = named queue i then some new else queue.get? k := by
  rw [exchanged]
  cases replaced : queue.replace? (named queue i) old new with
  | none =>
      have absent : queue.get? (named queue i) ≠ some old := fun held => by
        obtain ⟨next, found⟩ := (Fifo.replace_iff queue _ old new).mpr held
        rw [replaced] at found
        cases found
      rw [if_neg (fun both => absent both.1)]
  | some next =>
      have held := (Fifo.replace_fields queue next _ old new replaced).1
      change next.get? k = _
      rw [Fifo.replace_get queue next _ old new replaced]
      simp only [held, true_and]

theorem effect_grows (queue : Fifo Data config.size) (call : Call config Data) : queue.total ≤ (call.effect queue).total := by
  cases call with
  | exchange i old new => exact (exchanged_bounds queue i old new).1.ge
  | _ => exact reference_total queue _

theorem afterwards_grows (queue : Fifo Data config.size) (calls : List (Call config Data)) :
    queue.total ≤ (afterwards queue calls).total := by
  induction calls generalizing queue with
  | nil => exact Nat.le_refl _
  | cons call rest ih => exact Nat.le_trans (effect_grows queue call) (ih (call.effect queue))

-- A push reports the number of elements pushed before it, as a word.
theorem reported_number (queue : Fifo Data config.size) (call : Call config Data) (i : Index config) (reports : call.reports = true)
    (answers : call.Answers queue (.done none (some i))) : i = config.number queue.total ∧ queue.total < (call.effect queue).total := by
  have grown := effect_total queue call _ answers
  cases call with
  | pushIndex d =>
      simp only [Call.Answers, Call.reference] at answers
      cases pushed : queue.push? d with
      | none => simp [pushed] at answers
      | some next =>
          simp only [pushed] at answers
          simp only [Call.stores, Reply.succeeds, Bool.and_true, if_true] at grown
          exact ⟨by injection answers with _ number; exact Option.some.inj number, by omega⟩
  | pushKeepNIndex d =>
      simp only [Call.Answers, Call.reference] at answers
      simp only [Call.stores, Reply.succeeds, Bool.and_true, if_true] at grown
      exact ⟨by injection answers with _ number; exact Option.some.inj number, by omega⟩
  | _ => cases reports

variable [Zero Data] (memory final : Memory config Data) (queue : Fifo Data config.size)

-- Every call that gives the number of the head gives i, and an exchange takes what peek gave.
structure SameNumber (v : Data) (i : Index config) : Prop where
  peek : Replies memory .peekIndex (.done (some v) (some i))
  popIf : ∀ f, Replies memory (.popIf f) (if f v i then .done (some v) none else .failed)
  consume : ∀ f, f v i = true → Replies memory (.consume f) (.consumed 1)
  pop : Replies memory .popIndex (.done (some v) (some i))
  exchange : ∀ j new, Replies memory .peekIndex (.done (some v) (some j)) → Replies memory (.exchange j v new) (.done none none)

theorem history_split (before later : List (Call config Data)) (call : Call config Data) (replies answers : List (Reply config Data))
    (reply : Reply config Data) (aligned : replies.length = before.length)
    (run : History memory (before ++ call :: later) (replies ++ reply :: answers) final) :
    ∃ middle next loads, History memory before replies middle ∧ CallAlone middle call.start loads next reply ∧
      History next later answers final := by
  induction before generalizing memory replies with
  | nil =>
      rw [List.length_eq_zero_iff.mp aligned] at run ⊢
      cases run with
      | call _ next _ _ _ loads _ _ alone rest => exact ⟨memory, next, loads, .done memory, alone, rest⟩
  | cons first before ih =>
      cases replies with
      | nil => cases aligned
      | cons answer replies =>
          cases run with
          | call _ between _ _ _ loads _ _ alone rest =>
              obtain ⟨middle, next, more, early, single, late⟩ := ih between replies (Nat.succ.inj aligned) rest
              exact ⟨middle, next, more, .call memory between middle first before loads answer replies alone early, single, late⟩

theorem number_ne_seq (k : Nat) (low : k < config.half) : config.number k ≠ config.fullSeq k := by
  rw [Config.fullSeq, Ne, config.number_eq_iff, Nat.mod_eq_of_lt (show k < 2 * config.half by omega),
    Nat.mod_eq_of_lt (show 2 * k + 1 < 2 * config.half by omega)]
  omega

-- pop and consume give the index they read, which is the number of the push; peek and pop_if
-- give the sequence word of the slot.
theorem head_numbers (k : Nat) (v : Data) (settled : Settled memory queue) (low : queue.first + config.size ≤ config.half)
    (head : queue.first = k) (held : queue.get? k = some v) :
    Replies memory .popIndex (.done (some v) (some (config.number k))) ∧
      (∀ f, f v (config.number k) = true → Replies memory (.consume f) (.consumed 1)) ∧
      Replies memory .peekIndex (.done (some v) (some (config.fullSeq k))) ∧
      ∀ f, Replies memory (.popIf f) (if f v (config.fullSeq k) then .done (some v) none else .failed) := by
  subst head
  obtain ⟨next, popped⟩ := Fifo.pop_of_get queue v held
  have visible : memory.Visible queue.first := by
    obtain ⟨written, consumed, represents, _, _⟩ := settled
    exact low_visible memory queue written consumed represents low
  have pop := settles_replies memory _ _ _ (pop_call memory queue settled).2
  have peek := settles_replies memory _ _ _ (peek_call memory queue settled visible).2
  rw [Call.reference, popped] at pop
  rw [peekIndexReply, popped] at peek
  refine ⟨pop, ?_, peek, ?_⟩
  · intro f accepted
    obtain ⟨loads, final, run, _⟩ := consume_call memory queue f 0 settled
    rw [Fifo.drained_some _ queue next v popped, if_pos accepted] at run
    exact ⟨loads, final, run⟩
  · intro f
    have removes := settles_replies memory _ _ _ (pop_if_call memory queue f settled visible)
    rw [Call.reference, popped] at removes
    by_cases accepted : f v (config.fullSeq queue.first) = true
    · simpa only [if_pos accepted] using removes
    · simpa only [if_neg accepted] using removes

theorem same_number_never (k : Nat) (v : Data) (settled : Settled memory queue) (low : queue.first + config.size ≤ config.half)
    (head : queue.first = k) (held : queue.get? k = some v) : ¬ SameNumber memory v (config.number k) := by
  intro same
  have positive := config.size_positive
  have peek := (head_numbers memory queue k v settled low head held).2.2.1
  have equal := replies_unique memory .peekIndex _ _ same.peek peek
  injection equal with _ numbers
  exact number_ne_seq k (by omega) (Option.some.inj numbers)

-- The number that the push reported, once its element has come to the head.
theorem numbers_disagree (before later : List (Call config Data)) (push : Call config Data)
    (replies answers : List (Reply config Data)) (i : Index config) (v : Data)
    (run : History (Memory.initial config Data) (before ++ push :: later) (replies ++ .done none (some i) :: answers) memory)
    (aligned : replies.length = before.length) (reports : push.reports = true)
    (few : pushes (before ++ push :: later) (replies ++ .done none (some i) :: answers) < config.half - config.size)
    (head : (after (before ++ push :: later)).first = (after before).total)
    (held : (after (before ++ push :: later)).get? (after before).total = some v) :
    Replies memory .popIndex (.done (some v) (some i)) ∧ (∀ f, f v i = true → Replies memory (.consume f) (.consumed 1)) ∧
      Replies memory .peekIndex (.done (some v) (some ((i <<< 1) ||| 1))) ∧
      (∀ f, Replies memory (.popIf f) (if f v ((i <<< 1) ||| 1) then .done (some v) none else .failed)) ∧
      i ≠ (i <<< 1) ||| 1 ∧ ¬ SameNumber memory v i := by
  obtain ⟨middle, next, loads, early, alone, _⟩ :=
    history_split _ memory before later push replies answers (.done none (some i)) aligned run
  have stored := reached_settled middle before replies early
  obtain ⟨_, answered⟩ := call_effect middle next (after before) push loads _ stored alone
  have number := (reported_number (after before) push i reports answered).1
  have settled := reached_settled memory _ _ run
  rw [← (reached_counts memory _ _ run).1] at few
  have bound := Fifo.total_bound (after (before ++ push :: later))
  have positive := config.size_positive
  have low : (after (before ++ push :: later)).first + config.size ≤ config.half := by omega
  have small : (after before).total < config.half := by omega
  generalize (after before).total = k at number head held small
  generalize after (before ++ push :: later) = queue at settled low head held
  subst number
  obtain ⟨pop, consume, peek, popIf⟩ := head_numbers memory queue k v settled low head held
  rw [config.number_shift, config.empty_seq_tag]
  exact ⟨pop, consume, peek, popIf, number_ne_seq k small, same_number_never memory queue k v settled low head held⟩

-- The element that a call may change or find: the one whose own push reported the index.
def OnlyNamed (i : Index config) (old new : Data) : Prop :=
  ∀ loads final reply, CallAlone memory (Call.exchange i old new).start loads final reply →
    (∀ k, queue.first ≤ k → k < queue.total → config.number k ≠ i →
      (final.entry (config.number k)).data = (memory.entry (config.number k)).data) ∧
    ((∃ k < queue.first, config.number k = i) → reply = .failed)

theorem exchange_own_iff (k : Nat) (old new : Data) (settled : Settled memory queue) (below : k < queue.total)
    (few : queue.total < 2 * config.half) :
    OnlyNamed memory queue (config.number k) old new ↔ queue.get? (k + config.half) ≠ some old := by
  have bound := Fifo.total_bound queue
  have fits := config.size_half
  have positive := config.size_positive
  have index : (config.number k).toNat = k := by
    rw [Config.number, BitVec.toNat_ofNat, config.modulus_half, Nat.mod_eq_of_lt (by omega)]
  constructor
  · intro only later
    have inside := Fifo.get_bounds queue (k + config.half) old later
    have hit := named_later queue k old index later
    obtain ⟨loads, final, run, _⟩ := exchange_call memory queue (config.number k) old new settled
    have refused := (only loads final _ run).2 ⟨k, by omega, rfl⟩
    rw [exchangeReply, hit, if_pos later] at refused
    cases refused
  · intro absent loads final reply run
    obtain ⟨left, answer⟩ := call_effect memory final queue (.exchange (config.number k) old new) loads reply settled run
    change Settled final (exchanged queue (config.number k) old new) at left
    change reply = exchangeReply queue (config.number k) old at answer
    have own := named_own queue k old index below few absent
    refine ⟨?_, ?_⟩
    · intro j lower upper other
      obtain ⟨v, held⟩ := Fifo.get_of_bounds queue j lower upper
      have kept : (exchanged queue (config.number k) old new).get? j = some v := by
        rw [exchanged_get, if_neg, held]
        rintro ⟨hit, here⟩
        rw [own hit] at here
        exact other (congrArg config.number here)
      rw [settled_data final _ j v left kept, settled_data memory queue j v settled held]
    · rintro ⟨j, gone, same⟩
      have here : j = k := by
        have equal := (config.number_eq_iff j k).mp same
        rwa [Nat.mod_eq_of_lt (by omega), Nat.mod_eq_of_lt (by omega)] at equal
      rw [answer, exchangeReply, if_neg]
      intro hit
      have held := (Fifo.get_bounds queue _ old hit).1
      rw [own hit] at held
      omega

theorem reported_reached (calls : List (Call config Data)) (replies : List (Reply config Data)) (push : Call config Data)
    (i : Index config) (settled : Settled memory queue) (run : History memory calls replies final) (reports : push.reports = true)
    (returned : (push, .done none (some i)) ∈ calls.zip replies) :
    ∃ k, k < (afterwards queue calls).total ∧ i = config.number k := by
  induction run generalizing queue with
  | done memory => cases returned
  | call memory middle final call rest loads reply replies alone later ih =>
      obtain ⟨held, answers⟩ := call_effect memory middle queue call loads reply settled alone
      rcases List.mem_cons.mp returned with here | there
      · obtain ⟨rfl, rfl⟩ := Prod.mk.inj here
        obtain ⟨number, less⟩ := reported_number queue push i reports answers
        exact ⟨queue.total, Nat.lt_of_lt_of_le less (afterwards_grows _ rest), number⟩
      · exact ih (call.effect queue) held there

-- With fewer pushes than words every push has its own number, but a removed element's number
-- still finds the one half a word later when that holds the old value.
theorem exchange_only_named (calls : List (Call config Data)) (replies : List (Reply config Data)) (push : Call config Data)
    (i : Index config) (old new : Data) (run : History (Memory.initial config Data) calls replies memory)
    (few : pushes calls replies < 2 ^ config.bits) (reports : push.reports = true)
    (returned : (push, .done none (some i)) ∈ calls.zip replies) :
    (OnlyNamed memory (after calls) i old new ↔ (after calls).get? (i.toNat + config.half) ≠ some old) ∧
      ((after calls).total ≤ i.toNat + config.half → OnlyNamed memory (after calls) i old new) := by
  have settled := reached_settled memory calls replies run
  obtain ⟨k, below, number⟩ := reported_reached _ memory Fifo.empty calls replies push i settled_initial run reports returned
  rw [← (reached_counts memory calls replies run).1, config.modulus_half] at few
  rw [← after] at below
  have index : i.toNat = k := by
    rw [number, Config.number, BitVec.toNat_ofNat, config.modulus_half, Nat.mod_eq_of_lt (by omega)]
  have exact := exchange_own_iff memory (after calls) k old new settled below few
  rw [index, number]
  refine ⟨exact, fun recent => exact.mpr fun held => ?_⟩
  have inside := (Fifo.get_bounds _ _ old held).2
  omega

end

theorem first_push : ∃ memory : Memory smallQueue Nat,
    History (Memory.initial smallQueue Nat) [.pushIndex 5] [.done none (some 0)] memory := by
  have computed : (runCalls 20 (Memory.initial smallQueue Nat) [.pushIndex 5]).map Prod.fst = some [.done none (some 0)] := by
    decide +kernel
  obtain ⟨⟨replies, memory⟩, ran, same⟩ := Option.map_eq_some_iff.mp computed
  subst same
  exact ⟨memory, run_calls_history _ memory 20 _ _ ran⟩

theorem numbers_disagree_first : ∃ memory : Memory smallQueue Nat,
    Replies memory .popIndex (.done (some 5) (some 0)) ∧ Replies memory .peekIndex (.done (some 5) (some 1)) := by
  obtain ⟨memory, run⟩ := first_push
  obtain ⟨pop, _, peek, _⟩ := numbers_disagree memory [] [] (.pushIndex 5) [] [] 0 5 run rfl rfl (by decide) rfl rfl
  exact ⟨memory, pop, peek⟩

-- The push returns 0 and peek gives 1.
theorem numbers_differ : ∃ memory : Memory smallQueue Nat,
    History (Memory.initial smallQueue Nat) [.pushIndex 5] [.done none (some 0)] memory ∧
      Replies memory .peekIndex (.done (some 5) (some 1)) ∧ ¬ SameNumber memory 5 0 := by
  obtain ⟨memory, run⟩ := first_push
  have settled := reached_settled memory _ _ run
  have peek := (head_numbers memory _ 0 5 settled (by decide) rfl rfl).2.2.1
  exact ⟨memory, run, peek, same_number_never memory _ 0 5 settled (by decide) rfl rfl⟩

theorem exchange_only_named_first : ∃ memory : Memory smallQueue Nat,
    History (Memory.initial smallQueue Nat) [.pushIndex 5] [.done none (some 0)] memory ∧
      OnlyNamed memory (after [.pushIndex 5]) 0 5 9 := by
  obtain ⟨memory, run⟩ := first_push
  exact ⟨memory, run, (exchange_only_named memory _ _ (.pushIndex 5) 0 5 9 run (by decide) rfl (List.mem_cons_self ..)).2 (by decide)⟩

-- A number pushed and popped, n elements more, and a last one that stays.
def renumbered (n : Nat) : List (Call smallQueue Nat) := [.pushIndex 0, .pop] ++ pairs 0 n ++ [.push 7]

theorem renumbered_after (n : Nat) : (after (renumbered n)).first = 1 + n ∧ (after (renumbered n)).items = [7] := by
  obtain ⟨first, emptied⟩ := aged_queue (after [.pushIndex 0, .pop] : Fifo Nat smallQueue.size) 0 n rfl
  rw [renumbered, after, afterwards_append, afterwards_append, ← after]
  generalize afterwards (after [.pushIndex 0, .pop]) (pairs 0 n) = queue at first emptied
  obtain ⟨same, items⟩ := push_effect queue 7 (by rw [emptied]; decide)
  rw [emptied, List.nil_append] at items
  exact ⟨same.trans first, items⟩

theorem renumbered_reached (n : Nat) : ∃ replies memory,
    History (Memory.initial smallQueue Nat) (renumbered n) (.done none (some 0) :: replies) memory := by
  have computed : (runCalls 20 (Memory.initial smallQueue Nat) [.pushIndex 0, .pop]).map Prod.fst =
      some [.done none (some 0), .done (some 0) none] := by decide +kernel
  obtain ⟨⟨replies, before⟩, ran, same⟩ := Option.map_eq_some_iff.mp computed
  subst same
  have first := run_calls_history _ before 20 _ _ ran
  obtain ⟨replies, middle, aged, _⟩ := aged_run before _ 0 n (reached_settled before _ _ first) rfl
  obtain ⟨reply, memory, last⟩ := reached_call middle _ _ (.push 7) (history_append _ middle before _ _ _ replies first aged) rfl
  exact ⟨_, memory, last⟩

-- 2 ^ 31 elements after the one whose push returned 0, which has been popped, an exchange by
-- that number rewrites the element of another push.
theorem exchange_other_named : ∃ replies memory,
    History (Memory.initial smallQueue Nat) (renumbered (2 ^ 31 - 1)) (.done none (some 0) :: replies) memory ∧
      pushes (renumbered (2 ^ 31 - 1)) (.done none (some 0) :: replies) < 2 ^ smallQueue.bits ∧
      Replies memory (.exchange 0 7 9) (.done none none) ∧ ¬ OnlyNamed memory (after (renumbered (2 ^ 31 - 1))) 0 7 9 := by
  obtain ⟨replies, memory, run⟩ := renumbered_reached (2 ^ 31 - 1)
  obtain ⟨first, items⟩ := renumbered_after (2 ^ 31 - 1)
  have settled := reached_settled memory _ _ run
  have counted := (reached_counts memory _ _ run).1
  refine ⟨replies, memory, run, ?_⟩
  generalize after (renumbered (2 ^ 31 - 1)) = queue at first items settled counted
  have total : queue.total = 2 ^ 31 + 1 := by rw [Fifo.total, first, items]; rfl
  have held : queue.get? (0 + smallQueue.half) = some 7 := by
    rw [Fifo.get?, first, items]
    decide
  have hit : named queue 0 = 0 + smallQueue.half := by
    rw [named, first]
    decide
  refine ⟨by rw [← counted, total]; decide, ?_, ?_⟩
  · have answer := settles_replies memory _ _ _ (exchange_call memory queue 0 7 9 settled)
    rwa [exchangeReply, hit, if_pos held] at answer
  · exact fun only => (exchange_own_iff memory queue 0 7 9 settled (by omega) (by rw [total]; decide)).mp only held

end LockfreeQueue
