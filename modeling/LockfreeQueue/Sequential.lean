import LockfreeQueue.Exchange

set_option autoImplicit false

namespace LockfreeQueue

section

variable {config : Config} {Data : Type}

variable [DecidableEq Data]

-- What each call does to a bounded queue of numbered values, and what it returns. The functor of
-- consume is given the index of the element, that of pop_if its sequence word, twice its number plus one.
def Call.reference (queue : Fifo Data config.size) : Call config Data → Fifo Data config.size × Reply config Data
  | .push d =>
      match queue.push? d with
      | some next => (next, .done none none)
      | none => (queue, .failed)
  | .pushIndex d =>
      match queue.push? d with
      | some next => (next, .done none (some (config.number queue.total)))
      | none => (queue, .failed)
  | .pop =>
      match queue.pop? with
      | some (v, next) => (next, .done (some v) none)
      | none => (queue, .failed)
  | .popIndex =>
      match queue.pop? with
      | some (v, next) => (next, .done (some v) (some (config.number queue.first)))
      | none => (queue, .failed)
  | .pushKeepN d => (queue.pushDropping config.size_positive d, .done none none)
  | .pushKeepNIndex d => (queue.pushDropping config.size_positive d, .done none (some (config.number queue.total)))
  | .exchange i old new =>
      match queue.replace? i.toNat old new with
      | some next => (next, .done none none)
      | none => (queue, .failed)
  | .peek | .peekIndex =>
      match queue.pop? with
      | some (v, _) => (queue, .done (some v) none)
      | none => (queue, .failed)
  | .popIf f =>
      match queue.pop? with
      | some (v, next) => if f v (config.fullSeq queue.first) then (next, .done (some v) none) else (queue, .failed)
      | none => (queue, .failed)
  | .consume f =>
      let count := Fifo.drained (fun v number => f v (config.number number)) queue.first queue.items
      (queue.drop count, .consumed count)
  | .empty => (queue, if queue.total = queue.first then .done none none else .failed)

-- The overloads that report an index leave the same queue.
theorem push_twin (queue : Fifo Data config.size) (d : Data) :
    ((Call.pushIndex d).reference queue).1 = ((Call.push d).reference queue).1 := by
  rw [Call.reference, Call.reference]
  cases queue.push? d <;> rfl

theorem pop_twin (queue : Fifo Data config.size) : ((Call.popIndex).reference queue).1 = ((Call.pop).reference queue).1 := by
  rw [Call.reference, Call.reference]
  cases queue.pop? <;> rfl

theorem push_reference_counts (queue : Fifo Data config.size) (d : Data) :
    ((Call.push d).reference queue).1.total = queue.total + (if (queue.push? d).isSome then 1 else 0) ∧
      ((Call.push d).reference queue).1.first = queue.first := by
  rw [Call.reference]
  cases pushed : queue.push? d with
  | none => exact ⟨rfl, rfl⟩
  | some next => exact ⟨Fifo.push_total queue next d pushed, (Fifo.push_items queue next d pushed).2.1⟩

theorem pop_reference_counts (queue : Fifo Data config.size) :
    ((Call.pop).reference queue).1.total = queue.total ∧
      ((Call.pop).reference queue).1.first = queue.first + if (queue.pop?).isSome then 1 else 0 := by
  rw [Call.reference]
  cases popped : queue.pop? with
  | none => exact ⟨rfl, rfl⟩
  | some pair => exact ⟨Fifo.pop_total queue pair.2 pair.1 popped, (Fifo.pop_items queue pair.2 pair.1 popped).2⟩

theorem pop_if_reference_total (queue : Fifo Data config.size) (f : Data → Index config → Bool) :
    ((Call.popIf f).reference queue).1.total = queue.total := by
  rw [Call.reference]
  split
  · rename_i v next popped
    split
    · exact Fifo.pop_total queue next v popped
    · rfl
  · rfl

theorem reference_total (queue : Fifo Data config.size) (call : Call config Data) :
    queue.total ≤ (call.reference queue).1.total := by
  cases call with
  | push d =>
      rw [(push_reference_counts queue d).1]
      exact Nat.le_add_right _ _
  | pushIndex d =>
      rw [push_twin, (push_reference_counts queue d).1]
      exact Nat.le_add_right _ _
  | pop => exact (pop_reference_counts queue).1.ge
  | popIndex =>
      rw [pop_twin]
      exact (pop_reference_counts queue).1.ge
  | pushKeepN d => exact Nat.le_of_lt (Fifo.push_dropping_total queue config.size_positive d).ge
  | pushKeepNIndex d => exact Nat.le_of_lt (Fifo.push_dropping_total queue config.size_positive d).ge
  | exchange i old new =>
      rw [Call.reference]
      split
      · rename_i next replaced
        exact (Fifo.replace_total queue next i.toNat old new replaced).ge
      · exact Nat.le_refl _
  | peek => rw [Call.reference]; split <;> exact Nat.le_refl _
  | peekIndex => rw [Call.reference]; split <;> exact Nat.le_refl _
  | popIf f => exact (pop_if_reference_total queue f).ge
  | consume f => exact (Fifo.drop_total queue _ (Fifo.drained_bound _ _ _)).ge
  | empty => exact Nat.le_refl _

-- An exchange addresses the element whose number has the residue of i, whoever pushed it.
def named (queue : Fifo Data config.size) (i : Index config) : Nat := Word.atLeast config.half queue.first i.toNat

def exchangeReply (queue : Fifo Data config.size) (i : Index config) (old : Data) : Reply config Data :=
  if queue.get? (named queue i) = some old then .done none none else .failed

def exchanged (queue : Fifo Data config.size) (i : Index config) (old new : Data) : Fifo Data config.size :=
  match queue.replace? (named queue i) old new with
  | some next => next
  | none => queue

-- A number below the limit names its own element, or one that is no longer held.
theorem exchange_reference (queue : Fifo Data config.size) (i : Index config) (old new : Data) (k : Nat) (below : k < queue.total)
    (small : queue.total < config.limit) (index : i = config.number k) :
    (exchanged queue i old new, exchangeReply queue i old) = (Call.exchange i old new).reference queue := by
  have bound := Fifo.total_bound queue
  have fits := config.size_half
  rw [Config.limit] at small
  have number : i.toNat = k := by
    rw [index, Config.number, BitVec.toNat_ofNat, config.modulus_half, Nat.mod_eq_of_lt (by omega)]
  have same : queue.get? (named queue i) = queue.get? i.toNat ∧ (named queue i = i.toNat ∨ queue.get? i.toNat = none) := by
    obtain ⟨lower, upper, residue⟩ := Word.at_least_spec config.half queue.first i.toNat config.half_positive
    rw [← named] at lower upper residue
    by_cases held : queue.first ≤ i.toNat
    · have equal : named queue i = i.toNat := Word.window_unique _ _ _ residue (by omega) (by omega)
      exact ⟨by rw [equal], .inl equal⟩
    · have gone : queue.get? i.toNat = none := by rw [Fifo.get?, if_neg held]
      have beyond : queue.total ≤ named queue i := by
        by_contra inside
        have equal := Word.window_unique config.half (named queue i) i.toNat residue (by omega) (by omega)
        omega
      refine ⟨?_, .inr gone⟩
      rw [gone]
      cases value : queue.get? (named queue i) with
      | none => rfl
      | some v => exact absurd (Fifo.get_bounds queue _ v value).2 (by omega)
  rw [exchanged, exchangeReply, Call.reference]
  rcases same with ⟨values, equal | gone⟩
  · rw [equal, Fifo.replace?]
    by_cases held : queue.get? i.toNat = some old
    · simp only [if_pos held]
    · simp only [if_neg held]
  · rw [gone] at values
    rw [Fifo.replace?, Fifo.replace?, values, gone]
    simp only [reduceCtorEq, if_false]

-- An exchange is called with a number that some earlier push returned. peek with an index, which
-- reports a sequence word, and empty, which trusts a read index that may lag, are left out.
def Call.Legal (queue : Fifo Data config.size) : Call config Data → Prop
  | .exchange i _ _ => ∃ k < queue.total, i = config.number k
  | .peekIndex | .empty => False
  | _ => True

def replay (queue : Fifo Data config.size) : List (Call config Data) → Fifo Data config.size × List (Reply config Data)
  | [] => (queue, [])
  | call :: rest =>
      let result := call.reference queue
      let later := replay result.1 rest
      (later.1, result.2 :: later.2)

theorem replay_total (queue : Fifo Data config.size) (calls : List (Call config Data)) :
    queue.total ≤ (replay queue calls).1.total := by
  induction calls generalizing queue with
  | nil => exact Nat.le_refl _
  | cons call rest ih => exact Nat.le_trans (reference_total queue call) (ih (call.reference queue).1)

def LegalHistory (queue : Fifo Data config.size) : List (Call config Data) → Prop
  | [] => True
  | call :: rest => call.Legal queue ∧ LegalHistory (call.reference queue).1 rest

variable [Zero Data]

inductive History : Memory config Data → List (Call config Data) → List (Reply config Data) → Memory config Data → Prop where
  | done (memory : Memory config Data) : History memory [] [] memory
  | call (memory middle final : Memory config Data) (call : Call config Data) (rest : List (Call config Data)) (loads : Nat)
      (reply : Reply config Data) (replies : List (Reply config Data)) (alone : CallAlone memory call.start loads middle reply)
      (later : History middle rest replies final) : History memory (call :: rest) (reply :: replies) final

variable (memory : Memory config Data) (queue : Fifo Data config.size) (written consumed : Nat)

def Settles (call : Call config Data) (next : Fifo Data config.size) (reply : Reply config Data) : Prop :=
  ∃ loads final, CallAlone memory call.start loads final reply ∧ Settled final next

variable (next : Fifo Data config.size)

theorem loop_settles (call : Call config Data) (loads : Nat) (final : Memory config Data) (outcome : Next config Data)
    (reply : Reply config Data) (run : Alone memory call.entry loads final outcome)
    (ended : resume call.start outcome = (none, some reply)) (held : Settled final next) : Settles memory call next reply :=
  ⟨loads, final, call_loop_returns memory final call.start call.entry loads outcome reply run ended, held⟩

theorem push_call (d : Data) (settled : Settled memory queue) :
    Settles memory (.push d) ((Call.push d).reference queue).1 ((Call.push d).reference queue).2 ∧
      Settles memory (.pushIndex d) ((Call.pushIndex d).reference queue).1 ((Call.pushIndex d).reference queue).2 := by
  obtain ⟨written, consumed, represents, _, read⟩ := settled
  obtain ⟨loads, final, outcome, _, run, answer⟩ := push_settles memory queue written consumed d 1 represents represents.writeLag.2
  rw [PushSettled] at answer
  rw [Call.reference, Call.reference]
  cases pushed : queue.push? d with
  | some next =>
      rw [pushed] at answer
      obtain ⟨rfl, held⟩ := answer
      have left := settled_pushed final queue next consumed d held pushed read
      exact ⟨loop_settles memory next (.push d) loads final _ _ run rfl left,
        loop_settles memory next (.pushIndex d) loads final _ _ run rfl left⟩
  | none =>
      rw [pushed] at answer
      obtain ⟨rfl, held⟩ := answer
      have left : Settled final queue := ⟨_, _, held, fun _ => rfl, read⟩
      exact ⟨loop_settles memory queue (.push d) loads final _ _ run rfl left,
        loop_settles memory queue (.pushIndex d) loads final _ _ run rfl left⟩

theorem pop_call (settled : Settled memory queue) :
    Settles memory .pop ((Call.pop).reference queue).1 ((Call.pop).reference queue).2 ∧
      Settles memory .popIndex ((Call.popIndex).reference queue).1 ((Call.popIndex).reference queue).2 := by
  obtain ⟨written, consumed, represents, write, _⟩ := settled
  obtain ⟨loads, final, outcome, _, run, answer⟩ := pop_settles memory queue written consumed represents
  rw [PopSettled] at answer
  rw [Call.reference, Call.reference]
  cases popped : queue.pop? with
  | some pair =>
      obtain ⟨v, next⟩ := pair
      rw [popped] at answer
      obtain ⟨rfl, held⟩ := answer
      have left := settled_popped final queue next written v held popped write
      exact ⟨loop_settles memory next .pop loads final _ _ run rfl left,
        loop_settles memory next .popIndex loads final _ _ run rfl left⟩
  | none =>
      rw [popped] at answer
      obtain ⟨rfl, held⟩ := answer
      have left : Settled final queue := ⟨_, _, held, write, fun _ => rfl⟩
      exact ⟨loop_settles memory queue .pop loads final _ _ run rfl left,
        loop_settles memory queue .popIndex loads final _ _ run rfl left⟩

-- peek with an index reports the sequence word of the slot, where the other calls report the
-- number of the element.
def peekIndexReply (queue : Fifo Data config.size) : Reply config Data :=
  match queue.pop? with
  | some (v, _) => .done (some v) (some (config.fullSeq queue.first))
  | none => .failed

theorem peek_call (settled : Settled memory queue) (visible : memory.Visible queue.first) :
    Settles memory .peek queue ((Call.peek).reference queue).2 ∧
      Settles memory .peekIndex queue (peekIndexReply queue) := by
  obtain ⟨written, consumed, represents, write, _⟩ := settled
  obtain ⟨loads, final, outcome, _, run, answer, held⟩ := peek_settles memory queue written consumed represents visible
  have left : Settled final queue := ⟨_, _, held, write, fun _ => rfl⟩
  rw [Call.reference, peekIndexReply]
  cases popped : queue.pop? with
  | some pair =>
      rw [popped] at answer
      subst answer
      exact ⟨loop_settles memory queue .peek loads final _ _ run rfl left,
        loop_settles memory queue .peekIndex loads final _ _ run rfl left⟩
  | none =>
      rw [popped] at answer
      subst answer
      exact ⟨loop_settles memory queue .peek loads final _ _ run rfl left,
        loop_settles memory queue .peekIndex loads final _ _ run rfl left⟩

theorem pop_if_call (f : Data → Index config → Bool) (settled : Settled memory queue) (visible : memory.Visible queue.first) :
    Settles memory (.popIf f) ((Call.popIf f).reference queue).1 ((Call.popIf f).reference queue).2 := by
  obtain ⟨written, consumed, represents, write, _⟩ := settled
  obtain ⟨loads, final, outcome, _, run, answer⟩ := pop_if_settles memory queue written consumed f represents visible
  rw [PopIfSettled] at answer
  rw [Call.reference]
  cases popped : queue.pop? with
  | some pair =>
      obtain ⟨v, next⟩ := pair
      rw [popped] at answer
      by_cases accepted : f v (config.fullSeq queue.first) = true
      · simp only [if_pos accepted] at answer ⊢
        obtain ⟨rfl, held⟩ := answer
        exact loop_settles memory next (.popIf f) loads final _ _ run rfl
          (settled_popped final queue next written v held popped write)
      · simp only [if_neg accepted] at answer ⊢
        obtain ⟨rfl, held⟩ := answer
        exact loop_settles memory queue (.popIf f) loads final _ _ run rfl ⟨_, _, held, write, fun _ => rfl⟩
  | none =>
      rw [popped] at answer
      obtain ⟨rfl, held⟩ := answer
      exact loop_settles memory queue (.popIf f) loads final _ _ run rfl ⟨_, _, held, write, fun _ => rfl⟩

theorem keep_call (call : Call config Data) (d : Data) (reply : Reply config Data) (settled : Settled memory queue)
    (keeps : call = .pushKeepN d ∨ call = .pushKeepNIndex d)
    (stored : resume call.start (.pushed (some (config.number queue.total))) = (none, some reply)) :
    Settles memory call (queue.pushDropping config.size_positive d) reply := by
  have entry : call.entry = .pushLoad d := by
    rcases keeps with rfl | rfl <;> rfl
  have refused : (resume call.start (.pushed none)).1 = some ⟨call, 0, .readLoad .pop⟩ := by
    rcases keeps with rfl | rfl <;> rfl
  have dropped : ∀ pair, (resume ⟨call, 0, .readLoad .pop⟩ (.popped (some pair))).1 = some call.start := by
    rcases keeps with rfl | rfl <;> exact fun _ => rfl
  obtain ⟨written, consumed, represents, _, read⟩ := settled
  obtain ⟨loads, final, outcome, _, run, pushAnswer⟩ :=
    push_settles memory queue written consumed d 1 represents represents.writeLag.2
  rw [← entry] at run
  rw [PushSettled] at pushAnswer
  cases pushed : queue.push? d with
  | some next =>
      rw [pushed] at pushAnswer
      obtain ⟨rfl, held⟩ := pushAnswer
      rw [Fifo.push_dropping_room queue next config.size_positive d pushed]
      exact loop_settles memory next call loads final _ reply run stored
        (settled_pushed final queue next consumed d held pushed read)
  | none =>
      rw [pushed] at pushAnswer
      obtain ⟨rfl, held⟩ := pushAnswer
      obtain ⟨lost, rest, popped, total, last⟩ := Fifo.push_dropping_full queue config.size_positive d pushed
      obtain ⟨popLoads, middle, removed, _, popRun, popAnswer⟩ := pop_settles final queue queue.total consumed held
      rw [PopSettled, popped] at popAnswer
      obtain ⟨rfl, left⟩ := popAnswer
      obtain ⟨written, consumed, after, write, eager⟩ := settled_popped middle queue rest queue.total lost left popped (fun _ => rfl)
      obtain ⟨restLoads, ending, added, _, restRun, restAnswer⟩ :=
        push_settles middle rest written consumed d 1 after after.writeLag.2
      rw [PushSettled, last] at restAnswer
      obtain ⟨rfl, kept⟩ := restAnswer
      rw [total] at restRun
      rw [← entry] at restRun
      have third := call_loop_returns middle ending call.start call.entry restLoads _ reply restRun stored
      have second := call_loop_goes final middle ⟨call, 0, .readLoad .pop⟩ call.start (.readLoad .pop) popLoads restLoads _ ending reply
        popRun (dropped _) third
      have first := call_loop_goes memory final call.start ⟨call, 0, .readLoad .pop⟩ call.entry loads (popLoads + restLoads) _ ending
        reply run refused second
      exact ⟨_, ending, first, settled_pushed ending rest _ consumed d kept last eager⟩

theorem exchange_call (i : Index config) (old new : Data) (settled : Settled memory queue) :
    Settles memory (.exchange i old new) (exchanged queue i old new) (exchangeReply queue i old) := by
  obtain ⟨written, consumed, represents, write, read⟩ := settled
  obtain ⟨lower, upper, residue⟩ := Word.at_least_spec config.half queue.first i.toNat config.half_positive
  have exact := exchange_iff memory queue written consumed i (named queue i) old represents residue lower upper
  rw [exchanged, exchangeReply]
  by_cases hit : memory.entry i = ⟨old, (i <<< 1) ||| 1⟩
  · obtain ⟨next, replaced⟩ := (Fifo.replace_iff queue (named queue i) old new).mpr (exact.mp hit)
    have swapped := swap_represents memory queue next written consumed i (named queue i) old new represents residue replaced
    obtain ⟨_, first, _⟩ := Fifo.replace_fields queue next (named queue i) old new replaced
    have total := Fifo.replace_total queue next (named queue i) old new replaced
    have effect := exec_exchange_hit memory i old new hit
    have run := Alone.leave memory (.exchange i old new) (by simp [effect])
    rw [effect] at run
    rw [replaced, if_pos (exact.mp hit)]
    exact loop_settles memory next (.exchange i old new) _ _ _ _ run rfl
      ⟨_, _, swapped, fun eager => (write eager).trans total.symm, fun eager => (read eager).trans first.symm⟩
  · have absent : queue.get? (named queue i) ≠ some old := fun held => hit (exact.mpr held)
    have effect := exec_exchange_miss memory i old new hit
    have run := Alone.leave memory (.exchange i old new) (by simp [effect])
    rw [effect] at run
    rw [Fifo.replace?, if_neg absent, if_neg absent]
    exact loop_settles memory queue (.exchange i old new) _ _ _ _ run rfl ⟨_, _, represents, write, read⟩

theorem consume_call (f : Data → Index config → Bool) (count : Nat) (settled : Settled memory queue) :
    ∃ loads final, CallAlone memory ⟨.consume f, count, .readLoad .pop⟩ loads final
        (.consumed (count + Fifo.drained (fun v number => f v (config.number number)) queue.first queue.items)) ∧
      Settled final (queue.drop (Fifo.drained (fun v number => f v (config.number number)) queue.first queue.items)) := by
  induction items : queue.items generalizing memory queue count with
  | nil =>
      obtain ⟨written, consumed, represents, write, _⟩ := settled
      obtain ⟨loads, final, outcome, _, run, answer⟩ := pop_settles memory queue written consumed represents
      have popped : queue.pop? = none := by rw [Fifo.pop_none, Fifo.total, items]; rfl
      rw [PopSettled, popped] at answer
      obtain ⟨rfl, held⟩ := answer
      exact ⟨loads, final, call_loop_returns memory final ⟨.consume f, count, .readLoad .pop⟩ _ loads _ _ run rfl,
        _, _, held, write, fun _ => rfl⟩
  | cons value rest ih =>
      obtain ⟨written, consumed, represents, write, _⟩ := settled
      obtain ⟨loads, final, outcome, _, run, answer⟩ := pop_settles memory queue written consumed represents
      cases popped : queue.pop? with
      | none =>
          have emptied := (Fifo.pop_none queue).mp popped
          rw [Fifo.total, items, List.length_cons] at emptied
          omega
      | some pair =>
          obtain ⟨v, next⟩ := pair
          rw [PopSettled, popped] at answer
          obtain ⟨rfl, held⟩ := answer
          have left := settled_popped final queue next written v held popped write
          have same := (Fifo.pop_items queue next v popped).1
          rw [items] at same
          have one := Fifo.drained_some (fun v number => f v (config.number number)) queue next v popped
          rw [items] at one
          rw [one]
          by_cases accepted : f v (config.number queue.first) = true
          · rw [if_pos accepted, Fifo.pop_drop queue next v popped, Fifo.drop_zero]
            refine ⟨loads, final, ?_, left⟩
            exact call_loop_returns memory final ⟨.consume f, count, .readLoad .pop⟩ _ loads _ _ run
              (by simp only [resume, if_pos accepted])
          · rw [if_neg accepted, Fifo.pop_drop queue next v popped]
            obtain ⟨restLoads, last, later, ending⟩ := ih final next (count + 1) left (List.cons.inj same).2.symm
            rw [(List.cons.inj same).2] at later ending
            refine ⟨loads + restLoads, last, ?_, ending⟩
            rw [Nat.add_comm (Fifo.drained _ _ _) 1, ← Nat.add_assoc]
            exact call_loop_goes memory final ⟨.consume f, count, .readLoad .pop⟩ ⟨.consume f, count + 1, .readLoad .pop⟩ _ loads
              restLoads _ last _ run (by simp only [resume, if_neg accepted]) later

theorem call_refines (call : Call config Data) (settled : Settled memory queue) (legal : call.Legal queue)
    (small : queue.total < config.limit) :
    Settles memory call (call.reference queue).1 (call.reference queue).2 := by
  have visible : memory.Visible queue.first := by
    obtain ⟨written, consumed, represents, _, _⟩ := settled
    have bound := Fifo.total_bound queue
    rw [Config.limit] at small
    exact low_visible memory queue written consumed represents (by omega)
  cases call with
  | push d => exact (push_call memory queue d settled).1
  | pushIndex d => exact (push_call memory queue d settled).2
  | pop => exact (pop_call memory queue settled).1
  | popIndex => exact (pop_call memory queue settled).2
  | pushKeepN d => exact keep_call memory queue (.pushKeepN d) d _ settled (.inl rfl) rfl
  | pushKeepNIndex d => exact keep_call memory queue (.pushKeepNIndex d) d _ settled (.inr rfl) rfl
  | exchange i old new =>
      obtain ⟨k, below, index⟩ := legal
      rw [← exchange_reference queue i old new k below small index]
      exact exchange_call memory queue i old new settled
  | peek =>
      have kept : ((Call.peek).reference queue).1 = queue := by
        rw [Call.reference]
        split <;> rfl
      rw [kept]
      exact (peek_call memory queue settled visible).1
  | peekIndex => exact legal.elim
  | popIf f => exact pop_if_call memory queue f settled visible
  | consume f =>
      obtain ⟨loads, final, run, held⟩ := consume_call memory queue f 0 settled
      rw [Nat.zero_add] at run
      exact ⟨loads, final, run, held⟩
  | empty => exact legal.elim

theorem call_alone_unique (task : Task config Data) (loads others : Nat) (final last : Memory config Data)
    (reply other : Reply config Data) (first : CallAlone memory task loads final reply)
    (second : CallAlone memory task others last other) : final = last ∧ reply = other := by
  induction first generalizing others with
  | returns memory task reply ended =>
      cases second with
      | returns _ _ _ same =>
          rw [ended] at same
          cases same
          exact ⟨rfl, rfl⟩
      | goes _ _ _ after _ _ continues later =>
          rw [ended] at continues
          cases continues
  | goes memory final task after loads reply continues later ih =>
      cases second with
      | returns _ _ _ ended =>
          rw [ended] at continues
          cases continues
      | goes _ _ _ next _ _ goes rest =>
          rw [continues] at goes
          cases goes
          exact ih _ rest

theorem history_unique (calls : List (Call config Data)) (replies others : List (Reply config Data)) (final last : Memory config Data)
    (first : History memory calls replies final) (second : History memory calls others last) : replies = others := by
  induction first generalizing others with
  | done memory =>
      cases second
      rfl
  | call memory middle final call rest loads reply replies alone later ih =>
      cases second with
      | call _ between _ _ _ more answer answers run after =>
          obtain ⟨same, equal⟩ := call_alone_unique memory call.start loads more middle between reply answer alone run
          subst same equal
          rw [ih answers after]

theorem history_refines (calls : List (Call config Data)) (settled : Settled memory queue)
    (legal : LegalHistory queue calls) (small : (replay queue calls).1.total < config.limit) :
    ∃ final, History memory calls (replay queue calls).2 final ∧ Settled final (replay queue calls).1 := by
  induction calls generalizing memory queue with
  | nil => exact ⟨memory, .done memory, settled⟩
  | cons call rest ih =>
      obtain ⟨first, others⟩ := legal
      have used := replay_total queue (call :: rest)
      obtain ⟨loads, middle, run, held⟩ := call_refines memory queue call settled first (by omega)
      obtain ⟨final, later, left⟩ := ih middle (call.reference queue).1 held others small
      exact ⟨final, .call memory middle final call rest loads _ _ run later, left⟩

end

section

variable {config : Config} {Data : Type} [DecidableEq Data] [Zero Data]

-- Every call of a sequential history terminates, and with the replies of the reference queue.
theorem sequential_refinement (calls : List (Call config Data)) (legal : LegalHistory Fifo.empty calls)
    (few : (replay (Fifo.empty : Fifo Data config.size) calls).1.total < config.limit) :
    (∃ final written consumed, History (Memory.initial config Data) calls (replay Fifo.empty calls).2 final ∧
      Represents final (replay Fifo.empty calls).1 written consumed) ∧
    ∀ replies final, History (Memory.initial config Data) calls replies final → replies = (replay Fifo.empty calls).2 := by
  obtain ⟨last, expected, written, consumed, held, _⟩ :=
    history_refines (Memory.initial config Data) Fifo.empty calls settled_initial legal few
  refine ⟨⟨last, written, consumed, expected, held⟩, ?_⟩
  intro replies final run
  exact history_unique _ calls replies _ final last run expected

end

-- Two slots filled, one dropped, one exchanged and both consumed.
def mixedCalls : List (Call smallQueue Nat) :=
  [.pushIndex 6, .push 7, .pushKeepNIndex 8, .exchange 2 8 5, .peek, .popIf fun v _ => v == 5, .consume fun v _ => v == 5, .pop]

theorem mixed_calls_legal : LegalHistory Fifo.empty mixedCalls :=
  ⟨trivial, trivial, trivial, ⟨2, by decide +kernel, rfl⟩, trivial, trivial, trivial, trivial, trivial⟩

theorem sequential_refinement_mixed :
    ∃ final, History (Memory.initial smallQueue Nat) mixedCalls
      [.done none (some 0), .done none none, .done none (some 2), .done none none, .done (some 7) none, .failed, .consumed 2, .failed]
      final := by
  obtain ⟨⟨final, _, _, run, _⟩, _⟩ := sequential_refinement mixedCalls mixed_calls_legal (by decide +kernel)
  exact ⟨final, run⟩

end LockfreeQueue
