import LockfreeQueue.Represents
import LockfreeQueue.Steps

set_option autoImplicit false

namespace LockfreeQueue

section

variable {config : Config} {Data : Type}

def Pc.loads : Pc config Data → Nat
  | .pushLoad _ | .readLoad _ => 1
  | _ => 0

variable [DecidableEq Data] [Zero Data]

-- A loop run by one thread while no other thread makes a step. `loads` counts its iterations,
-- each of which begins with a load of the index.
inductive Alone : Memory config Data → Pc config Data → Nat → Memory config Data → Next config Data → Prop where
  | leave (memory : Memory config Data) (pc : Pc config Data) (left : ∀ after, (exec memory pc).next ≠ .goto after) :
      Alone memory pc pc.loads (exec memory pc).memory (exec memory pc).next
  | stay (memory final : Memory config Data) (pc after : Pc config Data) (loads : Nat) (outcome : Next config Data)
      (goes : (exec memory pc).next = .goto after) (later : Alone (exec memory pc).memory after loads final outcome) :
      Alone memory pc (pc.loads + loads) final outcome

variable (memory final : Memory config Data) (queue next : Fifo Data config.size) (written consumed : Nat)

def PushAnswer (d : Data) (final : Memory config Data) (outcome : Next config Data) : Prop :=
  match queue.push? d with
  | some next => outcome = .pushed (some (config.number queue.total)) ∧ ∃ written, Represents final next written consumed
  | none => outcome = .pushed none ∧ ∃ written, Represents final queue written consumed

-- What is left when the call had run alone: a success leaves its index as the mode has it, a
-- refusal leaves it at the end of the queue.
def PushSettled (d : Data) (final : Memory config Data) (outcome : Next config Data) : Prop :=
  match queue.push? d with
  | some next => outcome = .pushed (some (config.number queue.total)) ∧ Represents final next (config.pushedIndex queue.total) consumed
  | none => outcome = .pushed none ∧ Represents final queue queue.total consumed

theorem fill_alone (d : Data) (represents : Represents memory queue written consumed) (current : written = queue.total)
    (pushed : queue.push? d = some next) :
    ∃ final, Alone memory (.pushFill d (config.number queue.total)) 0 final (.pushed (some (config.number queue.total))) ∧
      Represents final next (config.pushedIndex queue.total) consumed := by
  have room := (Fifo.push_items queue next d pushed).1
  have total := Fifo.push_total queue next d pushed
  have hit := fill_complete memory queue written consumed represents (by rw [Fifo.total]; omega)
  have stored := store_represents memory queue next written consumed d represents current pushed
  have effect := exec_fill_hit memory d (config.number queue.total) hit
  rw [Config.pushedIndex]
  by_cases lazy : config.lazyPush = true
  · rw [if_pos lazy] at effect
    have left := Alone.leave memory (.pushFill d (config.number queue.total)) (by simp [effect])
    rw [effect] at left
    rw [current] at stored
    rw [if_pos lazy]
    exact ⟨_, left, stored⟩
  · rw [if_neg lazy] at effect
    have moved := exec_done (exec memory (.pushFill d (config.number queue.total))).memory d (config.number queue.total)
    have index : (exec memory (.pushFill d (config.number queue.total))).memory.writeIndex = config.number queue.total := by
      rw [effect, Memory.set_entry_write, represents.write, current]
    rw [if_pos index] at moved
    have left := Alone.leave (exec memory (.pushFill d (config.number queue.total))).memory
      (.pushDone d (config.number queue.total)) (by simp [moved])
    refine ⟨_, .stay memory _ _ _ _ _ (by rw [effect]) left, ?_⟩
    rw [moved, effect, if_neg lazy]
    have advanced := write_represents _ next written consumed stored (by omega)
    rw [current] at advanced
    exact advanced

-- The iteration that finds its slot filled moves the write index and starts again.
theorem push_skip_alone (d : Data) (loads : Nat) (final : Memory config Data) (outcome : Next config Data)
    (represents : Represents memory queue written consumed)
    (branch : pushBranch config (config.number written) (memory.entry (config.number written)).seq = .advance)
    (later : Alone { memory with writeIndex := config.number written + 1 } (.pushLoad d) loads final outcome) :
    Alone memory (.pushLoad d) (loads + 1) final outcome := by
  have loaded : (exec memory (.pushLoad d)).next = .goto (.pushRead d (config.number written)) := by
    rw [← represents.write]
    rfl
  have goes : (exec memory (.pushRead d (config.number written))).next = .goto (.pushAdvance d (config.number written)) := by
    simp only [exec, pushSlot, branch]
  have moved := exec_push_advance memory d (config.number written)
  rw [if_pos represents.write] at moved
  have rest : Alone memory (.pushAdvance d (config.number written)) loads final outcome := by
    have step := Alone.stay memory final (.pushAdvance d (config.number written)) (.pushLoad d) loads outcome
      (by rw [moved]) (by rw [moved]; exact later)
    simpa [Pc.loads] using step
  have read := Alone.stay memory final _ _ _ _ goes rest
  have load := Alone.stay memory final _ _ _ _ loaded read
  simpa [Pc.loads, Nat.add_comm] using load

theorem push_iteration (d : Data) (represents : Represents memory queue written consumed) :
    (∃ final outcome, Alone memory (.pushLoad d) 1 final outcome ∧ PushSettled queue consumed d final outcome) ∨
      (written < queue.total ∧ ∀ loads final outcome,
        Alone { memory with writeIndex := config.number written + 1 } (.pushLoad d) loads final outcome →
          Alone memory (.pushLoad d) (loads + 1) final outcome) := by
  have lag := represents.writeLag
  have fits := config.size_half
  have positive := config.size_positive
  have sound := push_branch_sound memory queue written consumed written represents (Nat.le_refl _) (by omega)
  have loaded : (exec memory (.pushLoad d)).next = .goto (.pushRead d (config.number written)) := by
    rw [← represents.write]
    rfl
  cases branch : pushBranch config (config.number written) (memory.entry (config.number written)).seq with
  | fill =>
      rw [branch] at sound
      obtain ⟨current, room⟩ := sound
      obtain ⟨next, pushed⟩ := Fifo.push_room queue d room
      obtain ⟨final, filled, stored⟩ := fill_alone memory queue next written consumed d represents current pushed
      have goes : (exec memory (.pushRead d (config.number written))).next = .goto (.pushFill d (config.number queue.total)) := by
        rw [← current]
        simp only [exec, pushSlot, branch]
      refine .inl ⟨final, _, .stay memory final _ _ 0 _ loaded (.stay memory final _ _ 0 _ goes filled), ?_⟩
      rw [PushSettled, pushed]
      exact ⟨rfl, stored⟩
  | advance =>
      rw [branch] at sound
      exact .inr ⟨sound, fun loads final outcome later =>
        push_skip_alone memory queue written consumed d loads final outcome represents branch later⟩
  | full =>
      rw [branch] at sound
      have gives : (exec memory (.pushRead d (config.number written))).next = .pushed none := by
        simp only [exec, pushSlot, branch]
      have left := Alone.leave memory (.pushRead d (config.number written)) (by simp [gives])
      refine .inl ⟨_, _, .stay memory _ _ _ 0 _ loaded left, ?_⟩
      have current : written = queue.total := by
        by_contra behind
        have slots := push_branch_behind memory queue written consumed represents (by omega)
        rw [branch] at slots
        cases slots
      rw [PushSettled, (Fifo.push_full queue d).mpr sound, gives, ← current]
      exact ⟨rfl, represents⟩
  | retry =>
      rw [branch] at sound
      exact absurd sound (Nat.lt_irrefl written)

theorem push_settles (d : Data) (lag : Nat) (represents : Represents memory queue written consumed)
    (behind : queue.total ≤ written + lag) :
    ∃ loads final outcome, loads ≤ lag + 1 ∧ Alone memory (.pushLoad d) loads final outcome ∧
      PushSettled queue consumed d final outcome := by
  induction lag generalizing memory written with
  | zero =>
      rcases push_iteration memory queue written consumed d represents with ⟨final, outcome, run, answer⟩ | ⟨less, _⟩
      · exact ⟨1, final, outcome, Nat.le_refl 1, run, answer⟩
      · omega
  | succ lag ih =>
      rcases push_iteration memory queue written consumed d represents with ⟨final, outcome, run, answer⟩ | ⟨less, extend⟩
      · exact ⟨1, final, outcome, by omega, run, answer⟩
      · have advanced := write_represents memory queue written consumed represents less
        obtain ⟨loads, final, outcome, bound, run, answer⟩ := ih _ (written + 1) advanced (by omega)
        exact ⟨loads + 1, final, outcome, by omega, extend loads final outcome run, answer⟩

theorem push_alone (d : Data) (lag : Nat) (represents : Represents memory queue written consumed)
    (behind : queue.total ≤ written + lag) :
    ∃ loads final outcome, loads ≤ lag + 1 ∧ Alone memory (.pushLoad d) loads final outcome ∧
      PushAnswer queue consumed d final outcome := by
  obtain ⟨loads, final, outcome, bound, run, settled⟩ := push_settles memory queue written consumed d lag represents behind
  refine ⟨loads, final, outcome, bound, run, ?_⟩
  rw [PushSettled] at settled
  rw [PushAnswer]
  cases pushed : queue.push? d with
  | some next =>
      rw [pushed] at settled
      exact ⟨settled.1, _, settled.2⟩
  | none =>
      rw [pushed] at settled
      exact ⟨settled.1, _, settled.2⟩

theorem read_load (loop : ReadLoop config Data) (loads : Nat) (outcome : Next config Data)
    (represents : Represents memory queue written consumed)
    (later : Alone memory (.readSlot loop (config.number consumed)) loads final outcome) :
    Alone memory (.readLoad loop) (loads + 1) final outcome := by
  have loaded : (exec memory (.readLoad loop)).next = .goto (.readSlot loop (config.number consumed)) := by
    rw [← represents.read]
    rfl
  have load := Alone.stay memory final _ _ _ _ loaded later
  simpa [Pc.loads, Nat.add_comm] using load

theorem look_alone (loop : ReadLoop config Data) (outcome : Next config Data) (represents : Represents memory queue written consumed)
    (looked : readSlot loop (config.number consumed) (memory.entry (config.number consumed)) = outcome)
    (left : ∀ after, outcome ≠ .goto after) : Alone memory (.readLoad loop) 1 memory outcome := by
  subst looked
  exact read_load memory memory queue written consumed loop 0 _ represents
    (.leave memory (.readSlot loop (config.number consumed)) left)

theorem skip_alone (loop : ReadLoop config Data) (loads : Nat) (outcome : Next config Data)
    (represents : Represents memory queue written consumed)
    (looked : readSlot loop (config.number consumed) (memory.entry (config.number consumed)) =
      .goto (.readAdvance loop (config.number consumed)))
    (later : Alone { memory with readIndex := config.number consumed + 1 } (.readLoad loop) loads final outcome) :
    Alone memory (.readLoad loop) (loads + 1) final outcome := by
  have moved := exec_read_advance memory loop (config.number consumed)
  rw [if_pos represents.read] at moved
  have rest : Alone memory (.readAdvance loop (config.number consumed)) loads final outcome := by
    have step := Alone.stay memory final (.readAdvance loop (config.number consumed)) (.readLoad loop) loads outcome
      (by rw [moved]) (by rw [moved]; exact later)
    simpa [Pc.loads] using step
  have look := Alone.stay memory final (.readSlot loop (config.number consumed)) _ _ _ looked rest
  exact read_load memory final queue written consumed loop loads outcome represents (by simpa [Pc.loads] using look)

theorem take_alone (loop : ReadLoop config Data) (v : Data) (represents : Represents memory queue written consumed)
    (current : consumed = queue.first) (popped : queue.pop? = some (v, next))
    (looked : readSlot loop (config.number consumed) (memory.entry (config.number consumed)) =
      .goto (.take loop (config.number consumed) (memory.entry (config.number consumed)))) :
    ∃ final, Alone memory (.readLoad loop) 1 final (taken loop (config.number consumed) ⟨v, config.fullSeq consumed⟩) ∧
      Represents final next written (config.poppedIndex queue.first) := by
  have first := (Fifo.pop_items queue next v popped).2
  have entry : memory.entry (config.number consumed) = ⟨v, config.fullSeq consumed⟩ :=
    represents.full consumed v (by rw [current]; exact Fifo.pop_head queue next v popped)
  have removed := take_represents memory queue next written consumed v represents current popped
  have effect := exec_take_hit memory loop (config.number consumed) _ entry
  rw [entry] at looked
  suffices rest : ∃ final, Alone memory (.take loop (config.number consumed) ⟨v, config.fullSeq consumed⟩) 0 final
      (taken loop (config.number consumed) ⟨v, config.fullSeq consumed⟩) ∧
        Represents final next written (config.poppedIndex queue.first) by
    obtain ⟨final, run, held⟩ := rest
    have look := Alone.stay memory final (.readSlot loop (config.number consumed)) _ _ _ (by rw [← looked, ← entry]; rfl) run
    exact ⟨final, read_load memory final queue written consumed loop 0 _ represents look, held⟩
  rw [← current] at removed
  rw [Config.poppedIndex, ← current]
  by_cases lazy : config.lazyPop = true
  · rw [if_pos lazy] at effect
    have left := Alone.leave memory (.take loop (config.number consumed) ⟨v, config.fullSeq consumed⟩)
      (by simp [effect, taken_no_goto])
    rw [effect] at left
    rw [if_pos lazy]
    exact ⟨_, left, removed⟩
  · rw [if_neg lazy] at effect
    have moved := exec_take_done (exec memory (.take loop (config.number consumed) ⟨v, config.fullSeq consumed⟩)).memory
      loop (config.number consumed) ⟨v, config.fullSeq consumed⟩
    have index : (exec memory (.take loop (config.number consumed) ⟨v, config.fullSeq consumed⟩)).memory.readIndex =
        config.number consumed := by
      rw [effect, Memory.set_entry_read, represents.read]
    rw [if_pos index] at moved
    have left := Alone.leave (exec memory (.take loop (config.number consumed) ⟨v, config.fullSeq consumed⟩)).memory
      (.takeDone loop (config.number consumed) ⟨v, config.fullSeq consumed⟩) (by simp [moved, taken_no_goto])
    rw [moved] at left
    refine ⟨_, .stay memory _ _ _ _ _ (by rw [effect]) left, ?_⟩
    rw [effect, if_neg lazy]
    exact read_represents _ next written consumed removed (by omega)

-- The read index is at the head or one behind it, so a loop over it makes at most two rounds.
theorem read_alone (loop : ReadLoop config Data) (Answers : Memory config Data → Next config Data → Prop)
    (here : ∀ memory consumed, Represents memory queue written consumed → consumed = queue.first →
      ∃ final outcome, Alone memory (.readLoad loop) 1 final outcome ∧ Answers final outcome)
    (lap : consumed < queue.first → readSlot loop (config.number consumed) (memory.entry (config.number consumed)) =
      .goto (.readAdvance loop (config.number consumed)))
    (represents : Represents memory queue written consumed) :
    ∃ loads final outcome, loads ≤ 2 ∧ Alone memory (.readLoad loop) loads final outcome ∧ Answers final outcome := by
  have bound := represents.readLag
  by_cases current : consumed = queue.first
  · obtain ⟨final, outcome, run, answer⟩ := here memory consumed represents current
    exact ⟨1, final, outcome, by omega, run, answer⟩
  · have less : consumed < queue.first := by omega
    have advanced := read_represents memory queue written consumed represents less
    obtain ⟨final, outcome, run, answer⟩ := here _ (consumed + 1) advanced (by omega)
    exact ⟨2, final, outcome, Nat.le_refl 2,
      skip_alone memory final queue written consumed loop 1 outcome represents (lap less) run, answer⟩

def PopAnswer (final : Memory config Data) (outcome : Next config Data) : Prop :=
  match queue.pop? with
  | some (v, next) => outcome = .popped (some (config.number queue.first, v)) ∧ ∃ consumed, Represents final next written consumed
  | none => outcome = .popped none ∧ ∃ consumed, Represents final queue written consumed

def PopSettled (final : Memory config Data) (outcome : Next config Data) : Prop :=
  match queue.pop? with
  | some (v, next) => outcome = .popped (some (config.number queue.first, v)) ∧
      Represents final next written (config.poppedIndex queue.first)
  | none => outcome = .popped none ∧ Represents final queue written queue.first

def PeekSettled (final : Memory config Data) (outcome : Next config Data) : Prop :=
  (match queue.pop? with
    | some (v, _) => outcome = .peeked ⟨v, config.fullSeq queue.first⟩
    | none => outcome = .reply .failed) ∧ Represents final queue written queue.first

-- The functor of pop_if is given the sequence word of the slot, not the number of the element.
def PopIfSettled (f : Data → Index config → Bool) (final : Memory config Data) (outcome : Next config Data) : Prop :=
  match queue.pop? with
  | some (v, next) =>
      if f v (config.fullSeq queue.first) = true then
        outcome = .reply (.done (some v) none) ∧ Represents final next written (config.poppedIndex queue.first)
      else outcome = .reply .failed ∧ Represents final queue written queue.first
  | none => outcome = .reply .failed ∧ Represents final queue written queue.first

theorem pop_here (represents : Represents memory queue written consumed) (current : consumed = queue.first) :
    ∃ final outcome, Alone memory (.readLoad .pop) 1 final outcome ∧ PopSettled queue written final outcome := by
  have positive := config.size_positive
  have fits := config.size_half
  rcases head_entry memory queue written consumed represents current with ⟨v, next, popped, entry⟩ | ⟨popped, entry⟩
  · have branch := pop_branch_full config consumed consumed (Nat.le_refl _) (by omega)
    rw [if_pos rfl] at branch
    obtain ⟨final, run, held⟩ := take_alone memory queue next written consumed .pop v represents current popped
      (by simp only [readSlot, popSlot, entry, branch])
    refine ⟨final, _, run, ?_⟩
    rw [PopSettled, popped, current]
    exact ⟨rfl, held⟩
  · have branch := pop_branch_empty config consumed consumed (Nat.le_refl _) (by omega)
    rw [if_neg (by omega), if_pos rfl] at branch
    refine ⟨memory, .popped none, look_alone memory queue written consumed .pop _ represents ?_ (by simp), ?_⟩
    · simp only [readSlot, popSlot, entry, branch]
    · rw [PopSettled, popped, ← current]
      exact ⟨rfl, represents⟩

theorem pop_settles (represents : Represents memory queue written consumed) :
    ∃ loads final outcome, loads ≤ 2 ∧ Alone memory (.readLoad .pop) loads final outcome ∧
      PopSettled queue written final outcome := by
  have positive := config.size_positive
  have fits := config.size_half
  refine read_alone memory queue written consumed .pop (PopSettled queue written)
    (fun memory consumed => pop_here memory queue written consumed) ?_ represents
  intro behind
  have full := pop_branch_full config consumed (consumed + config.size) (by omega) (by omega)
  have empty := pop_branch_empty config consumed (consumed + config.size) (by omega) (by omega)
  rw [if_neg (by omega), if_pos rfl] at full
  rw [if_pos rfl] at empty
  rcases lap_entry memory queue written consumed represents behind with entry | entry
  · simp only [readSlot, popSlot, entry, full]
  · simp only [readSlot, popSlot, entry, empty]

theorem pop_alone (represents : Represents memory queue written consumed) :
    ∃ loads final outcome, loads ≤ 2 ∧ Alone memory (.readLoad .pop) loads final outcome ∧
      PopAnswer queue written final outcome := by
  obtain ⟨loads, final, outcome, bound, run, settled⟩ := pop_settles memory queue written consumed represents
  refine ⟨loads, final, outcome, bound, run, ?_⟩
  rw [PopSettled] at settled
  rw [PopAnswer]
  cases popped : queue.pop? with
  | none =>
      rw [popped] at settled
      exact ⟨settled.1, _, settled.2⟩
  | some pair =>
      rw [popped] at settled
      exact ⟨settled.1, _, settled.2⟩

theorem peek_here (represents : Represents memory queue written consumed) (current : consumed = queue.first) :
    ∃ final outcome, Alone memory (.readLoad .peek) 1 final outcome ∧ PeekSettled queue written final outcome := by
  rcases peek_head memory queue written consumed represents current with ⟨v, next, popped, entry, branch⟩ | ⟨popped, branch⟩
  · refine ⟨memory, .peeked ⟨v, config.fullSeq queue.first⟩,
      look_alone memory queue written consumed .peek _ represents ?_ (by simp), ?_⟩
    · simp only [readSlot, peekSlot, branch]
      rw [entry, current]
    · rw [PeekSettled, popped, ← current]
      exact ⟨rfl, represents⟩
  · refine ⟨memory, .reply .failed, look_alone memory queue written consumed .peek _ represents ?_ (by simp), ?_⟩
    · simp only [readSlot, peekSlot, branch]
    · rw [PeekSettled, popped, ← current]
      exact ⟨rfl, represents⟩

theorem pop_if_here (f : Data → Index config → Bool) (represents : Represents memory queue written consumed)
    (current : consumed = queue.first) :
    ∃ final outcome, Alone memory (.readLoad (.popIf f)) 1 final outcome ∧ PopIfSettled queue written f final outcome := by
  rcases peek_head memory queue written consumed represents current with ⟨v, next, popped, entry, branch⟩ | ⟨popped, branch⟩
  · by_cases accepted : f v (config.fullSeq queue.first) = true
    · obtain ⟨final, run, held⟩ := take_alone memory queue next written consumed (.popIf f) v represents current popped
        (by simp only [readSlot, popIfSlot, branch]; rw [entry, current, if_pos accepted])
      refine ⟨final, _, run, ?_⟩
      rw [PopIfSettled, popped]
      simp only [if_pos accepted]
      exact ⟨rfl, held⟩
    · refine ⟨memory, .reply .failed, look_alone memory queue written consumed (.popIf f) _ represents ?_ (by simp), ?_⟩
      · simp only [readSlot, popIfSlot, branch]
        rw [entry, current, if_neg accepted]
      · rw [PopIfSettled, popped, ← current]
        simp only [current, if_neg accepted]
        exact ⟨trivial, current ▸ represents⟩
  · refine ⟨memory, .reply .failed, look_alone memory queue written consumed (.popIf f) _ represents ?_ (by simp), ?_⟩
    · simp only [readSlot, popIfSlot, branch]
    · rw [PopIfSettled, popped, ← current]
      exact ⟨rfl, represents⟩

theorem peek_settles (represents : Represents memory queue written consumed) (visible : memory.Visible queue.first) :
    ∃ loads final outcome, loads ≤ 2 ∧ Alone memory (.readLoad .peek) loads final outcome ∧
      PeekSettled queue written final outcome := by
  refine read_alone memory queue written consumed .peek (PeekSettled queue written)
    (fun memory consumed => peek_here memory queue written consumed) ?_ represents
  intro behind
  simp only [readSlot, peekSlot, peek_lap memory queue written consumed represents behind visible]

theorem pop_if_settles (f : Data → Index config → Bool) (represents : Represents memory queue written consumed)
    (visible : memory.Visible queue.first) :
    ∃ loads final outcome, loads ≤ 2 ∧ Alone memory (.readLoad (.popIf f)) loads final outcome ∧
      PopIfSettled queue written f final outcome := by
  refine read_alone memory queue written consumed (.popIf f) (PopIfSettled queue written f)
    (fun memory consumed => pop_if_here memory queue written consumed f) ?_ represents
  intro behind
  simp only [readSlot, popIfSlot, peek_lap memory queue written consumed represents behind visible]

-- A whole call run alone, through all the loops it enters.
inductive CallAlone : Memory config Data → Task config Data → Nat → Memory config Data → Reply config Data → Prop where
  | returns (memory : Memory config Data) (task : Task config Data) (reply : Reply config Data)
      (ended : resume task (exec memory task.pc).next = (none, some reply)) :
      CallAlone memory task task.pc.loads (exec memory task.pc).memory reply
  | goes (memory final : Memory config Data) (task after : Task config Data) (loads : Nat) (reply : Reply config Data)
      (continues : (resume task (exec memory task.pc).next).1 = some after)
      (later : CallAlone (exec memory task.pc).memory after loads final reply) :
      CallAlone memory task (task.pc.loads + loads) final reply

theorem call_loop_returns (task : Task config Data) (pc : Pc config Data) (loads : Nat) (outcome : Next config Data)
    (reply : Reply config Data) (run : Alone memory pc loads final outcome)
    (ended : resume task outcome = (none, some reply)) : CallAlone memory { task with pc := pc } loads final reply := by
  induction run with
  | leave memory pc left => exact .returns memory _ reply ((resume_place task pc _ left).trans ended)
  | stay memory final pc after loads outcome goes later ih =>
      exact .goes memory final _ { task with pc := after } loads reply (by simp only [goes, resume]) (ih ended)

theorem call_loop_goes (task after : Task config Data) (pc : Pc config Data) (loads rest : Nat) (outcome : Next config Data)
    (last : Memory config Data) (reply : Reply config Data) (run : Alone memory pc loads final outcome)
    (continues : (resume task outcome).1 = some after) (later : CallAlone final after rest last reply) :
    CallAlone memory { task with pc := pc } (loads + rest) last reply := by
  induction run with
  | leave memory pc left => exact .goes memory last _ after rest reply (by rw [resume_place task pc _ left, continues]) later
  | stay memory final pc middle loads outcome goes run ih =>
      rw [Nat.add_assoc]
      exact .goes memory last _ { task with pc := middle } _ reply (by simp only [goes, resume]) (ih continues later)

end

end LockfreeQueue
