import LockfreeQueue.Lagging
import LockfreeQueue.Library.Service
import LockfreeQueue.PopIf

set_option autoImplicit false

namespace LockfreeQueue

-- Where a call stands between two operations on the queue: what its next loop is to do, and
-- consume's accumulator.
structure Standing (config : Config) (Data : Type) where
  call : Call config Data
  count : Nat
  kind : Kind config Data

section

variable {config : Config} {Data : Type}

def Task.standing (task : Task config Data) : Standing config Data := ⟨task.call, task.count, task.pc.kind⟩

def settled : Option (Task config Data) × Option (Reply config Data) → Service.Progress (Standing config Data) (Reply config Data)
  | (_, some reply) => .decided reply
  | (some task, none) => .active task.standing
  | (none, none) => .decided .failed

def Standing.settle (standing : Standing config Data) (outcome : Next config Data) :
    Service.Progress (Standing config Data) (Reply config Data) :=
  settled (resume ⟨standing.call, standing.count, standing.call.entry⟩ outcome)

-- What one loop does to the queue at the moment it takes effect. `lagging` is the freedom of an
-- empty(), and of no other call, to answer false on an empty queue, in any mode; `empty_lags` says
-- when the queue uses it.
def Kind.perform [DecidableEq Data] (queue : Fifo Data config.size) (lagging : Bool) :
    Kind config Data → Fifo Data config.size × Next config Data
  | .push d =>
      match queue.push? d with
      | some next => (next, .pushed (some (config.number queue.total)))
      | none => (queue, .pushed none)
  | .read .pop =>
      match queue.pop? with
      | some (v, next) => (next, .popped (some (config.number queue.first, v)))
      | none => (queue, .popped none)
  | .read (.popIf f) =>
      match queue.pop? with
      | some (v, next) => if f v (config.fullSeq queue.first) then (next, .reply (.done (some v) none)) else (queue, .reply .failed)
      | none => (queue, .reply .failed)
  | .read .peek =>
      match queue.pop? with
      | some (v, _) => (queue, .peeked ⟨v, config.fullSeq queue.first⟩)
      | none => (queue, .reply .failed)
  | .read .empty =>
      match queue.pop? with
      | some _ => (queue, .reply .failed)
      | none => (queue, .reply (if lagging then .failed else .done none none))
  | .exchange i old new => (exchanged queue i old new, .reply (exchangeReply queue i old))

def queueSpec (config : Config) (Data : Type) [DecidableEq Data] :
    Service.Spec (Fifo Data config.size) (Standing config Data) (Call config Data) (Reply config Data) Bool where
  start := Fifo.empty
  enter call := call.start.standing
  commit queue standing lagging :=
    let performed := standing.kind.perform queue lagging
    (performed.1, standing.settle performed.2)

-- The calls that are one push or one pop.
def Call.pushOrPop : Call config Data → Bool
  | .push _ | .pushIndex _ | .pop | .popIndex => true
  | _ => false

theorem single_commit [DecidableEq Data] (queue : Fifo Data config.size) (call : Call config Data) (lagging : Bool)
    (single : call.pushOrPop = true) :
    (queueSpec config Data).commit queue ((queueSpec config Data).enter call) lagging =
      ((call.reference queue).1, .decided (call.reference queue).2) := by
  cases call with
  | push d =>
      simp only [queueSpec, Call.start, Task.standing, Call.entry, Pc.kind, Kind.perform, Call.reference]
      cases queue.push? d <;> rfl
  | pushIndex d =>
      simp only [queueSpec, Call.start, Task.standing, Call.entry, Pc.kind, Kind.perform, Call.reference]
      cases queue.push? d <;> rfl
  | pop =>
      simp only [queueSpec, Call.start, Task.standing, Call.entry, Pc.kind, Kind.perform, Call.reference]
      cases queue.pop? <;> rfl
  | popIndex =>
      simp only [queueSpec, Call.start, Task.standing, Call.entry, Pc.kind, Kind.perform, Call.reference]
      cases queue.pop? <;> rfl
  | _ => cases single

theorem empty_commit [DecidableEq Data] (queue : Fifo Data config.size) (lagging : Bool) :
    (queueSpec config Data).commit queue ((queueSpec config Data).enter .empty) lagging =
      (queue, .decided (if queue.pop? = none ∧ lagging = false then .done none none else .failed)) := by
  simp only [queueSpec, Call.start, Task.standing, Call.entry, Pc.kind, Kind.perform]
  cases queue.pop? with
  | some pair => simp [Standing.settle, resume, settled]
  | none => cases lagging <;> simp [Standing.settle, resume, settled]

-- The queue as its callers see it: a move is one access to shared memory by one thread.
def queueObject (config : Config) (Data : Type) [DecidableEq Data] [Zero Data] :
    Service.Object (System config Data) Nat (Call config Data) (Reply config Data) where
  start := System.initial config Data
  invoke system thread call := system.next (.call thread call)
  move system thread := (system.tasks thread).map fun task =>
    (system.stepTask thread task, (resume task (exec system.memory task.pc).next).2.map fun reply => (thread, reply))

-- The loops that have taken effect and only have to move an index on.
def Pc.outcome : Pc config Data → Option (Next config Data)
  | .pushDone _ wrIndex => some (.pushed (some wrIndex))
  | .takeDone loop rdIndex e => some (taken loop rdIndex e)
  | _ => none

def Task.progress (task : Task config Data) : Service.Progress (Standing config Data) (Reply config Data) :=
  match task.pc.outcome with
  | some outcome => task.standing.settle outcome
  | none => .active task.standing

def Leaves (outcome : Next config Data) : Prop := ∀ pc, outcome ≠ .goto pc

theorem outcome_leaves (pc : Pc config Data) (outcome : Next config Data) (decided : pc.outcome = some outcome) : Leaves outcome := by
  intro after
  cases pc with
  | pushDone d wrIndex => cases decided; simp
  | takeDone loop rdIndex e =>
      cases decided
      exact taken_no_goto loop rdIndex e after
  | _ => cases decided

theorem perform_leaves [DecidableEq Data] (queue : Fifo Data config.size) (lagging : Bool) (kind : Kind config Data) :
    Leaves (kind.perform queue lagging).2 := by
  intro pc
  cases kind with
  | push d => simp only [Kind.perform]; split <;> simp
  | exchange i old new => simp [Kind.perform]
  | read loop =>
      cases loop with
      | popIf f =>
          simp only [Kind.perform]
          split
          · split <;> simp
          · simp
      | _ => simp only [Kind.perform]; split <;> simp

theorem settle_resume (task : Task config Data) (outcome : Next config Data) (leaves : Leaves outcome) :
    task.standing.settle outcome = settled (resume task outcome) := by
  rw [Standing.settle, ← resume_place task task.call.entry outcome leaves]
  rfl

-- A loop that has ended either returns from its call or starts the next loop of it.
theorem resume_cases (task : Task config Data) (outcome : Next config Data) (leaves : Leaves outcome) :
    (∃ reply, resume task outcome = (none, some reply)) ∨
      ∃ next, resume task outcome = (some next, none) ∧ next.pc.isLoad = true := by
  cases outcome with
  | goto pc => exact absurd rfl (leaves pc)
  | pushed result =>
      cases result <;> simp only [resume] <;> split <;> simp [Pc.isLoad]
  | popped result =>
      cases result with
      | none => simp only [resume]; split <;> simp [Pc.isLoad]
      | some pair =>
          simp only [resume]
          split
          · simp [Pc.isLoad]
          · simp [Pc.isLoad]
          · split <;> simp [Pc.isLoad]
          · simp
          · simp
  | peeked e => simp only [resume]; split <;> simp
  | reply reply => simp [resume]

theorem start_progress (call : Call config Data) : call.start.progress = .active call.start.standing := by
  cases call <;> rfl

theorem goto_progress (task : Task config Data) (after : Pc config Data) (kind : after.kind = task.pc.kind)
    (same : after.outcome = task.pc.outcome) : ({ task with pc := after } : Task config Data).progress = task.progress := by
  rw [Task.progress, Task.progress, Task.standing, Task.standing, same, kind]

theorem load_outcome (pc : Pc config Data) (load : pc.isLoad = true) : pc.outcome = none := by
  cases pc <;> first | rfl | cases load

theorem load_progress (task : Task config Data) (load : task.pc.isLoad = true) : task.progress = .active task.standing := by
  rw [Task.progress, load_outcome task.pc load]

theorem look_outcome (loop : ReadLoop config Data) (rdIndex : Index config) (e : Entry config Data) (after : Pc config Data)
    (goes : readSlot loop rdIndex e = .goto after) : after.outcome = none := by
  cases loop with
  | popIf f =>
      simp only [readSlot, popIfSlot] at goes
      split at goes
      · cases goes
      · split at goes <;> cases goes
        rfl
      · cases goes; rfl
      · cases goes; rfl
  | pop => simp only [readSlot, popSlot] at goes; split at goes <;> cases goes <;> rfl
  | peek => simp only [readSlot, peekSlot] at goes; split at goes <;> cases goes <;> rfl
  | empty => simp only [readSlot, emptySlot] at goes; split at goes <;> cases goes

theorem head_of_take [Zero Data] (memory : Memory config Data) (queue : Fifo Data config.size) (rdIndex : Index config)
    (x consumed : Nat) (index : rdIndex = config.number x) (take : PopSound memory queue consumed x .take) :
    ∃ next, queue.pop? = some ((memory.entry rdIndex).data, next) ∧ (memory.entry rdIndex).seq = config.fullSeq queue.first := by
  obtain ⟨current, v, held, stored⟩ := take
  obtain ⟨next, popped⟩ := Fifo.pop_of_get queue v held
  rw [index, stored]
  exact ⟨next, popped, by rw [current]⟩

variable [DecidableEq Data] [Zero Data]
variable (memory : Memory config Data) (log since : List (Event config Data)) (mark : Option Nat) (thread : Nat)
variable (call : Call config Data) (queue : Fifo Data config.size)

-- What an access is in terms of the abstract queue: nothing yet, nothing any more, or the moment
-- at which the loop takes effect.
inductive Performs (pc : Pc config Data) : Prop where
  | silent (after : Pc config Data) (goes : (exec memory pc).next = .goto after) (same : after.outcome = pc.outcome)
      (kept : contents (recorded log thread call (exec memory pc).act ++ log) = some queue)
  | returns (decided : pc.outcome = some (exec memory pc).next)
      (kept : contents (recorded log thread call (exec memory pc).act ++ log) = some queue)
  | commits (lagging : Bool) (undecided : pc.outcome = none)
      (moved : contents (recorded log thread call (exec memory pc).act ++ log) = some (pc.kind.perform queue lagging).1)
      (result : (exec memory pc).next = (pc.kind.perform queue lagging).2 ∨
        ∃ after, (exec memory pc).next = .goto after ∧ after.outcome = some (pc.kind.perform queue lagging).2)

variable (legal : contents log = some queue)
include legal

theorem performs_answer (loop : ReadLoop config Data) (rdIndex : Index config) (lagging : Bool) (outcome : Next config Data)
    (looked : readSlot loop rdIndex (memory.entry rdIndex) = outcome)
    (performed : (Kind.read loop).perform queue lagging = (queue, outcome)) :
    Performs memory log thread call queue (.readSlot loop rdIndex) := by
  refine .commits lagging rfl ?_ (.inl ?_)
  · rw [Pc.kind, performed]
    exact legal
  · rw [Pc.kind, performed]
    exact looked

theorem performs_look (loop : ReadLoop config Data) (rdIndex : Index config) (holds : Holds memory log)
    (known : LocalInv memory log since mark thread (.readSlot loop rdIndex)) (timely : takes since < config.limit) :
    Performs memory log thread call queue (.readSlot loop rdIndex) := by
  obtain ⟨other, x, again, popSound, peekSound, index⟩ := look_sound memory log since mark thread loop rdIndex holds known timely
  have same : other = queue := Option.some.inj (again.symm.trans legal)
  subst same
  have quiet (after : Pc config Data) (goes : readSlot loop rdIndex (memory.entry rdIndex) = .goto after) :
      Performs memory log thread call other (.readSlot loop rdIndex) :=
    .silent after goes (look_outcome loop rdIndex _ after goes) legal
  cases loop with
  | pop =>
      rcases pop_slot_cases rdIndex (memory.entry rdIndex) with ⟨after, goes⟩ | none
      · exact quiet after goes
      · rw [pop_slot_none rdIndex _ none] at popSound
        have empty := (Fifo.pop_none other).mpr popSound
        exact performs_answer memory log thread call other legal .pop rdIndex false _ none (by simp only [Kind.perform, empty])
  | popIf f =>
      rcases pop_if_slot_cases f rdIndex (memory.entry rdIndex) with ⟨after, goes⟩ | failed
      · exact quiet after goes
      · have refuses : (Kind.read (.popIf f)).perform other false = (other, .reply .failed) := by
          rcases pop_if_failed f rdIndex _ failed with empty | ⟨take, rejected⟩
          · rw [empty] at peekSound
            simp only [Kind.perform, (Fifo.pop_none other).mpr (peekSound (by simp))]
          · rw [take] at peekSound
            obtain ⟨next, popped, full⟩ := head_of_take memory other rdIndex x _ index (peekSound (by simp))
            rw [full] at rejected
            simp [Kind.perform, popped, rejected]
        exact performs_answer memory log thread call other legal (.popIf f) rdIndex false _ failed refuses
  | peek =>
      rcases peek_slot_cases rdIndex (memory.entry rdIndex) with ⟨after, goes⟩ | failed | peeked
      · exact quiet after goes
      · rw [peek_slot_failed rdIndex _ failed] at peekSound
        have empty := (Fifo.pop_none other).mpr (peekSound (by simp))
        exact performs_answer memory log thread call other legal .peek rdIndex false _ failed (by simp only [Kind.perform, empty])
      · rw [(peek_slot_peeked rdIndex _ _ peeked).1] at peekSound
        obtain ⟨next, popped, full⟩ := head_of_take memory other rdIndex x _ index (peekSound (by simp))
        exact performs_answer memory log thread call other legal .peek rdIndex false _ peeked
          (by simp only [Kind.perform, popped, ← full])
  | empty =>
      by_cases same : (memory.entry rdIndex).seq = rdIndex <<< 1
      · rw [(peek_branch_empty_iff config rdIndex _).mpr same] at peekSound
        have empty := (Fifo.pop_none other).mpr (peekSound (by simp))
        exact performs_answer memory log thread call other legal .empty rdIndex false _ (if_pos same) (by simp [Kind.perform, empty])
      · refine performs_answer memory log thread call other legal .empty rdIndex true _ (if_neg same) ?_
        simp only [Kind.perform]
        split <;> rfl

theorem performs_fill (d : Data) (wrIndex : Index config) (holds : Holds memory log)
    (known : LocalInv memory log since mark thread (.pushFill d wrIndex)) (timely : stores since < config.limit) :
    Performs memory log thread call queue (.pushFill d wrIndex) := by
  by_cases hit : memory.entry wrIndex = ⟨0, wrIndex <<< 1⟩
  · obtain ⟨other, again, represents⟩ := holds
    have same : other = queue := Option.some.inj (again.symm.trans legal)
    subst same
    obtain ⟨index, _, room, _⟩ := fill_current memory log since mark thread d wrIndex other legal represents known timely hit
    obtain ⟨next, pushed⟩ := Fifo.push_room other d room
    have performed : (Kind.push d).perform other false = (next, .pushed (some wrIndex)) := by
      simp only [Kind.perform, pushed, index]
    refine .commits false rfl ?_ ?_
    · rw [exec_fill_hit memory d wrIndex hit, recorded_some, Pc.kind, performed]
      change contents (.stored thread d :: log) = some next
      rw [contents_op _ log (.push d) rfl, legal]
      exact pushed
    · rw [exec_fill_hit memory d wrIndex hit, Pc.kind, performed]
      by_cases lazy : config.lazyPush = true
      · exact .inl (if_pos lazy)
      · exact .inr ⟨_, if_neg lazy, rfl⟩
  · refine .silent (.pushLoad d) ?_ rfl ?_
    · rw [exec_fill_miss memory d wrIndex hit]
    · rw [exec_fill_miss memory d wrIndex hit]
      exact legal

theorem performs_take (loop : ReadLoop config Data) (rdIndex : Index config) (e : Entry config Data) (holds : Holds memory log)
    (known : LocalInv memory log since mark thread (.take loop rdIndex e)) (timely : takes since < config.limit) :
    Performs memory log thread call queue (.take loop rdIndex e) := by
  by_cases hit : memory.entry rdIndex = e
  · obtain ⟨other, again, represents⟩ := holds
    have same : other = queue := Option.some.inj (again.symm.trans legal)
    subst same
    obtain ⟨index, _, head, _, full, accepted⟩ :=
      take_current memory log since mark thread loop rdIndex e other legal represents known timely hit
    obtain ⟨next, popped⟩ := Fifo.pop_of_get other e.data head
    have performed : (Kind.read loop).perform other false = (next, taken loop rdIndex e) := by
      cases loop with
      | pop => simp only [Kind.perform, popped, taken, index]
      | popIf f =>
          have true_ : f e.data (config.fullSeq other.first) = true := by rw [← full]; exact accepted
          simp [Kind.perform, popped, taken, true_]
      | peek => exact accepted.elim
      | empty => exact accepted.elim
    refine .commits false rfl ?_ ?_
    · rw [exec_take_hit memory loop rdIndex e hit, recorded_some, Pc.kind, performed]
      change contents (.took thread e.data call.discards :: log) = some next
      rw [contents_op _ log (.pop e.data) rfl, legal]
      change other.perform (.pop e.data) = some next
      rw [Fifo.perform, popped, Option.bind_some, if_pos rfl]
    · rw [exec_take_hit memory loop rdIndex e hit, Pc.kind, performed]
      by_cases lazy : config.lazyPop = true
      · exact .inl (if_pos lazy)
      · exact .inr ⟨_, if_neg lazy, rfl⟩
  · refine .silent (.readLoad loop) ?_ rfl ?_
    · rw [exec_take_miss memory loop rdIndex e hit]
    · rw [exec_take_miss memory loop rdIndex e hit]
      exact legal

theorem performs_exchange (i : Index config) (old new : Data) (holds : Holds memory log) :
    Performs memory log thread call queue (.exchange i old new) := by
  obtain ⟨other, again, represents⟩ := holds
  have same : other = queue := Option.some.inj (again.symm.trans legal)
  subst same
  obtain ⟨_, first⟩ := contents_counts log other legal
  obtain ⟨lower, upper, residue⟩ := Word.at_least_spec config.half other.first i.toNat config.half_positive
  rw [← named] at lower upper residue
  have present := exchange_iff memory other _ _ i (named other i) old represents residue lower upper
  by_cases hit : memory.entry i = ⟨old, (i <<< 1) ||| 1⟩
  · obtain ⟨next, replaced⟩ := (Fifo.replace_iff other _ old new).mpr (present.mp hit)
    have performed : (Kind.exchange i old new).perform other false = (next, .reply (.done none none)) := by
      simp only [Kind.perform, exchanged, exchangeReply, replaced, if_pos (present.mp hit)]
    refine .commits false rfl ?_ (.inl ?_)
    · rw [exec_exchange_hit memory i old new hit, recorded_some, Pc.kind, performed]
      change contents (.swapped thread i (Word.atLeast config.half (takes log) i.toNat) old new :: log) = some next
      rw [contents_op _ log _ rfl, legal, ← first]
      exact replaced
    · rw [exec_exchange_hit memory i old new hit, Pc.kind, performed]
  · have absent : ¬ other.get? (named other i) = some old := fun held => hit (present.mpr held)
    have performed : (Kind.exchange i old new).perform other false = (other, .reply .failed) := by
      simp only [Kind.perform, exchanged, exchangeReply, Fifo.replace?, if_neg absent]
    refine .commits false rfl ?_ (.inl ?_)
    · rw [exec_exchange_miss memory i old new hit, Pc.kind, performed]
      exact legal
    · rw [exec_exchange_miss memory i old new hit, Pc.kind, performed]

-- Every access of every loop, one case for each place a thread can stand.
theorem exec_performs (pc : Pc config Data) (holds : Holds memory log) (known : LocalInv memory log since mark thread pc)
    (timely : pc.inIteration = true → stores since < config.limit ∧ takes since < config.limit) :
    Performs memory log thread call queue pc := by
  have advanced (event : Event config Data) (silent : event.op = none) : contents (event :: log) = some queue := by
    rw [contents_silent event log silent, legal]
  cases pc with
  | pushLoad d => exact .silent _ rfl rfl legal
  | pushRead d wrIndex =>
      cases branch : pushBranch config wrIndex (memory.entry wrIndex).seq with
      | full =>
          have full := full_answer memory log since mark thread d wrIndex holds known (timely rfl).1 branch
          obtain ⟨total, first⟩ := contents_counts log queue legal
          have refused := (Fifo.push_full queue d).mpr (by omega)
          refine .commits false rfl ?_ (.inl ?_)
          · simpa [exec, recorded, Pc.kind, Kind.perform, refused] using legal
          · simp [exec, pushSlot, branch, Pc.kind, Kind.perform, refused]
      | fill => exact .silent (.pushFill d wrIndex) (by simp only [exec, pushSlot, branch]) rfl legal
      | advance => exact .silent (.pushAdvance d wrIndex) (by simp only [exec, pushSlot, branch]) rfl legal
      | retry => exact .silent (.pushLoad d) (by simp only [exec, pushSlot, branch]) rfl legal
  | pushFill d wrIndex => exact performs_fill memory log since mark thread call queue legal d wrIndex holds known (timely rfl).1
  | pushDone d wrIndex =>
      by_cases hit : memory.writeIndex = wrIndex
      · exact .returns (by rw [exec_done, if_pos hit]; rfl) (by rw [exec_done, if_pos hit]; exact advanced (.wrote thread) rfl)
      · exact .returns (by rw [exec_done, if_neg hit]; rfl) (by rw [exec_done, if_neg hit]; exact legal)
  | pushAdvance d wrIndex =>
      by_cases hit : memory.writeIndex = wrIndex
      · exact .silent (.pushLoad d) (by rw [exec_push_advance, if_pos hit]) rfl
          (by rw [exec_push_advance, if_pos hit]; exact advanced (.wrote thread) rfl)
      · exact .silent (.pushLoad d) (by rw [exec_push_advance, if_neg hit]) rfl (by rw [exec_push_advance, if_neg hit]; exact legal)
  | readLoad loop => exact .silent _ rfl rfl legal
  | readSlot loop rdIndex =>
      exact performs_look memory log since mark thread call queue legal loop rdIndex holds known (timely rfl).2
  | take loop rdIndex e => exact performs_take memory log since mark thread call queue legal loop rdIndex e holds known (timely rfl).2
  | takeDone loop rdIndex e =>
      by_cases hit : memory.readIndex = rdIndex
      · exact .returns (by rw [exec_take_done, if_pos hit]; rfl) (by rw [exec_take_done, if_pos hit]; exact advanced (.read thread) rfl)
      · exact .returns (by rw [exec_take_done, if_neg hit]; rfl) (by rw [exec_take_done, if_neg hit]; exact legal)
  | readAdvance loop rdIndex =>
      by_cases hit : memory.readIndex = rdIndex
      · exact .silent (.readLoad loop) (by rw [exec_read_advance, if_pos hit]) rfl
          (by rw [exec_read_advance, if_pos hit]; exact advanced (.read thread) rfl)
      · exact .silent (.readLoad loop) (by rw [exec_read_advance, if_neg hit]) rfl (by rw [exec_read_advance, if_neg hit]; exact legal)
  | exchange i old new => exact performs_exchange memory log thread call queue legal i old new holds

end

section

variable {config : Config} {Data : Type} [DecidableEq Data]

theorem settle_runs (atomic : Service.Atomic (Fifo Data config.size) (Standing config Data) (Reply config Data)) (thread : Nat)
    (task : Task config Data) (outcome : Next config Data) (leaves : Leaves outcome)
    (ended : atomic.pending thread = some (task.standing.settle outcome)) :
    Service.Runs (Service.atomic (queueSpec config Data)) Service.Free atomic
      (Service.answers ((resume task outcome).2.map fun reply => (thread, reply)))
      ⟨atomic.value, Function.update atomic.pending thread ((resume task outcome).1.map Task.progress)⟩ := by
  rw [settle_resume task outcome leaves] at ended
  rcases resume_cases task outcome leaves with ⟨reply, replied⟩ | ⟨next, continues, load⟩
  · rw [replied] at ended ⊢
    exact Service.runs_move _ _ _ _ _ _ trivial (Service.atomic_finish _ atomic thread reply ended)
  · rw [continues] at ended ⊢
    have same : (some next).map Task.progress = atomic.pending thread := by
      rw [ended, Option.map_some, load_progress next load]
      rfl
    simp only [same, Function.update_eq_self]
    exact .done atomic

variable [Zero Data]

-- The state of the specification that a state of the queue stands for.
structure Refines (system : System config Data)
    (atomic : Service.Atomic (Fifo Data config.size) (Standing config Data) (Reply config Data)) : Prop where
  invariant : Invariant system
  value : contents system.log = some atomic.value
  pending : ∀ thread, atomic.pending thread = (system.tasks thread).map Task.progress

theorem refines_call (system next : System config Data)
    (atomic : Service.Atomic (Fifo Data config.size) (Standing config Data) (Reply config Data)) (thread : Nat)
    (call : Call config Data) (refines : Refines system atomic) (moved : system.next (.call thread call) = some next) :
    ∃ after, (Service.atomic (queueSpec config Data)).invoke atomic thread call = some after ∧ Refines next after := by
  simp only [System.next] at moved
  split at moved
  · rename_i idle
    cases moved
    have free : atomic.pending thread = none := by
      rw [refines.pending, Option.isNone_iff_eq_none.mp idle]
      rfl
    refine ⟨_, Service.atomic_invoke _ atomic thread call free, invariant_call system thread call refines.invariant, refines.value, ?_⟩
    intro other
    by_cases same : other = thread
    · subst same
      simp only [System.startCall, Function.update_self, Option.map_some, start_progress]
      rfl
    · simp only [System.startCall, Function.update_of_ne same]
      exact refines.pending other
  · cases moved

theorem refines_step (system : System config Data)
    (atomic : Service.Atomic (Fifo Data config.size) (Standing config Data) (Reply config Data)) (thread : Nat)
    (task : Task config Data) (refines : Refines system atomic) (running : system.tasks thread = some task)
    (timely : system.InTime thread task) :
    ∃ after, Service.Runs (Service.atomic (queueSpec config Data)) Service.Free atomic
        (Service.answers ((resume task (exec system.memory task.pc).next).2.map fun reply => (thread, reply))) after ∧
      Refines (system.stepTask thread task) after := by
  have inv := refines.invariant
  have pending : atomic.pending thread = some task.progress := by rw [refines.pending, running]; rfl
  have stepped (value : Fifo Data config.size)
      (legal : contents (system.stepTask thread task).log = some value) :
      Refines (system.stepTask thread task) ⟨value, Function.update atomic.pending thread
        ((resume task (exec system.memory task.pc).next).1.map Task.progress)⟩ := by
    refine ⟨invariant_step system thread task inv running timely, legal, ?_⟩
    intro other
    by_cases same : other = thread
    · subst same
      simp only [System.stepTask, Function.update_self]
    · simp only [System.stepTask, Function.update_of_ne same]
      exact refines.pending other
  cases exec_performs system.memory system.log (system.since thread) (system.mark thread) thread task.call atomic.value refines.value
    task.pc inv.holds (inv.locals thread task running) timely with
  | silent after goes same kept =>
      have still := stepped atomic.value kept
      have quiet : (some { task with pc := after }).map Task.progress = atomic.pending thread := by
        rw [pending, Option.map_some, goto_progress task after (exec_goto_kind system.memory task.pc after goes) same]
      rw [goes] at still ⊢
      simp only [resume, quiet, Function.update_eq_self] at still
      exact ⟨atomic, .done atomic, still⟩
  | returns decided kept =>
      have ended : atomic.pending thread = some (task.standing.settle (exec system.memory task.pc).next) := by
        rw [pending, Task.progress, decided]
      exact ⟨_, settle_runs atomic thread task _ (outcome_leaves task.pc _ decided) ended, stepped atomic.value kept⟩
  | commits lagging undecided moved result =>
      have active : atomic.pending thread = some (.active task.standing) := by rw [pending, Task.progress, undecided]
      have commit := Service.runs_move _ Service.Free _ _ _ _ trivial
        (Service.atomic_commit (queueSpec config Data) atomic thread task.standing lagging active)
      have leaves := perform_leaves atomic.value lagging task.pc.kind
      rcases result with now | ⟨after, goes, later⟩
      · have finish := settle_runs ⟨(task.pc.kind.perform atomic.value lagging).1, Function.update atomic.pending thread _⟩
          thread task _ leaves (Function.update_self _ _ _)
        rw [Function.update_idem] at finish
        have both := Service.runs_append _ _ _ _ _ _ _ commit finish
        rw [← now] at both
        exact ⟨_, both, stepped _ moved⟩
      · have still := stepped _ moved
        have decided : ({ task with pc := after } : Task config Data).progress =
            task.standing.settle (task.pc.kind.perform atomic.value lagging).2 := by
          rw [Task.progress, later, Task.standing, Task.standing, exec_goto_kind system.memory task.pc after goes]
        rw [goes] at still ⊢
        simp only [resume, Option.map_some, decided] at still
        exact ⟨_, commit, still⟩

-- The queue simulates its specification, in any interleaving within the staleness bound.
theorem queue_simulates : Service.Simulates (queueObject config Data) (Service.atomic (queueSpec config Data))
    (fun system thread => system.Timely (.step thread)) Refines where
  start := ⟨invariant_initial, contents_nil, fun _ => rfl⟩
  invoke system atomic thread call next refines moved := refines_call system next atomic thread call refines moved
  move system atomic thread next reply refines timely moved := by
    obtain ⟨task, running, result⟩ := Option.map_eq_some_iff.mp moved
    cases result
    exact refines_step system atomic thread task refines running (timely task running)

-- An empty() that answers false on an empty queue has loaded the index of an element taken by then.
theorem empty_lags (system : System config Data) (thread : Nat) (task : Task config Data) (inv : Invariant system)
    (running : system.tasks thread = some task) (call : task.call = .empty)
    (reply : (resume task (exec system.memory task.pc).next).2 = some .failed) (emptied : stores system.log = takes system.log) :
    ∃ rdIndex x, task.pc = .readSlot .empty rdIndex ∧ rdIndex = config.number x ∧
      reads system.log = x + reads (system.since thread) ∧ x < takes system.log := by
  have kind : task.pc.kind = .read .empty := by simpa [call, Call.Runs] using inv.runs thread task running
  have known := inv.locals thread task running
  rcases read_exits system.memory .empty task.pc kind _ rfl with ⟨pc, goes⟩ | ⟨rdIndex, place, looked⟩ | ⟨rdIndex, e, _, exit⟩
  · rw [goes] at reply
    cases reply
  · rw [place] at known
    obtain ⟨x, position, _⟩ := known
    obtain ⟨queue, legal, represents⟩ := inv.holds
    obtain ⟨total, first⟩ := contents_counts system.log queue legal
    have lag := represents.readLag
    have loaded := position.loaded
    refine ⟨rdIndex, x, place, position.index, loaded, ?_⟩
    by_contra current
    have head : reads system.log = queue.first := by omega
    have here : x = reads system.log := by omega
    rcases head_entry system.memory queue _ _ represents head with ⟨v, next, popped, _⟩ | ⟨_, entry⟩
    · have held : queue.pop? = none := (Fifo.pop_none queue).mpr (by omega)
      cases held.symm.trans popped
    · rw [looked, readSlot, emptySlot, position.index, here, entry, if_pos (config.number_shift _).symm] at reply
      cases reply
  · exact (look_only system.memory system.log (system.since thread) (system.mark thread) thread .empty task.pc rdIndex e known exit).elim

-- Every history of calls and replies is one of a queue whose operations are atomic: each takes
-- effect at one moment between its invocation and its reply. push_keep_n and consume are the
-- sequences of pushes and pops that they are in the source. An empty() may miss that the queue is
-- empty, in a lazy mode also when it runs alone: it answers false on an empty queue only where the
-- read index that it loaded is that of an element taken by then.
theorem linearizable (history : List (Service.Interaction (Call config Data) (Reply config Data))) (system : System config Data)
    (run : Service.Runs (queueObject config Data) (fun system thread => system.Timely (.step thread)) (System.initial config Data)
      history system) :
    (∃ atomic, Service.Runs (Service.atomic (queueSpec config Data)) Service.Free (Service.atomic (queueSpec config Data)).start
        history atomic ∧ contents system.log = some atomic.value) ∧
      ∀ thread, system.Returns thread .empty .failed → stores system.log = takes system.log →
        ∃ task rdIndex x, system.tasks thread = some task ∧ task.pc = .readSlot .empty rdIndex ∧ rdIndex = config.number x ∧
          reads system.log = x + reads (system.since thread) ∧ x < takes system.log := by
  obtain ⟨atomic, matched, refines⟩ := Service.simulates_runs _ _ _ _ queue_simulates _ system history run _ queue_simulates.start
  refine ⟨⟨atomic, matched, refines.value⟩, ?_⟩
  rintro thread ⟨task, running, call, reply⟩ emptied
  exact ⟨task, (empty_lags system thread task refines.invariant running call reply emptied).imp
    fun rdIndex found => found.imp fun x told => ⟨running, told⟩⟩

end

-- A pop takes the element of a push that is still in progress, and returns before it.
def popDuringPush : List (Service.Request (Call smallQueue Nat) Nat) :=
  [.invoke 0 (.push 7), .move 0, .move 0, .move 0, .invoke 1 .popIndex, .move 1, .move 1, .move 1, .move 1, .move 0]

theorem pop_during_push_runs : (Service.checkedRuns (queueObject smallQueue Nat) (fun system thread => system.Timely (.step thread))
    popDuringPush (System.initial smallQueue Nat)).isSome = true := by decide +kernel

-- An element has been pushed and popped, the lazy read index still addresses its slot, and an
-- empty() has loaded that index.
def emptyBehind : List (Service.Request (Call lazyQueue Nat) Nat) :=
  [.invoke 0 (.push 7), .move 0, .move 0, .move 0, .move 0, .invoke 0 .pop, .move 0, .move 0, .move 0, .invoke 1 .empty, .move 1]

theorem empty_behind_runs : (Service.checkedRuns (queueObject lazyQueue Nat) (fun system thread => system.Timely (.step thread))
    emptyBehind (System.initial lazyQueue Nat)).isSome = true := by decide +kernel

theorem linearizable_early :
    (let done := (Service.checkedRuns (queueObject smallQueue Nat) (fun system thread => system.Timely (.step thread))
      popDuringPush (System.initial smallQueue Nat)).get pop_during_push_runs
    done.1 = [.invoked 0 (.push 7), .invoked 1 .popIndex, .replied 1 (.done (some 7) (some 0)), .replied 0 (.done none none)] ∧
      ∃ atomic, Service.Runs (Service.atomic (queueSpec smallQueue Nat)) Service.Free
        (Service.atomic (queueSpec smallQueue Nat)).start done.1 atomic ∧ contents done.2.log = some atomic.value) ∧
    let done := (Service.checkedRuns (queueObject lazyQueue Nat) (fun system thread => system.Timely (.step thread))
      emptyBehind (System.initial lazyQueue Nat)).get empty_behind_runs
    done.2.Returns 1 .empty .failed ∧ stores done.2.log = takes done.2.log ∧
      ∃ x, reads done.2.log = x + reads (done.2.since 1) ∧ x < takes done.2.log := by
  constructor
  · intro done
    exact ⟨rfl, (linearizable done.1 done.2
      (Service.checked_runs _ _ popDuringPush _ done (Option.some_get pop_during_push_runs).symm)).1⟩
  · intro done
    have failed : done.2.Returns 1 .empty .failed := ⟨⟨.empty, 0, .readSlot .empty 0⟩, rfl, rfl, rfl⟩
    have emptied : stores done.2.log = takes done.2.log := by decide +kernel
    obtain ⟨_, _, x, _, _, _, loaded, behind⟩ := (linearizable done.1 done.2
      (Service.checked_runs _ _ emptyBehind _ done (Option.some_get empty_behind_runs).symm)).2 1 failed emptied
    exact ⟨failed, emptied, x, loaded, behind⟩

end LockfreeQueue
