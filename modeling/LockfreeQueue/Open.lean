import LockfreeQueue.Create
import LockfreeQueue.Order

set_option autoImplicit false

namespace LockfreeQueue

open Bytes

-- `count` processes construct a shared queue on one file and call push and pop once they have it.
-- The fields after the stages are those of System; its memory is in the file.
structure SharedSystem (q : Instantiation) (count : Nat) where
  file : Option File
  stage : Fin count → Stage
  tasks : Nat → Option (Task q.config q.Data)
  log : List (Event q.config q.Data)
  since : Nat → List (Event q.config q.Data)
  seen : Nat → List (Event q.config q.Data)
  mark : Nat → Option Nat

inductive SharedAction (q : Instantiation) (count : Nat) where
  | start (process : Fin count) (stack : Stack)
  | advance (process : Fin count)
  | call (process : Fin count) (call : Call q.config q.Data)
  | step (process : Fin count)

def Stage.isReady : Stage → Bool
  | .ready => true
  | _ => false

-- Between the short read and the end of the queue's own constructor.
def Stage.creates : Stage → Bool
  | .truncating _ _ | .writing _ _ | .mapping | .building _ => true
  | _ => false

namespace SharedSystem

section

variable {q : Instantiation} {count : Nat}

def initial (q : Instantiation) (count : Nat) : SharedSystem q count :=
  ⟨none, fun _ => .closed, fun _ => none, [], fun _ => [], fun _ => [], fun _ => none⟩

def contents (shared : SharedSystem q count) : File := shared.file.getD File.created

def queueOn (shared : SharedSystem q count) (memory : Memory q.config q.Data) : System q.config q.Data :=
  ⟨memory, shared.tasks, shared.log, shared.since, shared.seen, shared.mark⟩

-- The queue of those processes that have one.
def queue (shared : SharedSystem q count) : System q.config q.Data :=
  shared.queueOn (q.decode shared.contents.byte queueStart)

def record (shared : SharedSystem q count) (system : System q.config q.Data) : SharedSystem q count :=
  { shared with tasks := system.tasks, log := system.log, since := system.since, seen := system.seen, mark := system.mark }

def publish (shared : SharedSystem q count) (system : System q.config q.Data) : SharedSystem q count :=
  { shared.record system with file := some (shared.contents.stores (q.image queueStart system.memory)) }

def move (shared : SharedSystem q count) (process : Fin count) (step : File × Stage) : SharedSystem q count :=
  { shared with file := some step.1, stage := Function.update shared.stage process step.2 }

def next (shared : SharedSystem q count) : SharedAction q count → Option (SharedSystem q count)
  | .start process stack =>
      match shared.stage process with
      | .closed => some (shared.move process (shared.contents, .reading stack))
      | _ => none
  | .advance process =>
      match shared.stage process with
      | .closed | .ready | .failed => none
      | stage => some (shared.move process (q.advance shared.contents stage))
  | .call process call =>
      if (shared.stage process).isReady then (shared.queue.next (.call process.val call)).map shared.record else none
  | .step process =>
      if (shared.stage process).isReady then (shared.queue.next (.step process.val)).map shared.publish else none

def machine (q : Instantiation) (count : Nat) : Transition.Machine (SharedSystem q count) (SharedAction q count) :=
  ⟨initial q count, next⟩

-- The steps that decide: the read of a file too short for a header, after which the process
-- creates, and the last step of a constructor that attaches.
def decides (shared : SharedSystem q count) (process : Fin count) : Bool :=
  match shared.stage process with
  | .reading _ => decide (shared.contents.length < headerSize)
  | .attaching => true
  | _ => false

-- No process decides while another one creates.
def Apart (shared : SharedSystem q count) : SharedAction q count → Prop
  | .advance process => shared.decides process = true → ∀ other, other ≠ process → (shared.stage other).creates = false
  | _ => True

instance (shared : SharedSystem q count) (action : SharedAction q count) : Decidable (shared.Apart action) :=
  match action with
  | .advance _ => inferInstanceAs (Decidable (_ → _))
  | .start _ _ | .call _ _ | .step _ => isTrue trivial

-- A promise about the calls on the queue, read as one about the processes.
def Keeps (promise : System q.config q.Data → Action q.config q.Data → Prop) (shared : SharedSystem q count) :
    SharedAction q count → Prop
  | .call process call => promise shared.queue (.call process.val call)
  | .step process => promise shared.queue (.step process.val)
  | _ => True

instance (promise : System q.config q.Data → Action q.config q.Data → Prop) [∀ system action, Decidable (promise system action)]
    (shared : SharedSystem q count) (action : SharedAction q count) : Decidable (shared.Keeps promise action) :=
  match action with
  | .call _ _ => inferInstanceAs (Decidable (promise _ _))
  | .step _ => inferInstanceAs (Decidable (promise _ _))
  | .start _ _ | .advance _ => isTrue trivial

def ApartKeeps (promise : System q.config q.Data → Action q.config q.Data → Prop) (shared : SharedSystem q count)
    (action : SharedAction q count) : Prop := shared.Apart action ∧ shared.Keeps promise action

instance (promise : System q.config q.Data → Action q.config q.Data → Prop) [∀ system action, Decidable (promise system action)]
    (shared : SharedSystem q count) (action : SharedAction q count) : Decidable (shared.ApartKeeps promise action) :=
  inferInstanceAs (Decidable (_ ∧ _))

-- What the file holds for a process on the create path: its length once truncated, and while the
-- queue is constructed, all but the stores that are left.
def Known (q : Instantiation) (file : File) : Stage → Prop
  | .truncating header offset => header.length = headerSize ∧ offset ≤ headerSize
  | .writing header offset => header.length = headerSize ∧ offset ≤ headerSize ∧ file.length = queueStart + q.size
  | .mapping => file.length = queueStart + q.size
  | .building rest => file.length = queueStart + q.size ∧ (∀ change ∈ rest, q.InQueue queueStart change) ∧
      q.decode (patches file.byte rest) queueStart = Memory.initial q.config q.Data
  | _ => True

-- Until a constructor has created the queue nothing was called, and one process at most creates.
structure Opening (shared : SharedSystem q count) : Prop where
  quiet : ∀ memory, shared.queueOn memory = { System.initial q.config q.Data with memory := memory }
  unready : ∀ process, (shared.stage process).isReady = false
  alone : ∀ process other, (shared.stage process).creates = true → (shared.stage other).creates = true → process = other
  known : ∀ process, Known q shared.contents (shared.stage process)
  begun : (∀ process, (shared.stage process).creates = false) →
    shared.contents.length = 0 ∧ ∀ process, shared.stage process ≠ .attaching

-- From then on nobody creates, and the queue is what the calls have made of the initial one.
structure Opened (promise : System q.config q.Data → Action q.config q.Data → Prop) (shared : SharedSystem q count) : Prop where
  finished : ∀ process, (shared.stage process).creates = false
  length : shared.contents.length = queueStart + q.size
  run : Transition.Reachable (queueMachine q.config q.Data) promise shared.queue

theorem known_idle (file : File) (stage : Stage) (idle : stage.creates = false) : Known q file stage := by
  cases stage with
  | truncating header offset => cases idle
  | writing header offset => cases idle
  | mapping => cases idle
  | building rest => cases idle
  | _ => trivial

theorem opening_initial : Opening (initial q count) := by
  refine ⟨fun _ => rfl, fun _ => rfl, ?_, fun _ => trivial, fun _ => ⟨rfl, ?_⟩⟩
  · intro process other creates
    cases creates
  · intro process same
    cases same

theorem move_cases (shared : SharedSystem q count) (process other : Fin count) (step : File × Stage) :
    (other = process ∧ (shared.move process step).stage other = step.2) ∨
      (other ≠ process ∧ (shared.move process step).stage other = shared.stage other) := by
  by_cases same : other = process
  · subst same
    exact .inl ⟨rfl, Function.update_self _ _ _⟩
  · exact .inr ⟨same, Function.update_of_ne same _ _⟩

-- A step on the create path, which no other process is on.
theorem opening_create (shared : SharedSystem q count) (process : Fin count) (step : File × Stage) (opening : Opening shared)
    (only : ∀ other, other ≠ process → (shared.stage other).creates = false) (creates : step.2.creates = true)
    (known : Known q step.1 step.2) : Opening (shared.move process step) := by
  have creator : ∀ other, ((shared.move process step).stage other).creates = true → other = process := by
    intro other creating
    rcases move_cases shared process other step with ⟨same, _⟩ | ⟨different, kept⟩
    · exact same
    · rw [kept, only other different] at creating
      cases creating
  refine ⟨opening.quiet, ?_, ?_, ?_, ?_⟩
  · intro other
    rcases move_cases shared process other step with ⟨_, moved⟩ | ⟨_, kept⟩
    · rw [moved]
      cases stage : step.2 with
      | ready => rw [stage] at creates; cases creates
      | _ => rfl
    · rw [kept]
      exact opening.unready other
  · intro first second one two
    rw [creator first one, creator second two]
  · intro other
    rcases move_cases shared process other step with ⟨_, moved⟩ | ⟨different, kept⟩
    · rw [moved]
      exact known
    · rw [kept]
      exact known_idle _ _ (only other different)
  · intro idle
    have here := idle process
    rcases move_cases shared process process step with ⟨_, moved⟩ | ⟨different, _⟩
    · rw [moved, creates] at here
      cases here
    · exact absurd rfl different

-- A step that leaves the file as it is and keeps off the create path.
theorem opening_watch (shared : SharedSystem q count) (process : Fin count) (after : Stage) (opening : Opening shared)
    (before : (shared.stage process).creates = false) (idle : after.creates = false) (unready : after.isReady = false)
    (started : after = .attaching → ∃ other, (shared.stage other).creates = true) :
    Opening (shared.move process (shared.contents, after)) := by
  have creator : ∀ other, ((shared.move process (shared.contents, after)).stage other).creates = (shared.stage other).creates := by
    intro other
    rcases move_cases shared process other (shared.contents, after) with ⟨same, moved⟩ | ⟨_, kept⟩
    · rw [moved, same, before, idle]
    · rw [kept]
  refine ⟨opening.quiet, ?_, ?_, ?_, ?_⟩
  · intro other
    rcases move_cases shared process other (shared.contents, after) with ⟨_, moved⟩ | ⟨_, kept⟩
    · rw [moved]
      exact unready
    · rw [kept]
      exact opening.unready other
  · intro first second one two
    rw [creator] at one two
    exact opening.alone first second one two
  · intro other
    rcases move_cases shared process other (shared.contents, after) with ⟨_, moved⟩ | ⟨_, kept⟩
    · rw [moved]
      exact known_idle _ _ idle
    · rw [kept]
      exact opening.known other
  · intro none
    have quiet : ∀ other, (shared.stage other).creates = false := fun other => by rw [← creator other, none other]
    obtain ⟨length, elsewhere⟩ := opening.begun quiet
    refine ⟨length, fun other attaching => ?_⟩
    rcases move_cases shared process other (shared.contents, after) with ⟨_, moved⟩ | ⟨_, kept⟩
    · obtain ⟨another, creates⟩ := started (moved.symm.trans attaching)
      rw [quiet another] at creates
      cases creates
    · exact elsewhere other (kept.symm.trans attaching)

theorem creating_alone (shared : SharedSystem q count) (process : Fin count) (opening : Opening shared)
    (creates : (shared.stage process).creates = true) (other : Fin count) (different : other ≠ process) :
    (shared.stage other).creates = false := by
  cases creating : (shared.stage other).creates with
  | true => exact absurd (opening.alone other process creating creates) different
  | false => rfl

-- The last store has been made: what there is now is the queue machine at its start.
theorem opening_finish (promise : System q.config q.Data → Action q.config q.Data → Prop) (shared : SharedSystem q count)
    (process : Fin count) (opening : Opening shared) (last : shared.stage process = .building []) :
    Opened promise (shared.move process (shared.contents, .ready)) := by
  have known := opening.known process
  rw [last] at known
  obtain ⟨length, _, initial⟩ := known
  refine ⟨?_, length, ?_⟩
  · intro other
    rcases move_cases shared process other (shared.contents, .ready) with ⟨_, moved⟩ | ⟨different, kept⟩
    · rw [moved]
      rfl
    · rw [kept]
      exact creating_alone shared process opening (by rw [last]; rfl) other different
  · have start : (shared.move process (shared.contents, .ready)).queue = System.initial q.config q.Data := by
      change shared.queueOn (q.decode (patches shared.contents.byte []) queueStart) = _
      rw [initial, opening.quiet]
      rfl
    rw [start]
    exact Transition.reachable_start _ _

theorem advance_reading (q : Instantiation) (file : File) (stack : Stack) :
    (file.length < headerSize ∧ ∃ header offset, q.advance file (.reading stack) = (file, .truncating header offset) ∧
      header.length = headerSize ∧ offset ≤ headerSize) ∨
    (headerSize ≤ file.length ∧ (q.advance file (.reading stack) = (file, .attaching) ∨
      q.advance file (.reading stack) = (file, .failed))) := by
  rcases Nat.lt_or_ge file.length headerSize with short | long
  · have missing : (file.read 0 headerSize).length ≠ headerSize := by
      rw [File.read_length]
      omega
    refine .inl ⟨short, _, (file.read 0 headerSize).length, ?_, q.built_length _ (Instantiation.read_stack file stack), ?_⟩
    · rw [Instantiation.advance, if_pos missing]
    · rw [File.read_length]
      exact Nat.min_le_left _ _
  · have complete : ¬ (file.read 0 headerSize).length ≠ headerSize := by
      rw [File.read_length]
      omega
    refine .inr ⟨long, ?_⟩
    rw [Instantiation.advance, if_neg complete]
    split
    · exact .inl rfl
    · exact .inr rfl

-- The create path goes on to its last store, and what is known of the file goes with it.
theorem advance_creating (q : Instantiation) (file : File) (stage : Stage) (creates : stage.creates = true) (known : Known q file stage) :
    stage = .building [] ∨ ((q.advance file stage).2.creates = true ∧ Known q (q.advance file stage).1 (q.advance file stage).2) := by
  cases stage with
  | truncating header offset => exact .inr ⟨rfl, known.1, known.2, rfl⟩
  | writing header offset =>
      obtain ⟨length, bound, size⟩ := known
      refine .inr ⟨rfl, ?_⟩
      change max file.length (offset + header.length) = _
      rw [size, length, queueStart]
      rw [headerSize] at bound ⊢
      omega
  | mapping => exact .inr ⟨rfl, known, q.construction_in_queue queueStart, q.construction_initial queueStart _⟩
  | building rest =>
      cases rest with
      | nil => exact .inl rfl
      | cons change rest =>
          obtain ⟨length, within, initial⟩ := known
          refine .inr ⟨rfl, length, fun later member => within later (List.mem_cons_of_mem _ member), ?_⟩
          have stored := file.store_byte change.1 change.2 (by rw [length]; exact (within change List.mem_cons_self).2)
          change q.decode (patches (file.store change.1 change.2).byte rest) queueStart = _
          rw [stored]
          exact initial
  | _ => cases creates

theorem opening_idle (shared : SharedSystem q count) (process : Fin count) (opening : Opening shared)
    (idle : (shared.stage process).creates = false) (apart : shared.Apart (.advance process)) :
    Opening (shared.move process (q.advance shared.contents (shared.stage process))) := by
  have undecided : shared.decides process = true → ∀ other, other ≠ process → (shared.stage other).creates = false := apart
  cases stage : shared.stage process with
  | closed => exact opening_watch shared process .closed opening idle rfl rfl (by simp)
  | failed => exact opening_watch shared process .failed opening idle rfl rfl (by simp)
  | ready =>
      have unready := opening.unready process
      rw [stage] at unready
      cases unready
  | reading stack =>
      rcases advance_reading q shared.contents stack with ⟨short, header, offset, goes, length, bound⟩ | ⟨long, goes | goes⟩
      · rw [goes]
        refine opening_create shared process _ opening (undecided ?_) rfl ⟨length, bound⟩
        simp only [decides, stage, short, decide_true]
      · rw [goes]
        refine opening_watch shared process .attaching opening idle rfl rfl fun _ => ?_
        by_contra none
        have nobody := opening.begun fun other => by
          cases creates : (shared.stage other).creates with
          | true => exact absurd ⟨other, creates⟩ none
          | false => rfl
        rw [nobody.1] at long
        exact absurd long (by decide)
      · rw [goes]
        exact opening_watch shared process .failed opening idle rfl rfl (by simp)
  | attaching =>
      have nobody := opening.begun fun other => by
        by_cases same : other = process
        · rw [same]
          exact idle
        · exact undecided (by simp only [decides, stage]) other same
      exact absurd stage (nobody.2 process)
  | truncating header offset => rw [stage] at idle; cases idle
  | writing header offset => rw [stage] at idle; cases idle
  | mapping => rw [stage] at idle; cases idle
  | building rest => rw [stage] at idle; cases idle

theorem opening_advance (promise : System q.config q.Data → Action q.config q.Data → Prop) (shared : SharedSystem q count)
    (process : Fin count) (opening : Opening shared) (apart : shared.Apart (.advance process)) :
    Opening (shared.move process (q.advance shared.contents (shared.stage process))) ∨
      Opened promise (shared.move process (q.advance shared.contents (shared.stage process))) := by
  cases creates : (shared.stage process).creates with
  | false => exact .inl (opening_idle shared process opening creates apart)
  | true =>
      rcases advance_creating q shared.contents (shared.stage process) creates (opening.known process) with last | ⟨stays, known⟩
      · rw [last]
        exact .inr (opening_finish promise shared process opening last)
      · exact .inl (opening_create shared process _ opening (creating_alone shared process opening creates) stays known)

-- A constructor that attaches leaves the queue alone.
theorem opened_advance (promise : System q.config q.Data → Action q.config q.Data → Prop) (shared : SharedSystem q count)
    (process : Fin count) (opened : Opened promise shared) :
    Opened promise (shared.move process (q.advance shared.contents (shared.stage process))) := by
  have finished := opened.finished process
  have keeps : ∃ after, q.advance shared.contents (shared.stage process) = (shared.contents, after) ∧ after.creates = false := by
    cases stage : shared.stage process with
    | reading stack =>
        rcases advance_reading q shared.contents stack with ⟨short, _⟩ | ⟨_, goes | goes⟩
        · rw [opened.length, queueStart, headerSize] at short
          omega
        · exact ⟨_, goes, rfl⟩
        · exact ⟨_, goes, rfl⟩
    | truncating header offset => rw [stage] at finished; cases finished
    | writing header offset => rw [stage] at finished; cases finished
    | mapping => rw [stage] at finished; cases finished
    | building rest => rw [stage] at finished; cases finished
    | _ => exact ⟨_, rfl, rfl⟩
  obtain ⟨after, goes, idle⟩ := keeps
  rw [goes]
  refine ⟨fun other => ?_, opened.length, opened.run⟩
  rcases move_cases shared process other (shared.contents, after) with ⟨_, moved⟩ | ⟨_, kept⟩
  · rw [moved]
    exact idle
  · rw [kept]
    exact opened.finished other

theorem publish_queue (shared : SharedSystem q count) (system : System q.config q.Data)
    (length : shared.contents.length = queueStart + q.size) :
    (shared.publish system).contents.length = queueStart + q.size ∧ (shared.publish system).queue = system := by
  have stores : (shared.publish system).contents = shared.contents.stores (q.image queueStart system.memory) := rfl
  have byte := shared.contents.stores_byte (q.image queueStart system.memory) fun change member => by
    rw [length]
    exact (q.image_in_queue queueStart system.memory change member).2
  have memory := q.image_decode queueStart system.memory shared.contents.byte
  refine ⟨by rw [stores, File.stores_length, length], ?_⟩
  rw [queue, stores, byte, memory]
  rfl

theorem opened_queue_step (promise : System q.config q.Data → Action q.config q.Data → Prop) (shared after : SharedSystem q count)
    (process : Fin count) (opened : Opened promise shared) (permitted : promise shared.queue (.step process.val))
    (moved : (shared.queue.next (.step process.val)).map shared.publish = some after) : Opened promise after := by
  obtain ⟨system, stepped, same⟩ := Option.map_eq_some_iff.mp moved
  subst same
  obtain ⟨length, queue⟩ := publish_queue shared system opened.length
  refine ⟨opened.finished, length, ?_⟩
  rw [queue]
  exact Transition.reachable_step _ _ shared.queue system (.step process.val) opened.run permitted stepped

theorem opened_queue_call (promise : System q.config q.Data → Action q.config q.Data → Prop) (shared after : SharedSystem q count)
    (process : Fin count) (call : Call q.config q.Data) (opened : Opened promise shared)
    (permitted : promise shared.queue (.call process.val call))
    (moved : (shared.queue.next (.call process.val call)).map shared.record = some after) : Opened promise after := by
  obtain ⟨system, stepped, same⟩ := Option.map_eq_some_iff.mp moved
  subst same
  refine ⟨opened.finished, opened.length, ?_⟩
  have queue : (shared.record system).queue = system := by
    simp only [System.next] at stepped
    split at stepped
    · cases stepped
      rfl
    · cases stepped
  rw [queue]
  exact Transition.reachable_step _ _ shared.queue system (.call process.val call) opened.run permitted stepped

theorem opened_start (promise : System q.config q.Data → Action q.config q.Data → Prop) (shared : SharedSystem q count)
    (process : Fin count) (stack : Stack) (opened : Opened promise shared) :
    Opened promise (shared.move process (shared.contents, .reading stack)) := by
  refine ⟨fun other => ?_, opened.length, opened.run⟩
  rcases move_cases shared process other (shared.contents, .reading stack) with ⟨_, begins⟩ | ⟨_, kept⟩
  · rw [begins]
    rfl
  · rw [kept]
    exact opened.finished other

theorem apart_preserves (promise : System q.config q.Data → Action q.config q.Data → Prop) (shared after : SharedSystem q count)
    (action : SharedAction q count) (phase : Opening shared ∨ Opened promise shared) (permitted : shared.ApartKeeps promise action)
    (moved : shared.next action = some after) : Opening after ∨ Opened promise after := by
  obtain ⟨apart, keeps⟩ := permitted
  cases action with
  | start process stack =>
      simp only [next] at moved
      split at moved
      · rename_i stage
        cases moved
        rcases phase with opening | opened
        · exact .inl (opening_watch shared process (.reading stack) opening (by rw [stage]; rfl) rfl rfl (by simp))
        · exact .inr (opened_start promise shared process stack opened)
      · cases moved
  | advance process =>
      have same : shared.move process (q.advance shared.contents (shared.stage process)) = after := by
        simp only [next] at moved
        split at moved
        · cases moved
        · cases moved
        · cases moved
        · exact Option.some.inj moved
      rw [← same]
      rcases phase with opening | opened
      · exact opening_advance promise shared process opening apart
      · exact .inr (opened_advance promise shared process opened)
  | call process call =>
      simp only [next] at moved
      split at moved
      · rename_i ready
        rcases phase with opening | opened
        · rw [opening.unready process] at ready
          cases ready
        · exact .inr (opened_queue_call promise shared after process call opened keeps moved)
      · cases moved
  | step process =>
      simp only [next] at moved
      split at moved
      · rename_i ready
        rcases phase with opening | opened
        · rw [opening.unready process] at ready
          cases ready
        · exact .inr (opened_queue_step promise shared after process opened keeps moved)
      · cases moved

theorem apart_reached (promise : System q.config q.Data → Action q.config q.Data → Prop) (shared : SharedSystem q count)
    (reached : Transition.Reachable (machine q count) (ApartKeeps promise) shared) : Opening shared ∨ Opened promise shared := by
  refine Transition.reachable_invariant (machine q count) (ApartKeeps promise) (fun shared => Opening shared ∨ Opened promise shared)
    (.inl opening_initial) ?_ shared reached
  intro before action after phase permitted moved
  exact apart_preserves promise before after action phase permitted moved

-- No constructor runs on a queue that somebody has used, and who has a queue has one that was
-- initialised and has since been changed by calls only.
structure Once (shared : SharedSystem q count) : Prop where
  unused : ∀ process, (shared.stage process).creates = true → shared.log = []
  initialised : ∀ process, (shared.stage process).isReady = true → (∀ other, (shared.stage other).creates = false) ∧
    Transition.Reachable (queueMachine q.config q.Data) PushPopOnly shared.queue

-- What was stored is what was taken and what the file holds, and a push that returns true has stored.
structure Kept (shared : SharedSystem q count) : Prop where
  elements : ∃ queue written consumed, storedValues shared.log = takenValues shared.log ++ queue.items ∧
    ∀ process, (shared.stage process).isReady = true → Represents shared.queue.memory queue written consumed
  returned : ∀ process after call d number, shared.queue.Timely (.step process.val) → shared.next (.step process) = some after →
    call = .push d ∨ call = .pushIndex d → shared.queue.Returns process.val call (.done none number) → d ∈ storedValues after.log

theorem quiet_log (shared : SharedSystem q count) (opening : Opening shared) : shared.log = [] :=
  congrArg System.log (opening.quiet shared.queue.memory)

theorem apart_once (shared : SharedSystem q count)
    (reached : Transition.Reachable (machine q count) (ApartKeeps PushPopOnly) shared) : shared.Once := by
  rcases apart_reached PushPopOnly shared reached with opening | opened
  · refine ⟨fun _ _ => quiet_log shared opening, fun process ready => ?_⟩
    rw [opening.unready process] at ready
    cases ready
  · refine ⟨fun process creates => ?_, fun _ _ => ⟨opened.finished, opened.run⟩⟩
    rw [opened.finished process] at creates
    cases creates

theorem push_returned (system : System q.config q.Data) (thread : Nat) (call : Call q.config q.Data) (d : q.Data)
    (number : Option (Index q.config)) (inv : Invariant system) (timely : system.Timely (.step thread))
    (pushes : call = .push d ∨ call = .pushIndex d) (returns : system.Returns thread call (.done none number))
    (after : System q.config q.Data) (moved : system.next (.step thread) = some after) : d ∈ storedValues after.log := by
  obtain ⟨task, running, called, reply⟩ := returns
  have result : system.stepTask thread task = after := by simpa [System.next, running] using moved
  subst result
  have kind : task.pc.kind = .push d := by
    have runs := inv.runs thread task running
    rw [called] at runs
    rcases pushes with rfl | rfl <;> exact runs
  rcases push_loop_step thread system task d inv running (timely task running) kind with ⟨pc, goes⟩ | full | ⟨k, _, _, value⟩
  · simp [resume, goes] at reply
  · rcases pushes with rfl | rfl <;> simp [resume, full, called] at reply
  · exact List.mem_of_getElem? value

theorem apart_kept (shared : SharedSystem q count)
    (reached : Transition.Reachable (machine q count) (ApartKeeps (System.Allowed PushPopOnly)) shared) : shared.Kept := by
  rcases apart_reached (System.Allowed PushPopOnly) shared reached with opening | opened
  · refine ⟨⟨Fifo.empty, 0, 0, ?_, ?_⟩, ?_⟩
    · rw [quiet_log shared opening]
      rfl
    · intro process ready
      rw [opening.unready process] at ready
      cases ready
    · intro process after call d number _ moved
      simp only [next, opening.unready process] at moved
      cases moved
  · have inv := invariant_reached PushPopOnly shared.queue opened.run
    have quiet := no_swap_reached shared.queue opened.run
    obtain ⟨queue, legal, represents⟩ := inv.holds
    refine ⟨⟨queue, _, _, Fifo.history_order (history shared.log) queue (history_untouched shared.log quiet.log) legal,
      fun _ _ => represents⟩, ?_⟩
    intro process after call d number timely moved pushes returns
    simp only [next] at moved
    split at moved
    · obtain ⟨system, stepped, same⟩ := Option.map_eq_some_iff.mp moved
      rw [← same]
      exact push_returned shared.queue process.val call d number inv timely pushes returns system stepped
    · cases moved

-- Any number of processes in any order, as long as none decides while another one creates: the
-- queue is constructed once, before anybody has it, and keeps every element until it is popped.
theorem apart_opens (q : Instantiation) (count : Nat) :
    (∀ shared, Transition.Reachable (machine q count) (ApartKeeps PushPopOnly) shared → shared.Once) ∧
      ∀ shared, Transition.Reachable (machine q count) (ApartKeeps (System.Allowed PushPopOnly)) shared → shared.Kept :=
  ⟨apart_once, apart_kept⟩

end

end SharedSystem

-- One slot of four bytes of data and four of sequence.
def oneShared : Instantiation where
  dataSize := 4
  indexBytes := 4
  N := 1
  lazyPush := false
  lazyPop := false
  filled := smallShared.filled
  indexWidth := smallShared.indexWidth
  unitValue := smallShared.unitValue
  power := ⟨0, rfl⟩
  unsigned := by decide
  wideEnough := Nat.lt_of_le_of_lt ((bits_for_value_le _ 1).mpr (by decide)) (by decide)

namespace SharedSystem

section

variable (allowed : SharedSystem oneShared 2 → SharedAction oneShared 2 → Prop) [∀ shared action, Decidable (allowed shared action)]

def scheduled (actions : List (SharedAction oneShared 2)) : Option (SharedSystem oneShared 2) :=
  Transition.checkedRun (machine oneShared 2) allowed actions (initial oneShared 2)

theorem scheduled_reached (actions : List (SharedAction oneShared 2)) (done : (scheduled allowed actions).isSome = true) :
    Transition.Reachable (machine oneShared 2) allowed ((scheduled allowed actions).get done) :=
  ⟨actions, Transition.checked_run_path (machine oneShared 2) allowed actions _ _ (Option.some_get done).symm⟩

end

-- From ftruncate to the last store, and the return.
def creation (process : Fin 2) : List (SharedAction oneShared 2) := List.replicate 9 (.advance process)

def pushSeven : List (SharedAction oneShared 2) := [.call 0 (.push 7), .step 0, .step 0, .step 0, .step 0]

-- The second process attaches once the first has created, which then pushes.
def creatorFirst : List (SharedAction oneShared 2) :=
  [.start 0 clearStack, .advance 0] ++ creation 0 ++ [.start 1 clearStack, .advance 1, .advance 1] ++ pushSeven

theorem creator_first_runs : (scheduled (ApartKeeps (System.Allowed PushPopOnly)) creatorFirst).isSome = true := by decide +kernel

theorem apart_opens_first :
    let shared := (scheduled (ApartKeeps (System.Allowed PushPopOnly)) creatorFirst).get creator_first_runs
    storedValues shared.log = [7] ∧ (shared.stage 1).isReady = true ∧ shared.Once ∧ shared.Kept := by
  intro shared
  have reached := scheduled_reached (ApartKeeps (System.Allowed PushPopOnly)) creatorFirst creator_first_runs
  have weaker : ∀ (shared : SharedSystem oneShared 2) action, ApartKeeps (System.Allowed PushPopOnly) shared action →
      ApartKeeps PushPopOnly shared action := by
    intro shared action permitted
    refine ⟨permitted.1, ?_⟩
    cases action with
    | call process call => exact permitted.2.2
    | step process => exact permitted.2.2
    | _ => trivial
  exact ⟨by decide +kernel, by decide +kernel,
    (apart_opens oneShared 2).1 shared (Transition.reachable_weaken _ _ _ weaker shared reached), (apart_opens oneShared 2).2 shared reached⟩

-- Both processes read the new file before either writes a header, and the second constructs its
-- queue over the element that the first has pushed.
def twoCreators : List (SharedAction oneShared 2) :=
  [.start 0 clearStack, .start 1 clearStack, .advance 0, .advance 1] ++ creation 0 ++ pushSeven

-- The second process attaches as soon as the header is written.
def earlyAttach : List (SharedAction oneShared 2) :=
  [.start 0 clearStack, .start 1 clearStack, .advance 0, .advance 0, .advance 0, .advance 1, .advance 1]

theorem two_creators_run : (scheduled (Keeps (System.Allowed PushPopOnly)) twoCreators).isSome = true := by decide +kernel

theorem two_creators_finish : (scheduled (Keeps (System.Allowed PushPopOnly)) (twoCreators ++ creation 1)).isSome = true := by
  decide +kernel

theorem early_attach_runs : (scheduled (Keeps (System.Allowed PushPopOnly)) earlyAttach).isSome = true := by decide +kernel

def overwritten : SharedSystem oneShared 2 :=
  (scheduled (Keeps (System.Allowed PushPopOnly)) (twoCreators ++ creation 1)).get two_creators_finish

theorem overwritten_lost : ¬ overwritten.Kept := by
  intro kept
  obtain ⟨queue, written, consumed, order, represents⟩ := kept.elements
  have memory := represents 1 (by decide +kernel)
  have stored : storedValues overwritten.log = [7] := by decide +kernel
  have taken : takenValues overwritten.log = [] := by decide +kernel
  have erased : overwritten.queue.memory.entry (oneShared.config.number 0) = ⟨0, 0⟩ := by decide +kernel
  rw [stored, taken, List.nil_append] at order
  have held : queue.get? queue.first = some 7 := by simp [Fifo.get?, ← order]
  have full := memory.full queue.first 7 held
  have one : ∀ number, number % oneShared.config.size = 0 := fun number => Nat.mod_one number
  rw [entry_congr _ queue.first 0 ((one _).trans (one 0).symm), erased] at full
  have data : (0 : oneShared.Data) = 7 := congrArg Entry.data full
  exact absurd data (by decide)

theorem second_creator_erases :
    (∃ shared : SharedSystem oneShared 2, Transition.Reachable (machine oneShared 2) (Keeps (System.Allowed PushPopOnly)) shared ∧
      storedValues shared.log = [7] ∧ shared.tasks 0 = none ∧ (shared.stage 1).creates = true ∧ ¬ shared.Once) ∧
    (∃ shared : SharedSystem oneShared 2, Transition.Reachable (machine oneShared 2) (Keeps (System.Allowed PushPopOnly)) shared ∧
      storedValues shared.log = [7] ∧ takenValues shared.log = [] ∧ (shared.stage 1).isReady = true ∧ ¬ shared.Kept) ∧
    ∃ shared : SharedSystem oneShared 2, Transition.Reachable (machine oneShared 2) (Keeps (System.Allowed PushPopOnly)) shared ∧
      (shared.stage 0).creates = true ∧ (shared.stage 1).isReady = true ∧ ¬ shared.Once := by
  refine ⟨⟨_, scheduled_reached _ twoCreators two_creators_run, by decide +kernel, by decide +kernel, by decide +kernel, ?_⟩,
    ⟨overwritten, scheduled_reached _ (twoCreators ++ creation 1) two_creators_finish, by decide +kernel, by decide +kernel,
      by decide +kernel, overwritten_lost⟩,
    ⟨_, scheduled_reached _ earlyAttach early_attach_runs, by decide +kernel, by decide +kernel, ?_⟩⟩
  · intro once
    have unused := congrArg List.length (once.unused 1 (by decide +kernel))
    exact absurd unused (by decide +kernel)
  · intro once
    have finished := (once.initialised 1 (by decide +kernel)).1 0
    exact absurd finished (by decide +kernel)

end SharedSystem

end LockfreeQueue
