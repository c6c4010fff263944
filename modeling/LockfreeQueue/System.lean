import LockfreeQueue.Library.Fifo
import LockfreeQueue.Steps

set_option autoImplicit false

namespace LockfreeQueue

-- A successful compare_exchange with the thread that made it. `lost` marks the pops that
-- push_keep_n makes on its own; `number` is the operation number of the exchanged element.
inductive Event (config : Config) (Data : Type) where
  | stored (thread : Nat) (d : Data)
  | took (thread : Nat) (d : Data) (lost : Bool)
  | swapped (thread : Nat) (i : Index config) (number : Nat) (oldValue newValue : Data)
  | wrote (thread : Nat)
  | read (thread : Nat)
deriving DecidableEq

namespace Event

variable {config : Config} {Data : Type}

def thread : Event config Data → Nat
  | .stored thread _ | .took thread _ _ | .swapped thread _ _ _ _ | .wrote thread | .read thread => thread

def isStored : Event config Data → Bool
  | .stored _ _ => true
  | _ => false

def isTook : Event config Data → Bool
  | .took _ _ _ => true
  | _ => false

def isWrote : Event config Data → Bool
  | .wrote _ => true
  | _ => false

def isRead : Event config Data → Bool
  | .read _ => true
  | _ => false

-- A CAS on an entry of the array, as opposed to one on an index.
def onEntry : Event config Data → Bool
  | .wrote _ | .read _ => false
  | _ => true

-- The operation of the abstract queue that takes effect at the event.
def op : Event config Data → Option (Fifo.Op Data)
  | .stored _ d => some (.push d)
  | .took _ d _ => some (.pop d)
  | .swapped _ _ number oldValue newValue => some (.replace number oldValue newValue)
  | .wrote _ | .read _ => none

end Event

section

variable {config : Config} {Data : Type}

-- Logs are kept latest event first.
def stores (log : List (Event config Data)) : Nat := log.countP Event.isStored
def takes (log : List (Event config Data)) : Nat := log.countP Event.isTook
def writes (log : List (Event config Data)) : Nat := log.countP Event.isWrote
def reads (log : List (Event config Data)) : Nat := log.countP Event.isRead

def history (log : List (Event config Data)) : List (Fifo.Op Data) := log.reverse.filterMap Event.op

def storedValues (log : List (Event config Data)) : List Data := Fifo.pushed (history log)
def takenValues (log : List (Event config Data)) : List Data := Fifo.popped (history log)

-- The abstract queue after the logged operations, or none when they are no legal history.
def contents [DecidableEq Data] (log : List (Event config Data)) : Option (Fifo Data config.size) :=
  Transition.run (Fifo.machine Data config.size) (history log) Fifo.empty

end

-- The shared memory and the threads' calls, with the ghost state the properties speak of: the
-- log, its parts after each thread's last index load and after its last read of a sequence, and
-- the number of the element that the thread's current call last stored or took.
structure System (config : Config) (Data : Type) where
  memory : Memory config Data
  tasks : Nat → Option (Task config Data)
  log : List (Event config Data)
  since : Nat → List (Event config Data)
  seen : Nat → List (Event config Data)
  mark : Nat → Option Nat

inductive Action (config : Config) (Data : Type) where
  | call (thread : Nat) (call : Call config Data)
  | step (thread : Nat)

section

variable {config : Config} {Data : Type}

def Call.discards : Call config Data → Bool
  | .pushKeepN _ | .pushKeepNIndex _ => true
  | _ => false

def Act.event (log : List (Event config Data)) (thread : Nat) (call : Call config Data) : Act config Data → Event config Data
  | .stored d => .stored thread d
  | .took d => .took thread d call.discards
  | .swapped i oldValue newValue =>
      .swapped thread i (Word.atLeast config.half (takes log) i.toNat) oldValue newValue
  | .wrote => .wrote thread
  | .read => .read thread

def recorded (log : List (Event config Data)) (thread : Nat) (call : Call config Data) (act : Option (Act config Data)) :
    List (Event config Data) := (act.map (Act.event log thread call)).toList

theorem recorded_some (log : List (Event config Data)) (thread : Nat) (call : Call config Data) (act : Act config Data) :
    recorded log thread call (some act) ++ log = act.event log thread call :: log := rfl

def Pc.isLoad : Pc config Data → Bool
  | .pushLoad _ | .readLoad _ => true
  | _ => false

def Pc.readsSeq : Pc config Data → Bool
  | .pushRead _ _ => true
  | _ => false

-- The accesses of a loop iteration that come after its load of the index.
def Pc.inIteration : Pc config Data → Bool
  | .pushLoad _ | .readLoad _ | .exchange _ _ _ => false
  | _ => true

def marked (log : List (Event config Data)) (mark : Option Nat) : Option (Act config Data) → Option Nat
  | some (.stored _) => some (stores log)
  | some (.took _) => some (takes log)
  | _ => mark

variable [DecidableEq Data] [Zero Data]

def System.initial (config : Config) (Data : Type) [Zero Data] : System config Data :=
  ⟨Memory.initial config Data, fun _ => none, [], fun _ => [], fun _ => [], fun _ => none⟩

def System.stepTask (system : System config Data) (thread : Nat) (task : Task config Data) : System config Data :=
  let effect := exec system.memory task.pc
  let events := recorded system.log thread task.call effect.act
  { memory := effect.memory
    tasks := Function.update system.tasks thread (resume task effect.next).1
    log := events ++ system.log
    since := fun other => if other = thread ∧ task.pc.isLoad = true then [] else events ++ system.since other
    seen := fun other => if other = thread ∧ task.pc.readsSeq = true then [] else events ++ system.seen other
    mark := Function.update system.mark thread (marked system.log (system.mark thread) effect.act) }

def System.startCall (system : System config Data) (thread : Nat) (call : Call config Data) : System config Data :=
  { system with
    tasks := Function.update system.tasks thread (some call.start)
    mark := Function.update system.mark thread none }

def System.next (system : System config Data) : Action config Data → Option (System config Data)
  | .call thread call => if (system.tasks thread).isNone then some (system.startCall thread call) else none
  | .step thread => (system.tasks thread).map (system.stepTask thread)

def queueMachine (config : Config) (Data : Type) [DecidableEq Data] [Zero Data] :
    Transition.Machine (System config Data) (Action config Data) := ⟨System.initial config Data, System.next⟩

-- What a step of a thread gives back to the caller, when its call returns with that step.
def System.Returns (system : System config Data) (thread : Nat) (call : Call config Data) (reply : Reply config Data) : Prop :=
  ∃ task, system.tasks thread = some task ∧ task.call = call ∧
    (resume task (exec system.memory task.pc).next).2 = some reply

-- The bounded staleness of the schedule: between the load of the index and the last step of the
-- iteration fewer than `limit` pushes and fewer than `limit` pops succeed.
def Config.limit (config : Config) : Nat := config.half - config.size

def System.InTime (system : System config Data) (thread : Nat) (task : Task config Data) : Prop :=
  task.pc.inIteration = true → stores (system.since thread) < config.limit ∧ takes (system.since thread) < config.limit

instance (system : System config Data) (thread : Nat) (task : Task config Data) :
    Decidable (system.InTime thread task) := inferInstanceAs (Decidable (_ → _))

def System.Timely (system : System config Data) : Action config Data → Prop
  | .call _ _ => True
  | .step thread => ∀ task ∈ system.tasks thread, system.InTime thread task

instance (system : System config Data) (action : Action config Data) : Decidable (system.Timely action) :=
  match action with
  | .call _ _ => isTrue trivial
  | .step thread => inferInstanceAs (Decidable (∀ task ∈ system.tasks thread, system.InTime thread task))

-- A further promise about the schedule, on top of bounded staleness: which calls are made.
def System.Allowed (promise : System config Data → Action config Data → Prop)
    (system : System config Data) (action : Action config Data) : Prop :=
  system.Timely action ∧ promise system action

instance (promise : System config Data → Action config Data → Prop) [∀ system action, Decidable (promise system action)]
    (system : System config Data) (action : Action config Data) : Decidable (System.Allowed promise system action) :=
  inferInstanceAs (Decidable (_ ∧ _))

def System.Reached (promise : System config Data → Action config Data → Prop) (system : System config Data) : Prop :=
  Transition.Reachable (queueMachine config Data) (System.Allowed promise) system

end

end LockfreeQueue
