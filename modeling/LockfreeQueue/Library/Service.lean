import Mathlib.Logic.Function.Basic
import LockfreeQueue.Library.Transition

set_option autoImplicit false

namespace Service

-- A shared object as its callers see it: a thread invokes a call, the object moves by itself,
-- and a move may complete a call by handing a reply to its thread.
structure Object (State Move Call Reply : Type) where
  start : State
  invoke : State → Nat → Call → Option State
  move : State → Move → Option (State × Option (Nat × Reply))

inductive Interaction (Call Reply : Type) where
  | invoked (thread : Nat) (call : Call)
  | replied (thread : Nat) (reply : Reply)

def answers {Call Reply : Type} (reply : Option (Nat × Reply)) : List (Interaction Call Reply) :=
  (reply.map fun answer => .replied answer.1 answer.2).toList

-- The runs of an object with the history that its callers see.
inductive Runs {State Move Call Reply : Type} (object : Object State Move Call Reply) (allowed : State → Move → Prop) :
    State → List (Interaction Call Reply) → State → Prop where
  | done (state : State) : Runs object allowed state [] state
  | invoke (state middle final : State) (thread : Nat) (call : Call) (history : List (Interaction Call Reply))
      (entered : object.invoke state thread call = some middle) (later : Runs object allowed middle history final) :
      Runs object allowed state (.invoked thread call :: history) final
  | move (state middle final : State) (move : Move) (reply : Option (Nat × Reply)) (history : List (Interaction Call Reply))
      (permitted : allowed state move) (moved : object.move state move = some (middle, reply))
      (later : Runs object allowed middle history final) : Runs object allowed state (answers reply ++ history) final

def Free {State Move : Type} (_ : State) (_ : Move) : Prop := True

-- What a call is to do, one atomic operation on the value after the other: most calls are a
-- single operation, after which they are decided.
inductive Progress (Stage Reply : Type) where
  | active (stage : Stage)
  | decided (reply : Reply)

-- `Choice` is the freedom that the specification leaves to an operation.
structure Spec (Value Stage Call Reply Choice : Type) where
  start : Value
  enter : Call → Stage
  commit : Value → Stage → Choice → Value × Progress Stage Reply

structure Atomic (Value Stage Reply : Type) where
  value : Value
  pending : Nat → Option (Progress Stage Reply)

inductive AtomicMove (Choice : Type) where
  | commit (thread : Nat) (choice : Choice)
  | finish (thread : Nat)

-- The object that a specification describes: each operation takes effect at one moment between
-- the invocation of its call and the reply.
def atomic {Value Stage Call Reply Choice : Type} (spec : Spec Value Stage Call Reply Choice) :
    Object (Atomic Value Stage Reply) (AtomicMove Choice) Call Reply where
  start := ⟨spec.start, fun _ => none⟩
  invoke state thread call :=
    match state.pending thread with
    | none => some { state with pending := Function.update state.pending thread (some (.active (spec.enter call))) }
    | some _ => none
  move state
    | .commit thread choice =>
        match state.pending thread with
        | some (.active stage) =>
            let committed := spec.commit state.value stage choice
            some (⟨committed.1, Function.update state.pending thread (some committed.2)⟩, none)
        | _ => none
    | .finish thread =>
        match state.pending thread with
        | some (.decided reply) => some ({ state with pending := Function.update state.pending thread none }, some (thread, reply))
        | _ => none

section

variable {State Move Call Reply : Type} (object : Object State Move Call Reply) (allowed : State → Move → Prop)

theorem runs_append (state middle final : State) (first second : List (Interaction Call Reply))
    (early : Runs object allowed state first middle) (late : Runs object allowed middle second final) :
    Runs object allowed state (first ++ second) final := by
  induction early with
  | done state => exact late
  | invoke state middle _ thread call history entered later ih =>
      exact .invoke state middle final thread call (history ++ second) entered (ih late)
  | move state middle _ move reply history permitted moved later ih =>
      rw [List.append_assoc]
      exact .move state middle final move reply (history ++ second) permitted moved (ih late)

theorem runs_move (state next : State) (move : Move) (reply : Option (Nat × Reply)) (permitted : allowed state move)
    (moved : object.move state move = some (next, reply)) : Runs object allowed state (answers reply) next := by
  have run := Runs.move state next next move reply [] permitted moved (.done next)
  rwa [List.append_nil] at run

end

-- A run given by what is asked of the object, refused at the first move that breaks the promise.
inductive Request (Call Move : Type) where
  | invoke (thread : Nat) (call : Call)
  | move (move : Move)

def checkedRuns {State Move Call Reply : Type} (object : Object State Move Call Reply) (allowed : State → Move → Prop)
    [∀ state move, Decidable (allowed state move)] :
    List (Request Call Move) → State → Option (List (Interaction Call Reply) × State)
  | [], state => some ([], state)
  | .invoke thread call :: rest, state => (object.invoke state thread call).bind fun entered =>
      (checkedRuns object allowed rest entered).map fun done => (.invoked thread call :: done.1, done.2)
  | .move move :: rest, state =>
      if allowed state move then (object.move state move).bind fun moved =>
        (checkedRuns object allowed rest moved.1).map fun done => (answers moved.2 ++ done.1, done.2)
      else none

theorem checked_runs {State Move Call Reply : Type} (object : Object State Move Call Reply) (allowed : State → Move → Prop)
    [∀ state move, Decidable (allowed state move)] (requests : List (Request Call Move)) (state : State)
    (done : List (Interaction Call Reply) × State) (completed : checkedRuns object allowed requests state = some done) :
    Runs object allowed state done.1 done.2 := by
  induction requests generalizing state done with
  | nil =>
      cases completed
      exact .done state
  | cons request rest ih =>
      cases request with
      | invoke thread call =>
          obtain ⟨entered, accepted, later⟩ := Option.bind_eq_some_iff.mp completed
          obtain ⟨last, ran, rfl⟩ := Option.map_eq_some_iff.mp later
          exact .invoke state entered last.2 thread call last.1 accepted (ih entered last ran)
      | move move =>
          by_cases permitted : allowed state move
          · rw [checkedRuns, if_pos permitted] at completed
            obtain ⟨moved, accepted, later⟩ := Option.bind_eq_some_iff.mp completed
            obtain ⟨last, ran, rfl⟩ := Option.map_eq_some_iff.mp later
            exact .move state moved.1 last.2 move moved.2 last.1 permitted accepted (ih moved.1 last ran)
          · simp [checkedRuns, permitted] at completed

-- Forward simulation: whatever the concrete object does, the abstract one can do in some number
-- of moves that show the callers the same.
structure Simulates {State Move Other Act Call Reply : Type} (concrete : Object State Move Call Reply)
    (abstract : Object Other Act Call Reply) (allowed : State → Move → Prop) (Related : State → Other → Prop) : Prop where
  start : Related concrete.start abstract.start
  invoke : ∀ state other thread call next, Related state other → concrete.invoke state thread call = some next →
    ∃ after, abstract.invoke other thread call = some after ∧ Related next after
  move : ∀ state other move next reply, Related state other → allowed state move →
    concrete.move state move = some (next, reply) →
    ∃ after, Runs abstract Free other (answers reply) after ∧ Related next after

theorem simulates_runs {State Move Other Act Call Reply : Type} (concrete : Object State Move Call Reply)
    (abstract : Object Other Act Call Reply) (allowed : State → Move → Prop) (Related : State → Other → Prop)
    (simulates : Simulates concrete abstract allowed Related) (state final : State) (history : List (Interaction Call Reply))
    (run : Runs concrete allowed state history final) (other : Other) (related : Related state other) :
    ∃ last, Runs abstract Free other history last ∧ Related final last := by
  induction run generalizing other with
  | done state => exact ⟨other, .done other, related⟩
  | invoke state middle final thread call history entered later ih =>
      obtain ⟨after, accepted, kept⟩ := simulates.invoke state other thread call middle related entered
      obtain ⟨last, rest, ended⟩ := ih after kept
      exact ⟨last, .invoke other after last thread call history accepted rest, ended⟩
  | move state middle final move reply history permitted moved later ih =>
      obtain ⟨after, matched, kept⟩ := simulates.move state other move middle reply related permitted moved
      obtain ⟨last, rest, ended⟩ := ih after kept
      exact ⟨last, runs_append abstract Free other after last _ history matched rest, ended⟩

section

variable {Value Stage Call Reply Choice : Type} (spec : Spec Value Stage Call Reply Choice) (state : Atomic Value Stage Reply)
variable (thread : Nat)

theorem atomic_invoke (call : Call) (idle : state.pending thread = none) :
    (atomic spec).invoke state thread call =
      some { state with pending := Function.update state.pending thread (some (.active (spec.enter call))) } := by
  simp only [atomic, idle]

theorem atomic_commit (stage : Stage) (choice : Choice) (active : state.pending thread = some (.active stage)) :
    (atomic spec).move state (.commit thread choice) =
      some (⟨(spec.commit state.value stage choice).1,
        Function.update state.pending thread (some (spec.commit state.value stage choice).2)⟩, none) := by
  simp only [atomic, active]

theorem atomic_finish (reply : Reply) (decided : state.pending thread = some (.decided reply)) :
    (atomic spec).move state (.finish thread) =
      some ({ state with pending := Function.update state.pending thread none }, some (thread, reply)) := by
  simp only [atomic, decided]

end

end Service
