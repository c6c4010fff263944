import LockfreeQueue.Library.Program
import LockfreeQueue.Linearizable
import LockfreeQueue.PointerOwner

set_option autoImplicit false

namespace LockfreeQueue

-- What is being done with one of the callers' unique_ptrs: a call that has it as its argument, or
-- the destructor of the queue, which runs in the place of a call.
inductive PointerDuty (config : Config) where
  | idle
  | operating (call : PointerCall) (entry : Option Nat)
  | refused (call : PointerCall)
  | pushed (call : PointerCall) (number : Option (Index config))
  | taken (call : PointerCall) (nv : Option Nat) (number : Option (Index config))
  | draining
  | dropping (nv : Option Nat)
  | drained

structure PointerUser (config : Config) where
  duty : PointerDuty config
  results : List (PointerReturn config)

-- `busy` has the arguments of the calls in progress and `destroyer` where the destructor runs.
structure PointerHeap where
  vars : Nat → Option Nat
  made : Nat
  deleted : List Nat
  busy : List Nat
  destroyer : Option Nat

inductive PointerChoice where
  | make
  | reset
  | move (y : Nat)
  | call (call : PointerCall)
  | destroy
  | go

namespace PointerHeap

def reset (heap : PointerHeap) (x : Nat) (nv : Option Nat) : PointerHeap :=
  { heap with vars := Function.update heap.vars x nv, deleted := heap.deleted ++ (heap.vars x).toList }

def release (heap : PointerHeap) (x : Nat) : PointerHeap := { heap with vars := Function.update heap.vars x none }

def leave (heap : PointerHeap) (x : Nat) : PointerHeap := { heap with busy := heap.busy.filter (fun y => y ≠ x) }

end PointerHeap

section

variable {config : Config}

def PointerUser.goto (user : PointerUser config) (duty : PointerDuty config) : PointerUser config := { user with duty := duty }

def PointerUser.returns (user : PointerUser config) (x : Nat) (call : PointerCall) (ok : Bool) (number : Option (Index config)) :
    PointerUser config := ⟨.idle, user.results ++ [⟨x, call, ok, number⟩]⟩

-- Between calls the callers make, reset and move their pointers, and a call begins with v.get().
-- After its operation it still has to do v.release() or v.reset(nv), and the destructor to delete
-- what it popped.
def PointerUser.step (x : Nat) (heap : PointerHeap) (user : PointerUser config) (choice : PointerChoice) :
    Option (PointerHeap × PointerUser config) :=
  match user.duty with
  | .idle =>
      match choice with
      | .make => some ({ heap.reset x (some heap.made) with made := heap.made + 1 }, user)
      | .reset => some (heap.reset x none, user)
      | .move y => if y ∈ heap.busy then none else some ((heap.release x).reset y (heap.vars x), user)
      | .call call =>
          if heap.destroyer = none then some ({ heap with busy := x :: heap.busy }, user.goto (.operating call (heap.vars x))) else none
      | .destroy => if heap.destroyer = none ∧ heap.busy = [] then some ({ heap with destroyer := some x }, user.goto .draining) else none
      | .go => none
  | .refused call => some (heap.leave x, user.returns x call false none)
  | .pushed call number => some ((heap.release x).leave x, user.returns x call true number)
  | .taken call nv number => some ((heap.reset x nv).leave x, user.returns x call true number)
  | .dropping nv => some ({ heap with deleted := heap.deleted ++ nv.toList }, user.goto .draining)
  | .operating _ _ | .draining | .drained => none

def PointerUser.call (user : PointerUser config) : Option (Call config (Option Nat)) :=
  match user.duty with
  | .operating .push entry => some (.push entry)
  | .operating .pushIndex entry => some (.pushIndex entry)
  | .operating .pop _ | .draining => some .pop
  | .operating .popIndex _ => some .popIndex
  | _ => none

def PointerUser.reply (user : PointerUser config) (reply : Reply config (Option Nat)) : PointerUser config :=
  match user.duty, reply with
  | .operating call _, .done none number => user.goto (.pushed call number)
  | .operating call _, .done (some nv) number => user.goto (.taken call nv number)
  | .operating call _, _ => user.goto (.refused call)
  | .draining, .done (some nv) _ => user.goto (.dropping nv)
  | .draining, _ => user.goto .drained
  | _, _ => user

def pointerProgram (config : Config) :
    Service.Program (PointerUser config) PointerHeap PointerChoice (Call config (Option Nat)) (Reply config (Option Nat)) where
  shared := ⟨fun _ => none, 0, [], [], none⟩
  privates := fun _ => ⟨.idle, []⟩
  step := fun x heap user choice => user.step x heap choice
  call := fun _ user => user.call
  reply := fun _ user reply => user.reply reply

namespace PointerDuty

def calling : PointerDuty config → Bool
  | .operating _ _ | .refused _ | .pushed _ _ | .taken _ _ _ => true
  | _ => false

def destroys : PointerDuty config → Bool
  | .draining | .dropping _ | .drained => true
  | _ => false

def ended : PointerDuty config → Bool
  | .drained => true
  | _ => false

-- What the destructor has popped and not yet deleted, and what a call has yet to return.
def dropped : PointerDuty config → List Nat
  | .dropping nv => nv.toList
  | _ => []

def owed (x : Nat) : PointerDuty config → List (PointerReturn config)
  | .refused call => [⟨x, call, false, none⟩]
  | _ => []

def Stands (pointers : Pointers config) (x : Nat) : PointerDuty config → Prop
  | .operating call entry => pointers.tasks x = some ⟨call, entry, .operate⟩
  | .pushed call number =>
      ∃ entry i, pointers.tasks x = some ⟨call, entry, .release i⟩ ∧ number = if call.indexed then some i else none
  | .taken call nv number =>
      ∃ entry i, pointers.tasks x = some ⟨call, entry, .reset nv i⟩ ∧ number = if call.indexed then some i else none
  | .idle | .refused _ | .draining | .dropping _ | .drained => pointers.tasks x = none

end PointerDuty

def returnsOf (x : Nat) (log : List (PointerReturn config)) : List (PointerReturn config) := log.filter fun entry => entry.argument = x

def PointerHeap.dropped (heap : PointerHeap) (users : Nat → PointerUser config) : List Nat :=
  match heap.destroyer with
  | some x => (users x).duty.dropped
  | none => []

def PointerHeap.phase (heap : PointerHeap) (users : Nat → PointerUser config) : Phase :=
  match heap.destroyer with
  | some x => if (users x).duty.ended then .destroyed else .draining
  | none => .alive

theorem dropped_alive (heap : PointerHeap) (users : Nat → PointerUser config) (alive : heap.destroyer = none) :
    heap.dropped users = [] := by
  simp only [PointerHeap.dropped, alive]

theorem dropped_destroyer (heap : PointerHeap) (users : Nat → PointerUser config) (x : Nat) (here : heap.destroyer = some x) :
    heap.dropped users = (users x).duty.dropped := by
  simp only [PointerHeap.dropped, here]

theorem dropped_length (heap : PointerHeap) (users : Nat → PointerUser config) : (heap.dropped users).length ≤ 1 := by
  cases here : heap.destroyer with
  | none =>
      rw [dropped_alive heap users here]
      exact Nat.zero_le _
  | some x =>
      rw [dropped_destroyer heap users x here]
      cases (users x).duty with
      | dropping nv => exact Option.length_toList_le
      | _ => exact Nat.zero_le _

theorem phase_alive (heap : PointerHeap) (users : Nat → PointerUser config) (alive : heap.destroyer = none) :
    heap.phase users = .alive := by
  simp only [PointerHeap.phase, alive]

theorem phase_destroyer (heap : PointerHeap) (users : Nat → PointerUser config) (x : Nat) (here : heap.destroyer = some x) :
    heap.phase users = if (users x).duty.ended then .destroyed else .draining := by
  simp only [PointerHeap.phase, here]

-- The state of the pointer queue whose operations are single steps, which a state stands for.
structure PointersHeld (heap : PointerHeap) (users : Nat → PointerUser config) (queue : Fifo (Option Nat) config.size)
    (pointers : Pointers config) : Prop where
  reached : Transition.Reachable (pointerMachine config) Outlives pointers
  queue : pointers.queue = queue
  vars : pointers.vars = heap.vars
  made : pointers.made = heap.made
  deleted : pointers.deleted.Perm (heap.deleted ++ heap.dropped users)
  phase : pointers.phase = heap.phase users
  busy : ∀ x, x ∈ heap.busy ↔ (users x).duty.calling = true
  destroyer : ∀ x, heap.destroyer = some x ↔ (users x).duty.destroys = true
  stands : ∀ x, (users x).duty.Stands pointers x
  returned : ∀ x, returnsOf x pointers.log = (users x).results ++ (users x).duty.owed x

theorem pointers_held_initial :
    PointersHeld ⟨fun _ => none, 0, [], [], none⟩ (fun _ => ⟨.idle, []⟩) Fifo.empty (Pointers.initial config) where
  reached := Transition.reachable_start _ _
  queue := rfl
  vars := rfl
  made := rfl
  deleted := List.Perm.refl _
  phase := rfl
  busy := fun _ => by simp [PointerDuty.calling]
  destroyer := fun _ => by simp [PointerDuty.destroys]
  stands := fun _ => rfl
  returned := fun _ => rfl

theorem duty_stands_other (pointers next : Pointers config) (x : Nat) (duty : PointerDuty config) (stands : duty.Stands pointers x)
    (same : next.tasks x = pointers.tasks x) : duty.Stands next x := by
  cases duty <;> simpa only [PointerDuty.Stands, same] using stands

theorem idle_none (pointers : Pointers config) (x : Nat) (duty : PointerDuty config) (stands : duty.Stands pointers x)
    (idle : duty.calling = false) : pointers.tasks x = none := by
  cases duty <;> first | exact stands | cases idle

variable (heap later : PointerHeap) (users : Nat → PointerUser config) (queue rest : Fifo (Option Nat) config.size)
variable (pointers next : Pointers config) (x : Nat) (after : PointerUser config)

-- What one step of x has to show of the step of the pointer queue that it makes.
structure PointerMoves : Prop where
  queue : next.queue = rest
  vars : next.vars = later.vars
  made : next.made = later.made
  deleted : next.deleted.Perm (later.deleted ++ later.dropped (Function.update users x after))
  phase : next.phase = later.phase (Function.update users x after)
  busy : (x ∈ later.busy ↔ after.duty.calling = true) ∧ ∀ y, y ≠ x → (y ∈ later.busy ↔ y ∈ heap.busy)
  destroyer : (later.destroyer = some x ↔ after.duty.destroys = true) ∧
    ∀ y, y ≠ x → (later.destroyer = some y ↔ heap.destroyer = some y)
  stands : after.duty.Stands next x ∧ ∀ y, y ≠ x → next.tasks y = pointers.tasks y
  returned : returnsOf x next.log = after.results ++ after.duty.owed x ∧
    ∀ y, y ≠ x → returnsOf y next.log = returnsOf y pointers.log

theorem pointers_moves (held : PointersHeld heap users queue pointers)
    (reached : Transition.Reachable (pointerMachine config) Outlives next)
    (moves : PointerMoves heap later users rest pointers next x after) :
    PointersHeld later (Function.update users x after) rest next := by
  obtain ⟨queues, vars, made, deleted, phase, busy, destroyer, stands, returned⟩ := moves
  refine ⟨reached, queues, vars, made, deleted, phase, fun y => ?_, fun y => ?_, fun y => ?_, fun y => ?_⟩ <;>
    by_cases same : y = x
  · rw [same, Function.update_self]
    exact busy.1
  · rw [Function.update_of_ne same, busy.2 y same]
    exact held.busy y
  · rw [same, Function.update_self]
    exact destroyer.1
  · rw [Function.update_of_ne same, destroyer.2 y same]
    exact held.destroyer y
  · rw [same, Function.update_self]
    exact stands.1
  · rw [Function.update_of_ne same]
    exact duty_stands_other pointers next y _ (held.stands y) (stands.2 y same)
  · rw [same, Function.update_self]
    exact returned.1
  · rw [Function.update_of_ne same, returned.2 y same]
    exact held.returned y

-- A step of a caller, which leaves the destructor where it is.
structure CallerMoves : Prop where
  caller : after.duty.destroys = (users x).duty.destroys ∧ after.duty.dropped = (users x).duty.dropped ∧
    after.duty.ended = (users x).duty.ended
  same : later.destroyer = heap.destroyer ∧ next.phase = pointers.phase
  deleted : ∃ extra, next.deleted = pointers.deleted ++ extra ∧ later.deleted = heap.deleted ++ extra
  queue : next.queue = rest
  vars : next.vars = later.vars
  made : next.made = later.made
  busy : (x ∈ later.busy ↔ after.duty.calling = true) ∧ ∀ y, y ≠ x → (y ∈ later.busy ↔ y ∈ heap.busy)
  stands : after.duty.Stands next x ∧ ∀ y, y ≠ x → next.tasks y = pointers.tasks y
  returned : returnsOf x next.log = after.results ++ after.duty.owed x ∧
    ∀ y, y ≠ x → returnsOf y next.log = returnsOf y pointers.log

theorem caller_moves (held : PointersHeld heap users queue pointers)
    (moves : CallerMoves heap later users rest pointers next x after) : PointerMoves heap later users rest pointers next x after := by
  obtain ⟨⟨destroys, dropped, ended⟩, ⟨destroyer, phase⟩, ⟨extra, deletes, also⟩, queues, vars, made, busy, stands, returned⟩ := moves
  have frame (y : Nat) : (Function.update users x after y).duty.dropped = (users y).duty.dropped ∧
      (Function.update users x after y).duty.ended = (users y).duty.ended := by
    by_cases same : y = x
    · rw [same, Function.update_self]
      exact ⟨dropped, ended⟩
    · rw [Function.update_of_ne same]
      exact ⟨rfl, rfl⟩
  have drops : later.dropped (Function.update users x after) = heap.dropped users := by
    simp only [PointerHeap.dropped, destroyer, frame]
  refine ⟨queues, vars, made, ?_, ?_, busy, ⟨?_, fun y _ => by rw [destroyer]⟩, stands, returned⟩
  · rw [drops, deletes, also]
    exact (held.deleted.append_right extra).trans (by
      rw [List.append_assoc, List.append_assoc]
      exact List.perm_append_comm.append_left heap.deleted)
  · rw [phase, held.phase]
    simp only [PointerHeap.phase, destroyer, frame]
  · rw [destroyer, destroys]
    exact held.destroyer x

-- Making, resetting and moving pointers while no call has them.
theorem idle_moves (held : PointersHeld heap users queue pointers) (same : later.destroyer = heap.destroyer ∧ later.busy = heap.busy)
    (deleted : ∃ extra, next.deleted = pointers.deleted ++ extra ∧ later.deleted = heap.deleted ++ extra)
    (vars : next.vars = later.vars) (made : next.made = later.made)
    (frame : next.queue = pointers.queue ∧ next.phase = pointers.phase ∧ next.tasks = pointers.tasks ∧ next.log = pointers.log) :
    CallerMoves heap later users queue pointers next x (users x) where
  caller := ⟨rfl, rfl, rfl⟩
  same := ⟨same.1, frame.2.1⟩
  deleted := deleted
  queue := frame.1.trans held.queue
  vars := vars
  made := made
  busy := by
    rw [same.2]
    exact ⟨held.busy x, fun _ _ => Iff.rfl⟩
  stands := ⟨duty_stands_other pointers next x _ (held.stands x) (congrFun frame.2.2.1 x), fun y _ => congrFun frame.2.2.1 y⟩
  returned := by
    rw [frame.2.2.2]
    exact ⟨held.returned x, fun _ _ => rfl⟩

theorem held_idle (held : PointersHeld heap users queue pointers) (action : PointerAction) (permitted : Outlives pointers action)
    (moved : pointers.next action = some next) (same : later.destroyer = heap.destroyer ∧ later.busy = heap.busy)
    (deleted : ∃ extra, next.deleted = pointers.deleted ++ extra ∧ later.deleted = heap.deleted ++ extra)
    (vars : next.vars = later.vars) (made : next.made = later.made)
    (frame : next.queue = pointers.queue ∧ next.phase = pointers.phase ∧ next.tasks = pointers.tasks ∧ next.log = pointers.log) :
    PointersHeld later users queue next := by
  have moves := idle_moves heap later users queue pointers next 0 held same deleted vars made frame
  have done := pointers_moves heap later users queue queue pointers next 0 (users 0) held
    (Transition.reachable_step _ _ _ _ action held.reached permitted moved) (caller_moves _ _ _ _ _ _ _ _ _ held moves)
  rwa [Function.update_eq_self] at done

theorem idle_free (held : PointersHeld heap users queue pointers) (idle : (users x).duty.calling = false) : pointers.tasks x = none :=
  idle_none pointers x _ (held.stands x) idle

theorem held_make (held : PointersHeld heap users queue pointers) (idle : (users x).duty.calling = false) :
    ∃ next, PointersHeld { heap.reset x (some heap.made) with made := heap.made + 1 } users queue next := by
  have free := idle_free heap users queue pointers x held idle
  have moved : pointers.next (.make x) = some { pointers.reset x (some pointers.made) with made := pointers.made + 1 } := by
    simp [Pointers.next, free]
  refine ⟨_, held_idle heap _ users queue pointers _ held (.make x) trivial moved ⟨rfl, rfl⟩ ⟨(pointers.vars x).toList, rfl, ?_⟩ ?_ ?_
    ⟨rfl, rfl, rfl, rfl⟩⟩
  · rw [held.vars]
    rfl
  · simp only [Pointers.reset, PointerHeap.reset, held.vars, held.made]
  · exact congrArg (· + 1) held.made

theorem held_reset (held : PointersHeld heap users queue pointers) (idle : (users x).duty.calling = false) :
    ∃ next, PointersHeld (heap.reset x none) users queue next := by
  have free := idle_free heap users queue pointers x held idle
  have moved : pointers.next (.reset x) = some (pointers.reset x none) := by simp [Pointers.next, free]
  refine ⟨_, held_idle heap _ users queue pointers _ held (.reset x) trivial moved ⟨rfl, rfl⟩ ⟨(pointers.vars x).toList, rfl, ?_⟩ ?_
    held.made ⟨rfl, rfl, rfl, rfl⟩⟩
  · rw [held.vars]
    rfl
  · simp only [Pointers.reset, PointerHeap.reset, held.vars]

theorem held_move (held : PointersHeld heap users queue pointers) (y : Nat) (idle : (users x).duty.calling = false)
    (open_ : y ∉ heap.busy) : ∃ next, PointersHeld ((heap.release x).reset y (heap.vars x)) users queue next := by
  have free := idle_free heap users queue pointers x held idle
  have into := idle_free heap users queue pointers y held (Bool.eq_false_iff.mpr fun busy => open_ ((held.busy y).mpr busy))
  have moved : pointers.next (.move x y) = some ((pointers.release x).reset y (pointers.vars x)) := by
    simp [Pointers.next, free, into]
  refine ⟨_, held_idle heap _ users queue pointers _ held (.move x y) trivial moved ⟨rfl, rfl⟩
    ⟨((pointers.release x).vars y).toList, rfl, ?_⟩ ?_ held.made ⟨rfl, rfl, rfl, rfl⟩⟩
  · rw [Pointers.release, held.vars]
    rfl
  · simp only [Pointers.reset, Pointers.release, PointerHeap.reset, PointerHeap.release, held.vars]

theorem held_caller (held : PointersHeld heap users queue pointers) (action : PointerAction) (permitted : Outlives pointers action)
    (moved : pointers.next action = some next) (moves : CallerMoves heap later users rest pointers next x after) :
    PointersHeld later (Function.update users x after) rest next :=
  pointers_moves heap later users queue rest pointers next x after held
    (Transition.reachable_step _ _ _ _ action held.reached permitted moved) (caller_moves _ _ _ _ _ _ _ _ _ held moves)

theorem returns_own (x : Nat) (log : List (PointerReturn config)) (entry : PointerReturn config) (own : entry.argument = x) :
    returnsOf x (log ++ [entry]) = returnsOf x log ++ [entry] := by
  simp [returnsOf, own]

theorem returns_other (y : Nat) (log : List (PointerReturn config)) (entry : PointerReturn config) (other : entry.argument ≠ y) :
    returnsOf y (log ++ [entry]) = returnsOf y log := by
  simp [returnsOf, other]

theorem leave_busy (heap : PointerHeap) (x : Nat) :
    x ∉ (heap.leave x).busy ∧ ∀ y, y ≠ x → (y ∈ (heap.leave x).busy ↔ y ∈ heap.busy) :=
  ⟨by simp [PointerHeap.leave], fun y other => by simp [PointerHeap.leave, other]⟩

theorem held_begin (held : PointersHeld heap users queue pointers) (call : PointerCall) (idle : (users x).duty = .idle)
    (alive : heap.destroyer = none) :
    ∃ next, PointersHeld { heap with busy := x :: heap.busy }
      (Function.update users x ((users x).goto (.operating call (heap.vars x)))) queue next := by
  have free := idle_free heap users queue pointers x held (by rw [idle]; rfl)
  have living : pointers.phase = .alive := held.phase.trans (phase_alive heap users alive)
  have moved : pointers.next (.call x call) = some { pointers with
      tasks := Function.update pointers.tasks x (some ⟨call, pointers.vars x, .operate⟩)
      handed := if call.pushes then pointers.handed ++ (pointers.vars x).toList else pointers.handed } := by
    simp [Pointers.next, living, free]
  refine ⟨_, held_caller heap _ users queue queue pointers _ x _ held (.call x call) trivial moved ?_⟩
  refine ⟨by rw [idle]; exact ⟨rfl, rfl, rfl⟩, ⟨rfl, rfl⟩, ⟨[], (List.append_nil _).symm, (List.append_nil _).symm⟩, held.queue,
    held.vars, held.made, ⟨?_, fun y other => ?_⟩, ⟨?_, fun y other => Function.update_of_ne other _ _⟩, ?_, fun _ _ => rfl⟩
  · simp [PointerUser.goto, PointerDuty.calling]
  · simp [other]
  · rw [← held.vars]
    exact Function.update_self _ _ _
  · have returned := held.returned x
    rw [idle] at returned
    exact returned

-- A push or a pop that was refused returns false; the queue's answer came when it was asked.
theorem held_refused (held : PointersHeld heap users queue pointers) (call : PointerCall) (refused : (users x).duty = .refused call) :
    ∃ next, PointersHeld (heap.leave x) (Function.update users x ((users x).returns x call false none)) queue next := by
  have stands := held.stands x
  have returned := held.returned x
  rw [refused] at stands returned
  have moves : CallerMoves heap (heap.leave x) users queue pointers pointers x ((users x).returns x call false none) := by
    refine ⟨by rw [refused]; exact ⟨rfl, rfl, rfl⟩, ⟨rfl, rfl⟩, ⟨[], (List.append_nil _).symm, (List.append_nil _).symm⟩, held.queue,
      held.vars, held.made, ⟨?_, (leave_busy heap x).2⟩, ⟨stands, fun _ _ => rfl⟩, ?_, fun _ _ => rfl⟩
    · simp [(leave_busy heap x).1, PointerUser.returns, PointerDuty.calling]
    · rw [returned]
      exact (List.append_nil _).symm
  exact ⟨pointers, pointers_moves heap _ users queue queue pointers pointers x _ held held.reached (caller_moves _ _ _ _ _ _ _ _ _ held moves)⟩

theorem held_release (held : PointersHeld heap users queue pointers) (call : PointerCall) (number : Option (Index config))
    (pushed : (users x).duty = .pushed call number) :
    ∃ next, PointersHeld ((heap.release x).leave x) (Function.update users x ((users x).returns x call true number)) queue next := by
  have stands := held.stands x
  have returned := held.returned x
  rw [pushed] at stands returned
  obtain ⟨entry, i, running, index⟩ := stands
  have moved : pointers.next (.step x) = some ((pointers.release x).finish x ⟨call, entry, .release i⟩ true (some i)) := by
    rw [Pointers.next, running, Option.map_some]
    rfl
  refine ⟨_, held_caller heap _ users queue queue pointers _ x _ held (.step x) trivial moved ?_⟩
  refine ⟨by rw [pushed]; exact ⟨rfl, rfl, rfl⟩, ⟨rfl, rfl⟩, ⟨[], (List.append_nil _).symm, (List.append_nil _).symm⟩, held.queue,
    ?_, held.made, ⟨?_, (leave_busy heap x).2⟩, ⟨Function.update_self _ _ _, fun y other => Function.update_of_ne other _ _⟩, ?_, ?_⟩
  · exact congrArg (Function.update · x none) held.vars
  · simp [leave_busy, PointerUser.returns, PointerDuty.calling]
  · refine (returns_own x pointers.log _ rfl).trans ?_
    rw [returned, index]
    simp [PointerUser.returns, PointerDuty.owed]
  · exact fun y other => returns_other y pointers.log _ other.symm

theorem held_adopt (held : PointersHeld heap users queue pointers) (call : PointerCall) (nv : Option Nat) (number : Option (Index config))
    (taken : (users x).duty = .taken call nv number) :
    ∃ next, PointersHeld ((heap.reset x nv).leave x) (Function.update users x ((users x).returns x call true number)) queue next := by
  have stands := held.stands x
  have returned := held.returned x
  rw [taken] at stands returned
  obtain ⟨entry, i, running, index⟩ := stands
  have moved : pointers.next (.step x) = some ((pointers.reset x nv).finish x ⟨call, entry, .reset nv i⟩ true (some i)) := by
    rw [Pointers.next, running, Option.map_some]
    rfl
  refine ⟨_, held_caller heap _ users queue queue pointers _ x _ held (.step x) trivial moved ?_⟩
  refine ⟨by rw [taken]; exact ⟨rfl, rfl, rfl⟩, ⟨rfl, rfl⟩, ⟨(pointers.vars x).toList, rfl, ?_⟩, held.queue,
    ?_, held.made, ⟨?_, (leave_busy (heap.reset x nv) x).2⟩, ⟨Function.update_self _ _ _, fun y other => Function.update_of_ne other _ _⟩, ?_, ?_⟩
  · rw [held.vars]
    rfl
  · exact congrArg (Function.update · x nv) held.vars
  · simp [leave_busy, PointerUser.returns, PointerDuty.calling]
  · refine (returns_own x pointers.log _ rfl).trans ?_
    rw [returned, index]
    simp [PointerUser.returns, PointerDuty.owed]
  · exact fun y other => returns_other y pointers.log _ other.symm

-- The queue is destroyed when no call is in progress.
theorem held_destroy (held : PointersHeld heap users queue pointers) (idle : (users x).duty = .idle) (alive : heap.destroyer = none)
    (quiet : heap.busy = []) :
    ∃ next, PointersHeld { heap with destroyer := some x } (Function.update users x ((users x).goto .draining)) queue next := by
  have free (y : Nat) : pointers.tasks y = none := by
    refine idle_free heap users queue pointers y held (Bool.eq_false_iff.mpr fun busy => ?_)
    have member := (held.busy y).mpr busy
    rw [quiet] at member
    cases member
  have living : pointers.phase = .alive := held.phase.trans (phase_alive heap users alive)
  have moved : pointers.next .destroy = some { pointers with phase := .draining } := by simp [Pointers.next, living]
  have stands := held.stands x
  have returned := held.returned x
  have deleted := held.deleted
  rw [idle] at stands returned
  rw [dropped_alive heap users alive] at deleted
  refine ⟨_, pointers_moves heap _ users queue queue pointers _ x _ held
    (Transition.reachable_step _ _ _ _ .destroy held.reached free moved) ?_⟩
  refine ⟨held.queue, held.vars, held.made, ?_, ?_, ⟨?_, fun _ _ => Iff.rfl⟩, ⟨?_, fun y other => ?_⟩, ⟨stands, fun _ _ => rfl⟩,
    returned, fun _ _ => rfl⟩
  · simpa [PointerHeap.dropped, PointerUser.goto, PointerDuty.dropped] using deleted
  · simp [PointerHeap.phase, PointerUser.goto, PointerDuty.ended]
  · rw [quiet]
    simp [PointerUser.goto, PointerDuty.calling]
  · simp [PointerUser.goto, PointerDuty.destroys]
  · simp [alive, other.symm]

theorem held_delete (held : PointersHeld heap users queue pointers) (nv : Option Nat) (dropping : (users x).duty = .dropping nv) :
    ∃ next, PointersHeld { heap with deleted := heap.deleted ++ nv.toList } (Function.update users x ((users x).goto .draining))
      queue next := by
  have stands := held.stands x
  have returned := held.returned x
  have here : heap.destroyer = some x := (held.destroyer x).mpr (by rw [dropping]; rfl)
  have busy := held.busy x
  have deleted := held.deleted
  have phase := held.phase
  rw [dropping] at stands returned busy
  rw [dropped_destroyer heap users x here, dropping] at deleted
  rw [phase_destroyer heap users x here, dropping] at phase
  refine ⟨pointers, pointers_moves heap _ users queue queue pointers pointers x _ held held.reached ?_⟩
  refine ⟨held.queue, held.vars, held.made, ?_, ?_, ⟨busy, fun _ _ => Iff.rfl⟩, ⟨?_, fun y other => Iff.rfl⟩, ⟨stands, fun _ _ => rfl⟩,
    returned, fun _ _ => rfl⟩
  · simpa [PointerHeap.dropped, here, PointerUser.goto, PointerDuty.dropped] using deleted
  · simpa [PointerHeap.phase, here, PointerUser.goto, PointerDuty.ended] using phase
  · simp [here, PointerUser.goto, PointerDuty.destroys]

-- The destructor's pop, which finds an element to delete or ends the loop.
theorem held_drain (held : PointersHeld heap users queue pointers) (draining : (users x).duty = .draining) :
    match queue.pop? with
    | some (nv, rest) => ∃ next, PointersHeld heap (Function.update users x ((users x).goto (.dropping nv))) rest next
    | none => ∃ next, PointersHeld heap (Function.update users x ((users x).goto .drained)) queue next := by
  have stands := held.stands x
  have returned := held.returned x
  have here : heap.destroyer = some x := (held.destroyer x).mpr (by rw [draining]; rfl)
  have busy := held.busy x
  have deleted := held.deleted
  have phase := held.phase
  rw [draining] at stands returned busy
  rw [dropped_destroyer heap users x here, draining] at deleted
  rw [phase_destroyer heap users x here, draining] at phase
  have moved : pointers.next .drain = some pointers.drain := by simp [Pointers.next, phase, PointerDuty.ended]
  rw [← held.queue]
  cases popped : pointers.queue.pop? with
  | none =>
      rw [Pointers.drain, popped] at moved
      refine ⟨_, pointers_moves heap _ users queue _ pointers _ x _ held
        (Transition.reachable_step _ _ _ _ .drain held.reached trivial moved) ?_⟩
      refine ⟨rfl, held.vars, held.made, ?_, ?_, ⟨busy, fun _ _ => Iff.rfl⟩, ⟨?_, fun y other => Iff.rfl⟩, ⟨stands, fun _ _ => rfl⟩,
        returned, fun _ _ => rfl⟩
      · simpa [PointerHeap.dropped, here, PointerUser.goto, PointerDuty.dropped] using deleted
      · simp [PointerHeap.phase, here, PointerUser.goto, PointerDuty.ended]
      · simp [here, PointerUser.goto, PointerDuty.destroys]
  | some pair =>
      rw [Pointers.drain, popped] at moved
      refine ⟨_, pointers_moves heap _ users queue _ pointers _ x _ held
        (Transition.reachable_step _ _ _ _ .drain held.reached trivial moved) ?_⟩
      refine ⟨rfl, held.vars, held.made, ?_, ?_, ⟨busy, fun _ _ => Iff.rfl⟩, ⟨?_, fun y other => Iff.rfl⟩, ⟨stands, fun _ _ => rfl⟩,
        returned, fun _ _ => rfl⟩
      · simpa [PointerHeap.dropped, here, PointerUser.goto, PointerDuty.dropped] using deleted.append_right pair.1.toList
      · simpa [PointerHeap.phase, here, PointerUser.goto, PointerDuty.ended] using phase
      · simp [here, PointerUser.goto, PointerDuty.destroys]

-- What the operation of a call shares with all others: the call goes on, nothing is deleted, and
-- nothing returns unless the queue refused.
theorem held_operated (held : PointersHeld heap users queue pointers) (call : PointerCall) (entry : Option Nat)
    (operating : (users x).duty = .operating call entry) (duty : PointerDuty config) (continues : duty.calling = true)
    (moved : pointers.operate x ⟨call, entry, .operate⟩ = next) (result : next.queue = rest)
    (frame : next.vars = pointers.vars ∧ next.made = pointers.made ∧ next.deleted = pointers.deleted ∧ next.phase = pointers.phase)
    (stands : duty.Stands next x ∧ ∀ y, y ≠ x → next.tasks y = pointers.tasks y)
    (returned : next.log = pointers.log ++ duty.owed x) :
    PointersHeld heap (Function.update users x ((users x).goto duty)) rest next := by
  have here := held.stands x
  have before := held.returned x
  have busy := (held.busy x).mpr (by rw [operating]; rfl)
  rw [operating] at here before
  have action : pointers.next (.step x) = some next := by
    rw [Pointers.next, here, Option.map_some, ← moved]
    rfl
  have quiet : duty.destroys = false ∧ duty.dropped = [] ∧ duty.ended = false := by
    cases duty <;> first | exact ⟨rfl, rfl, rfl⟩ | cases continues
  refine held_caller heap heap users queue rest pointers next x _ held (.step x) trivial action ?_
  refine ⟨?_, ⟨rfl, frame.2.2.2⟩, ⟨[], ?_, (List.append_nil _).symm⟩, result, ?_, ?_, ⟨?_, fun _ _ => Iff.rfl⟩, stands, ?_, ?_⟩
  · rw [operating]
    exact quiet
  · rw [frame.2.2.1, List.append_nil]
  · rw [frame.1, held.vars]
  · rw [frame.2.1, held.made]
  · exact ⟨fun _ => continues, fun _ => busy⟩
  · rw [returned, returnsOf, List.filter_append]
    change returnsOf x pointers.log ++ _ = _
    rw [before]
    cases duty <;> simp [PointerDuty.owed, PointerUser.goto]
  · intro y other
    rw [returned, returnsOf, List.filter_append]
    cases duty <;> simp [PointerDuty.owed, returnsOf, other.symm]

theorem held_refuses (held : PointersHeld heap users queue pointers) (call : PointerCall) (entry : Option Nat)
    (operating : (users x).duty = .operating call entry)
    (refused : pointers.operate x ⟨call, entry, .operate⟩ = pointers.finish x ⟨call, entry, .operate⟩ false none) :
    ∃ next, PointersHeld heap (Function.update users x ((users x).goto (.refused call))) queue next := by
  refine ⟨_, held_operated heap users queue queue pointers _ x held call entry operating (.refused call) rfl refused held.queue
    ⟨rfl, rfl, rfl, rfl⟩ ⟨Function.update_self _ _ _, fun y other => Function.update_of_ne other _ _⟩ ?_⟩
  simp [Pointers.finish, PointerDuty.owed]

theorem held_pushes (held : PointersHeld heap users queue pointers) (call : PointerCall) (entry : Option Nat) (pushes : call.pushes = true)
    (operating : (users x).duty = .operating call entry) :
    match queue.push? entry with
    | some rest => ∃ next, PointersHeld heap (Function.update users x
        ((users x).goto (.pushed call (if call.indexed then some (config.number queue.total) else none)))) rest next
    | none => ∃ next, PointersHeld heap (Function.update users x ((users x).goto (.refused call))) queue next := by
  have here := held.stands x
  rw [operating] at here
  have value : pointers.vars x = entry := (pointers_reached pointers held.reached).untouched x _ here
  cases stored : queue.push? entry with
  | none =>
      refine held_refuses heap users queue pointers x held call entry operating ?_
      simp only [Pointers.operate, pushes, if_true, value, held.queue, stored]
  | some rest =>
      have operate : pointers.operate x ⟨call, entry, .operate⟩ =
          { pointers with queue := rest }.goto x ⟨call, entry, .operate⟩ (.release (config.number queue.total)) := by
        simp only [Pointers.operate, pushes, if_true, value, held.queue, stored]
      exact ⟨_, held_operated heap users queue rest pointers _ x held call entry operating (.pushed call _) rfl operate rfl
        ⟨rfl, rfl, rfl, rfl⟩ ⟨⟨entry, _, Function.update_self _ _ _, rfl⟩, fun y other => Function.update_of_ne other _ _⟩
        (List.append_nil _).symm⟩

theorem held_pops (held : PointersHeld heap users queue pointers) (call : PointerCall) (entry : Option Nat) (pops : call.pushes = false)
    (operating : (users x).duty = .operating call entry) :
    match queue.pop? with
    | some (nv, rest) => ∃ next, PointersHeld heap (Function.update users x
        ((users x).goto (.taken call nv (if call.indexed then some (config.number queue.first) else none)))) rest next
    | none => ∃ next, PointersHeld heap (Function.update users x ((users x).goto (.refused call))) queue next := by
  cases taken : queue.pop? with
  | none =>
      refine held_refuses heap users queue pointers x held call entry operating ?_
      simp only [Pointers.operate, pops, Bool.false_eq_true, if_false, held.queue, taken]
  | some pair =>
      have operate : pointers.operate x ⟨call, entry, .operate⟩ =
          { pointers with queue := pair.2 }.goto x ⟨call, entry, .operate⟩ (.reset pair.1 (config.number queue.first)) := by
        simp only [Pointers.operate, pops, Bool.false_eq_true, if_false, held.queue, taken]
      exact ⟨_, held_operated heap users queue pair.2 pointers _ x held call entry operating (.taken call _ _) rfl operate rfl
        ⟨rfl, rfl, rfl, rfl⟩ ⟨⟨entry, _, Function.update_self _ _ _, rfl⟩, fun y other => Function.update_of_ne other _ _⟩
        (List.append_nil _).symm⟩

theorem held_user_step (held : PointersHeld heap users queue pointers) (choice : PointerChoice)
    (stepped : (users x).step x heap choice = some (later, after)) :
    ∃ next, PointersHeld later (Function.update users x after) queue next := by
  cases duty : (users x).duty with
  | idle =>
      have calm : (users x).duty.calling = false := by rw [duty]; rfl
      simp only [PointerUser.step, duty] at stepped
      cases choice with
      | make =>
          cases stepped
          rw [Function.update_eq_self]
          exact held_make heap users queue pointers x held calm
      | reset =>
          cases stepped
          rw [Function.update_eq_self]
          exact held_reset heap users queue pointers x held calm
      | move y =>
          obtain ⟨open_, result⟩ := Option.ite_none_left_eq_some.mp stepped
          cases result
          rw [Function.update_eq_self]
          exact held_move heap users queue pointers x held y calm open_
      | call call =>
          obtain ⟨alive, result⟩ := Option.ite_none_right_eq_some.mp stepped
          cases result
          exact held_begin heap users queue pointers x held call duty alive
      | destroy =>
          obtain ⟨⟨alive, quiet⟩, result⟩ := Option.ite_none_right_eq_some.mp stepped
          cases result
          exact held_destroy heap users queue pointers x held duty alive quiet
      | go => cases stepped
  | refused call =>
      simp only [PointerUser.step, duty] at stepped
      cases stepped
      exact held_refused heap users queue pointers x held call duty
  | pushed call number =>
      simp only [PointerUser.step, duty] at stepped
      cases stepped
      exact held_release heap users queue pointers x held call number duty
  | taken call nv number =>
      simp only [PointerUser.step, duty] at stepped
      cases stepped
      exact held_adopt heap users queue pointers x held call nv number duty
  | dropping nv =>
      simp only [PointerUser.step, duty] at stepped
      cases stepped
      exact held_delete heap users queue pointers x held nv duty
  | operating call entry => simp [PointerUser.step, duty] at stepped
  | draining => simp [PointerUser.step, duty] at stepped
  | drained => simp [PointerUser.step, duty] at stepped

theorem held_user_call (held : PointersHeld heap users queue pointers) (call : Call config (Option Nat))
    (calls : (users x).call = some call) :
    ∃ next, PointersHeld heap (Function.update users x ((users x).reply (call.reference queue).2)) (call.reference queue).1 next := by
  cases duty : (users x).duty with
  | operating kind entry =>
      simp only [PointerUser.call, duty] at calls
      cases kind with
      | push =>
          cases calls
          have kept := held_pushes heap users queue pointers x held .push entry rfl duty
          cases stored : queue.push? entry <;> rw [stored] at kept <;>
            simpa only [Call.reference, stored, PointerUser.reply, duty, PointerCall.indexed, Bool.false_eq_true, if_false, if_true] using kept
      | pushIndex =>
          cases calls
          have kept := held_pushes heap users queue pointers x held .pushIndex entry rfl duty
          cases stored : queue.push? entry <;> rw [stored] at kept <;>
            simpa only [Call.reference, stored, PointerUser.reply, duty, PointerCall.indexed, Bool.false_eq_true, if_false, if_true] using kept
      | pop =>
          cases calls
          have kept := held_pops heap users queue pointers x held .pop entry rfl duty
          cases taken : queue.pop? <;> rw [taken] at kept <;>
            simpa only [Call.reference, taken, PointerUser.reply, duty, PointerCall.indexed, Bool.false_eq_true, if_false, if_true] using kept
      | popIndex =>
          cases calls
          have kept := held_pops heap users queue pointers x held .popIndex entry rfl duty
          cases taken : queue.pop? <;> rw [taken] at kept <;>
            simpa only [Call.reference, taken, PointerUser.reply, duty, PointerCall.indexed, Bool.false_eq_true, if_false, if_true] using kept
  | draining =>
      simp only [PointerUser.call, duty] at calls
      cases calls
      have kept := held_drain heap users queue pointers x held duty
      cases taken : queue.pop? <;> rw [taken] at kept <;>
        simpa only [Call.reference, taken, PointerUser.reply, duty] using kept
  | _ => simp [PointerUser.call, duty] at calls

theorem user_call_single (user : PointerUser config) (call : Call config (Option Nat)) (calls : user.call = some call) :
    call.pushOrPop = true := by
  obtain ⟨duty, results⟩ := user
  cases duty with
  | operating kind entry => cases kind <;> cases calls <;> rfl
  | draining => cases calls; rfl
  | _ => cases calls

def PointersHold (heap : PointerHeap) (users : Nat → PointerUser config) (queue : Fifo (Option Nat) config.size) : Prop :=
  ∃ pointers, PointersHeld heap users queue pointers

theorem pointer_single : Service.Single (pointerProgram config) (queueSpec config (Option Nat)) := by
  intro x user call queue lagging calls
  rw [single_commit queue call lagging (user_call_single user call calls)]
  exact ⟨_, rfl⟩

theorem pointer_keeps : Service.Keeps (pointerProgram config) (queueSpec config (Option Nat)) PointersHold where
  initial := ⟨_, pointers_held_initial⟩
  own heap users queue x choice later after holds stepped := by
    obtain ⟨pointers, held⟩ := holds
    exact held_user_step heap later users queue pointers x after held choice stepped
  call heap users queue x call lagging reply holds calls decided := by
    rw [single_commit queue call lagging (user_call_single _ call calls)] at decided ⊢
    cases decided
    obtain ⟨pointers, held⟩ := holds
    exact held_user_call heap users queue pointers x held call calls

-- A null pointer is what an empty slot holds.
local instance nullPointer : Zero (Option Nat) := ⟨none⟩

-- unique_ptrs over the lock-free queue itself, at any interleaving of the accesses inside its calls:
-- the state is one of the queue whose operations are single steps, except that there an object that
-- the destructor pops is deleted at once; no object is deleted twice or while it is owned, and after
-- the destructor every object that no caller has is deleted.
theorem pointer_over_queue
    (state : Service.Hosted (PointerUser config) PointerHeap (System config (Option Nat)))
    (reached : Transition.Reachable (Service.hosted (pointerProgram config) (queueObject config (Option Nat)))
      (Service.Permits fun system thread => system.Timely (.step thread)) state) :
    ∃ pointers dropping, Transition.Reachable (pointerMachine config) Outlives pointers ∧
      contents state.object.log = some pointers.queue ∧ pointers.vars = state.shared.vars ∧ pointers.made = state.shared.made ∧
      pointers.deleted.Perm (state.shared.deleted ++ dropping) ∧ dropping.length ≤ 1 ∧
      (state.shared.destroyer = none → dropping = []) ∧
      (∀ x user, state.threads x = .own user →
        user.duty.Stands pointers x ∧ returnsOf x pointers.log = user.results ++ user.duty.owed x ∧
          (state.shared.destroyer = some x → dropping = user.duty.dropped)) ∧
      state.shared.deleted.Nodup ∧
      (∀ object ∈ state.shared.deleted, object < state.shared.made ∧ ∀ place, pointers.owner place ≠ some object) ∧
      ∀ x user, state.threads x = .own user → user.duty = .drained →
        pointers.phase = .destroyed ∧ pointers.queue.items = [] ∧ pointers.deleted.Perm state.shared.deleted ∧
          ∀ object, object < state.shared.made → (∀ y, state.shared.vars y ≠ some object) → state.shared.deleted.count object = 1 := by
  obtain ⟨atomic, refines, users, ⟨pointers, held⟩, agree⟩ := Service.hosted_keeps (pointerProgram config)
    (queueSpec config (Option Nat)) PointersHold (queueObject config (Option Nat)) (fun system thread => system.Timely (.step thread))
    Refines queue_simulates pointer_single pointer_keeps state reached
  have sound := pointers_reached pointers held.reached
  have own (x : Nat) (user : PointerUser config) (running : state.threads x = .own user) : users x = user :=
    Service.agrees_own _ _ x user _ _ (running ▸ agree x)
  have deleted (object : Nat) (member : object ∈ state.shared.deleted) : object ∈ pointers.deleted :=
    held.deleted.mem_iff.mpr (List.mem_append_left _ member)
  refine ⟨pointers, state.shared.dropped users, held.reached, ?_, held.vars, held.made, held.deleted, dropped_length _ users,
    dropped_alive _ users, ?_, ?_, ?_, ?_⟩
  · rw [refines.value, held.queue]
  · intro x user running
    rw [← own x user running]
    exact ⟨held.stands x, held.returned x, dropped_destroyer _ users x⟩
  · exact (held.deleted.nodup_iff.mp sound.linear.once).sublist (List.sublist_append_left _ _)
  · intro object member
    rw [← held.made]
    exact ⟨sound.linear.known object (deleted object member), fun place owns =>
      (sound.linear.live place object owns).2 (deleted object member)⟩
  · intro x user running drained
    have duty : (users x).duty = .drained := by rw [own x user running, drained]
    have here : state.shared.destroyer = some x := (held.destroyer x).mpr (by rw [duty]; rfl)
    have destroyed : pointers.phase = .destroyed := by
      rw [held.phase, phase_destroyer _ users x here, duty]
      rfl
    have perm : pointers.deleted.Perm state.shared.deleted := by
      simpa only [dropped_destroyer _ users x here, duty, PointerDuty.dropped, List.append_nil] using held.deleted
    refine ⟨destroyed, sound.drained destroyed, perm, fun object made gone => ?_⟩
    rw [← perm.count_eq object]
    exact destroyed_count pointers sound destroyed object (held.made ▸ made) (by rw [held.vars]; exact gone)

-- A step that names neither y nor a move into it.
def Spares (y : Nat) : Service.HostedAction PointerChoice Nat → Prop
  | .own x choice => x ≠ y ∧ choice ≠ .move y
  | .invoke _ | .move _ => True

theorem step_spares (x y : Nat) (heap later : PointerHeap) (user after : PointerUser config) (choice : PointerChoice)
    (other : x ≠ y) (elsewhere : choice ≠ .move y) (stepped : user.step x heap choice = some (later, after)) :
    later.vars y = heap.vars y := by
  obtain ⟨duty, results⟩ := user
  cases duty with
  | idle =>
      cases choice with
      | make => cases stepped; exact Function.update_of_ne other.symm _ _
      | reset => cases stepped; exact Function.update_of_ne other.symm _ _
      | move z =>
          obtain ⟨_, result⟩ := Option.ite_none_left_eq_some.mp stepped
          cases result
          have apart : y ≠ z := fun same => elsewhere (same ▸ rfl)
          exact (Function.update_of_ne apart _ _).trans (Function.update_of_ne other.symm _ _)
      | call call =>
          obtain ⟨_, result⟩ := Option.ite_none_right_eq_some.mp stepped
          cases result
          rfl
      | destroy =>
          obtain ⟨_, result⟩ := Option.ite_none_right_eq_some.mp stepped
          cases result
          rfl
      | go => cases stepped
  | refused call => cases stepped; rfl
  | pushed call number => cases stepped; exact Function.update_of_ne other.symm _ _
  | taken call nv number => cases stepped; exact Function.update_of_ne other.symm _ _
  | dropping nv => cases stepped; rfl
  | _ => cases stepped

theorem path_spares (allowed : Service.Hosted (PointerUser config) PointerHeap (System config (Option Nat)) →
      Service.HostedAction PointerChoice Nat → Prop)
    (state final : Service.Hosted (PointerUser config) PointerHeap (System config (Option Nat)))
    (actions : List (Service.HostedAction PointerChoice Nat))
    (path : Transition.Path (Service.hosted (pointerProgram config) (queueObject config (Option Nat))) allowed state actions final)
    (y : Nat) (spares : ∀ action ∈ actions, Spares y action) : final.shared.vars y = state.shared.vars y := by
  induction path with
  | done state => rfl
  | step state middle final action rest permitted moved later ih =>
      rw [ih fun action member => spares action (List.mem_cons_of_mem _ member)]
      have here := spares action List.mem_cons_self
      cases action with
      | invoke x =>
          simp only [Service.hosted, Service.Hosted.next] at moved
          split at moved
          · obtain ⟨call, _, entered⟩ := Option.bind_eq_some_iff.mp moved
            obtain ⟨object, _, rfl⟩ := Option.map_eq_some_iff.mp entered
            rfl
          · cases moved
      | move x =>
          obtain ⟨after, _, rfl⟩ := Option.map_eq_some_iff.mp moved
          rfl
      | own x choice =>
          simp only [Service.hosted, Service.Hosted.next] at moved
          split at moved
          · obtain ⟨stepped, accepted, rfl⟩ := Option.map_eq_some_iff.mp moved
            exact step_spares x y state.shared stepped.1 _ stepped.2 choice here.1 here.2 accepted
          · cases moved

-- A consumer takes the first object and deletes it before the push that brought it has returned,
-- and keeps the second; the third is still in the queue when the destructor runs.
def pointerRun : List (Service.HostedAction PointerChoice Nat) :=
  Service.repeated [(1, .own 0 .make), (1, .own 0 (.call .push)), (1, .invoke 0), (3, .move 0), (1, .own 1 (.call .pop)), (1, .invoke 1),
    (4, .move 1), (1, .own 1 .go), (1, .own 1 .reset), (1, .move 0), (1, .own 0 .go), (1, .own 0 .make), (1, .own 0 (.call .pushIndex)),
    (1, .invoke 0), (4, .move 0), (1, .own 0 .go), (1, .own 1 (.call .pop)), (1, .invoke 1), (4, .move 1), (1, .own 1 .go),
    (1, .own 0 .make), (1, .own 0 (.call .push)), (1, .invoke 0), (4, .move 0), (1, .own 0 .go), (1, .own 1 .destroy), (1, .invoke 1),
    (4, .move 1), (1, .own 1 .go), (1, .invoke 1), (2, .move 1)]

def pointerObject : Transition.Machine (Service.Hosted (PointerUser smallQueue) PointerHeap (System smallQueue (Option Nat)))
    (Service.HostedAction PointerChoice Nat) := Service.hosted (pointerProgram smallQueue) (queueObject smallQueue (Option Nat))

theorem pointer_run_completes : (Transition.checkedRun pointerObject (Service.Permits fun system thread => system.Timely (.step thread))
    pointerRun pointerObject.start).isSome = true := by decide +kernel

theorem pointer_over_queue_early :
    let state := (Transition.checkedRun pointerObject (Service.Permits fun system thread => system.Timely (.step thread))
      pointerRun pointerObject.start).get pointer_run_completes
    state.shared.deleted = [0, 2] ∧ state.shared.vars 1 = some 1 ∧
      ∃ pointers, Transition.Reachable (pointerMachine smallQueue) Outlives pointers ∧ pointers.phase = .destroyed ∧
        contents state.object.log = some pointers.queue ∧ pointers.queue.items = [] ∧ pointers.deleted.Perm [0, 2] ∧
          pointers.vars 1 = some 1 ∧ state.shared.deleted.count 0 = 1 ∧ state.shared.deleted.count 2 = 1 := by
  intro state
  have path := Transition.checked_run_path pointerObject _ pointerRun _ state (Option.some_get pointer_run_completes).symm
  have deleted : state.shared.deleted = [0, 2] := by decide +kernel
  have made : state.shared.made = 3 := by decide +kernel
  have kept : state.shared.vars 0 = none ∧ state.shared.vars 1 = some 1 := by decide +kernel
  have drained : (match state.threads 1 with
    | .own user => user.duty.ended
    | .waiting _ => false) = true := by decide +kernel
  clear_value state
  have elsewhere (y : Nat) (other : 2 ≤ y) : state.shared.vars y = none := by
    refine path_spares _ pointerObject.start state pointerRun path y fun action member => ?_
    revert action
    simp only [pointerRun, Service.repeated, List.flatMap_cons, List.flatMap_nil, List.replicate, List.cons_append, List.nil_append,
      List.forall_mem_cons, Spares, ne_eq, reduceCtorEq,
      not_false_eq_true, and_true, true_and, List.not_mem_nil, false_imp_iff, implies_true]
    omega
  have gone (object : Nat) (other : object ≠ 1) (y : Nat) : state.shared.vars y ≠ some object := by
    intro owns
    rcases y with _ | _ | y
    · cases kept.1.symm.trans owns
    · exact other (Option.some.inj (owns.symm.trans kept.2))
    · cases (elsewhere (y + 2) (Nat.le_add_left 2 y)).symm.trans owns
  obtain ⟨pointers, dropping, reached, held, vars, count, _, _, _, _, _, _, ended⟩ := pointer_over_queue state ⟨pointerRun, path⟩
  cases here : state.threads 1 with
  | waiting user =>
      rw [here] at drained
      cases drained
  | own user =>
      rw [here] at drained
      obtain ⟨duty, results⟩ := user
      cases duty with
      | drained =>
          obtain ⟨destroyed, emptied, perm, once⟩ := ended 1 _ here rfl
          exact ⟨deleted, kept.2, pointers, reached, destroyed, held, emptied, deleted ▸ perm, vars ▸ kept.2,
            once 0 (by omega) (gone 0 (by decide)), once 2 (by omega) (gone 2 (by decide))⟩
      | _ => cases drained

end

end LockfreeQueue
