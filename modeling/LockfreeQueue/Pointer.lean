import LockfreeQueue.Library.Fifo
import LockfreeQueue.Library.Ledger
import LockfreeQueue.Memory

set_option autoImplicit false

namespace LockfreeQueue

inductive PointerCall where
  | push
  | pushIndex
  | pop
  | popIndex
deriving DecidableEq

def PointerCall.pushes : PointerCall → Bool
  | .push | .pushIndex => true
  | .pop | .popIndex => false

def PointerCall.indexed : PointerCall → Bool
  | .pushIndex | .popIndex => true
  | .push | .pop => false

-- What a call does next: its operation on the queue, or v.release(), or v.reset(nv).
inductive PointerPc (config : Config) where
  | operate
  | release (i : Index config)
  | reset (nv : Option Nat) (i : Index config)

-- A call in progress, with what its argument owned when it began.
structure PointerTask (config : Config) where
  call : PointerCall
  entry : Option Nat
  pc : PointerPc config

structure PointerReturn (config : Config) where
  argument : Nat
  call : PointerCall
  ok : Bool
  index : Option (Index config)

inductive Phase where
  | alive
  | draining
  | destroyed
deriving DecidableEq

-- `vars` are the callers' unique_ptrs. A call has one of them to itself while it runs, so calls in
-- progress are named by their arguments, whichever threads make them. Objects are numbered as
-- they are made; `handed` lists those that were ever given to push.
structure Pointers (config : Config) where
  queue : Fifo (Option Nat) config.size
  vars : Nat → Option Nat
  tasks : Nat → Option (PointerTask config)
  made : Nat
  handed : List Nat
  deleted : List Nat
  phase : Phase
  log : List (PointerReturn config)

inductive PointerAction where
  | make (x : Nat)
  | reset (x : Nat)
  | move (x y : Nat)
  | call (x : Nat) (call : PointerCall)
  | step (x : Nat)
  | destroy
  | drain
deriving DecidableEq

namespace Pointers

variable {config : Config}

def initial (config : Config) : Pointers config := ⟨Fifo.empty, fun _ => none, fun _ => none, 0, [], [], .alive, []⟩

-- unique_ptr::release and unique_ptr::reset; the latter deletes what the pointer owned.
def release (pointers : Pointers config) (x : Nat) : Pointers config :=
  { pointers with vars := Function.update pointers.vars x none }

def reset (pointers : Pointers config) (x : Nat) (nv : Option Nat) : Pointers config :=
  { pointers with
    vars := Function.update pointers.vars x nv
    deleted := pointers.deleted ++ (pointers.vars x).toList }

def goto (pointers : Pointers config) (x : Nat) (task : PointerTask config) (pc : PointerPc config) : Pointers config :=
  { pointers with tasks := Function.update pointers.tasks x (some { task with pc := pc }) }

def finish (pointers : Pointers config) (x : Nat) (task : PointerTask config) (ok : Bool) (i : Option (Index config)) : Pointers config :=
  { pointers with
    tasks := Function.update pointers.tasks x none
    log := pointers.log ++ [⟨x, task.call, ok, if task.call.indexed then i else none⟩] }

-- The linearizable operation of the underlying queue that each call makes.
def operate (pointers : Pointers config) (x : Nat) (task : PointerTask config) : Pointers config :=
  if task.call.pushes then
    match pointers.queue.push? (pointers.vars x) with
    | some next => { pointers with queue := next }.goto x task (.release (config.number pointers.queue.total))
    | none => pointers.finish x task false none
  else
    match pointers.queue.pop? with
    | some (nv, next) => { pointers with queue := next }.goto x task (.reset nv (config.number pointers.queue.first))
    | none => pointers.finish x task false none

def step (pointers : Pointers config) (x : Nat) (task : PointerTask config) : Pointers config :=
  match task.pc with
  | .operate => pointers.operate x task
  | .release i => (pointers.release x).finish x task true (some i)
  | .reset nv i => (pointers.reset x nv).finish x task true (some i)

-- One iteration of the destructor's loop, with the unique_ptr that it builds and destroys.
def drain (pointers : Pointers config) : Pointers config :=
  match pointers.queue.pop? with
  | some (nv, next) => { pointers with queue := next, deleted := pointers.deleted ++ nv.toList }
  | none => { pointers with phase := .destroyed }

def next (pointers : Pointers config) : PointerAction → Option (Pointers config)
  | .make x =>
      if (pointers.tasks x).isNone then some { pointers.reset x (some pointers.made) with made := pointers.made + 1 } else none
  | .reset x => if (pointers.tasks x).isNone then some (pointers.reset x none) else none
  | .move x y =>
      if (pointers.tasks x).isNone && (pointers.tasks y).isNone then some ((pointers.release x).reset y (pointers.vars x)) else none
  | .call x call =>
      if pointers.phase = .alive ∧ (pointers.tasks x).isNone then
        some { pointers with
          tasks := Function.update pointers.tasks x (some ⟨call, pointers.vars x, .operate⟩)
          handed := if call.pushes then pointers.handed ++ (pointers.vars x).toList else pointers.handed }
      else none
  | .step x => (pointers.tasks x).map (pointers.step x)
  | .destroy => if pointers.phase = .alive then some { pointers with phase := .draining } else none
  | .drain => if pointers.phase = .draining then some pointers.drain else none

end Pointers

def pointerMachine (config : Config) : Transition.Machine (Pointers config) PointerAction := ⟨Pointers.initial config, Pointers.next⟩

-- The queue outlives the calls made on it.
def Outlives {config : Config} (pointers : Pointers config) : PointerAction → Prop
  | .destroy => ∀ x, pointers.tasks x = none
  | _ => True

-- Where a pointer can be: in a caller's unique_ptr, in the queue, or between the two in a pop.
inductive Place where
  | caller (x : Nat)
  | element (number : Nat)
  | popped (x : Nat)
deriving DecidableEq

def PointerPc.released {config : Config} : PointerPc config → Bool
  | .release _ => true
  | _ => false

def PointerPc.carries {config : Config} : PointerPc config → Option Nat
  | .reset nv _ => nv
  | _ => none

section

variable {config : Config}

@[simp] theorem released_operate : (PointerPc.operate : PointerPc config).released = false := rfl
@[simp] theorem released_release (i : Index config) : (PointerPc.release i).released = true := rfl
@[simp] theorem released_reset (nv : Option Nat) (i : Index config) : (PointerPc.reset nv i).released = false := rfl
@[simp] theorem carries_operate : (PointerPc.operate : PointerPc config).carries = none := rfl
@[simp] theorem carries_release (i : Index config) : (PointerPc.release i).carries = none := rfl
@[simp] theorem carries_reset (nv : Option Nat) (i : Index config) : (PointerPc.reset nv i).carries = nv := rfl

end

namespace Pointers

variable {config : Config}

-- A unique_ptr that has been enqueued and not yet released no longer counts as an owner.
def owner (pointers : Pointers config) : Place → Option Nat
  | .caller x => if (pointers.tasks x).any (fun task => task.pc.released) then none else pointers.vars x
  | .element number => (pointers.queue.get? number).join
  | .popped x => (pointers.tasks x).bind fun task => task.pc.carries

def ledger (pointers : Pointers config) : Ledger Place := ⟨pointers.owner, pointers.made, pointers.deleted⟩

theorem owner_idle (pointers : Pointers config) (x : Nat) (idle : pointers.tasks x = none) :
    pointers.owner (.caller x) = pointers.vars x ∧ pointers.owner (.popped x) = none := by
  simp [owner, idle]

theorem reset_ledger (pointers : Pointers config) (x : Nat) (idle : pointers.tasks x = none) :
    (pointers.reset x none).ledger = pointers.ledger.discard (.caller x) := by
  refine Ledger.ext ?_ rfl (congrArg (fun owned : Option Nat => pointers.deleted ++ owned.toList) (owner_idle pointers x idle).1.symm)
  funext place
  rw [Ledger.discard_holds]
  cases place with
  | caller y => by_cases same : y = x <;> simp [ledger, owner, reset, same]
  | element number => rfl
  | popped y => rfl

theorem make_ledger (pointers : Pointers config) (x : Nat) (idle : pointers.tasks x = none) :
    ({ pointers.reset x (some pointers.made) with made := pointers.made + 1 } : Pointers config).ledger =
      (pointers.ledger.discard (.caller x)).create (.caller x) := by
  rw [← reset_ledger pointers x idle]
  refine Ledger.ext ?_ rfl rfl
  funext place
  rw [Ledger.create_holds]
  cases place with
  | caller y => by_cases same : y = x <;> simp [ledger, owner, reset, same, idle]
  | element number => rfl
  | popped y => rfl

theorem move_ledger (pointers : Pointers config) (x y : Nat) (from_idle : pointers.tasks x = none) (to_idle : pointers.tasks y = none) :
    ((pointers.release x).reset y (pointers.vars x)).ledger =
      (if x = y then pointers.ledger else pointers.ledger.discard (.caller y)).transfer (.caller x) (.caller y) := by
  by_cases same : x = y
  · subst same
    rw [if_pos rfl]
    refine Ledger.ext ?_ rfl (by simp [ledger, release, reset, Ledger.transfer])
    funext place
    rw [Ledger.transfer_holds]
    cases place with
    | caller z => by_cases here : z = x <;> simp [ledger, owner, release, reset, here, from_idle]
    | element number => rfl
    | popped z => rfl
  · rw [if_neg same, ← reset_ledger pointers y to_idle]
    refine Ledger.ext ?_ rfl (by simp [ledger, release, reset, Ledger.transfer, Ne.symm same])
    funext place
    rw [Ledger.transfer_holds]
    cases place with
    | caller z =>
        by_cases here : z = y
        · simp [ledger, owner, release, reset, here, from_idle, to_idle, same]
        · by_cases there : z = x <;> simp [ledger, owner, release, reset, here, there, same]
    | element number => rfl
    | popped z => rfl

theorem call_ledger (pointers : Pointers config) (x : Nat) (call : PointerCall) (handed : List Nat) (idle : pointers.tasks x = none) :
    ({ pointers with tasks := Function.update pointers.tasks x (some ⟨call, pointers.vars x, .operate⟩), handed := handed } :
      Pointers config).ledger = pointers.ledger := by
  refine Ledger.ext ?_ rfl rfl
  funext place
  cases place with
  | caller y => by_cases same : y = x <;> simp [ledger, owner, same, idle]
  | element number => rfl
  | popped y => by_cases same : y = x <;> simp [ledger, owner, same, idle]

variable (pointers : Pointers config) (x : Nat) (task : PointerTask config) (running : pointers.tasks x = some task)

include running

theorem finish_ledger (ok : Bool) (i : Option (Index config)) (operating : task.pc = .operate) :
    (pointers.finish x task ok i).ledger = pointers.ledger := by
  refine Ledger.ext ?_ rfl rfl
  funext place
  cases place with
  | caller y => by_cases same : y = x <;> simp [ledger, owner, finish, same, running, operating]
  | element number => rfl
  | popped y => by_cases same : y = x <;> simp [ledger, owner, finish, same, running, operating]

theorem enqueue_ledger (next : Fifo (Option Nat) config.size) (i : Index config) (operating : task.pc = .operate)
    (stored : pointers.queue.push? (pointers.vars x) = some next) :
    ({ pointers with queue := next }.goto x task (.release i)).ledger =
      pointers.ledger.transfer (.caller x) (.element pointers.queue.total) := by
  refine Ledger.ext ?_ rfl rfl
  funext place
  rw [Ledger.transfer_holds]
  cases place with
  | caller y => by_cases same : y = x <;> simp [ledger, owner, goto, same]
  | element number =>
      by_cases last : number = pointers.queue.total <;>
        simp [ledger, owner, goto, last, Fifo.push_get _ next _ stored, running, operating]
  | popped y => by_cases same : y = x <;> simp [ledger, owner, goto, same, running, operating]

theorem release_ledger (ok : Bool) (i : Index config) (releasing : task.pc = .release i) :
    ((pointers.release x).finish x task ok (some i)).ledger = pointers.ledger := by
  refine Ledger.ext ?_ rfl rfl
  funext place
  cases place with
  | caller y => by_cases same : y = x <;> simp [ledger, owner, release, finish, same, running, releasing]
  | element number => rfl
  | popped y => by_cases same : y = x <;> simp [ledger, owner, release, finish, same, running, releasing]

theorem dequeue_ledger (nv : Option Nat) (next : Fifo (Option Nat) config.size) (i : Index config) (operating : task.pc = .operate)
    (taken : pointers.queue.pop? = some (nv, next)) :
    ({ pointers with queue := next }.goto x task (.reset nv i)).ledger =
      pointers.ledger.transfer (.element pointers.queue.first) (.popped x) := by
  refine Ledger.ext ?_ rfl rfl
  funext place
  rw [Ledger.transfer_holds]
  cases place with
  | caller y => by_cases same : y = x <;> simp [ledger, owner, goto, same, running, operating]
  | element number =>
      by_cases head : number = pointers.queue.first <;> simp [ledger, owner, goto, head, Fifo.pop_get _ next _ taken]
  | popped y =>
      by_cases same : y = x <;> simp [ledger, owner, goto, same, Fifo.pop_head _ next _ taken]

theorem adopt_ledger (nv : Option Nat) (i : Index config) (resetting : task.pc = .reset nv i) :
    ((pointers.reset x nv).finish x task true (some i)).ledger =
      (pointers.ledger.discard (.caller x)).transfer (.popped x) (.caller x) := by
  have mine : pointers.owner (.caller x) = pointers.vars x := by simp [owner, running, resetting]
  refine Ledger.ext ?_ rfl (congrArg (fun owned : Option Nat => pointers.deleted ++ owned.toList) mine.symm)
  funext place
  rw [Ledger.transfer_holds, Ledger.discard_holds, Ledger.discard_holds]
  cases place with
  | caller y => by_cases same : y = x <;> simp [ledger, owner, reset, finish, same, running, resetting]
  | element number => simp [ledger, owner, reset, finish]
  | popped y => by_cases same : y = x <;> simp [ledger, owner, reset, finish, same]

omit running

theorem drain_ledger (nv : Option Nat) (next : Fifo (Option Nat) config.size) (taken : pointers.queue.pop? = some (nv, next)) :
    pointers.drain.ledger = pointers.ledger.discard (.element pointers.queue.first) := by
  have result : pointers.drain = { pointers with queue := next, deleted := pointers.deleted ++ nv.toList } := by rw [drain, taken]
  rw [result]
  have head : pointers.owner (.element pointers.queue.first) = nv := by simp [owner, Fifo.pop_head _ next _ taken]
  refine Ledger.ext ?_ rfl (congrArg (fun owned : Option Nat => pointers.deleted ++ owned.toList) head.symm)
  funext place
  rw [Ledger.discard_holds]
  cases place with
  | caller y => rfl
  | element number =>
      by_cases same : number = pointers.queue.first <;> simp [ledger, owner, same, Fifo.pop_get _ next _ taken]
  | popped y => rfl

end Pointers

end LockfreeQueue
