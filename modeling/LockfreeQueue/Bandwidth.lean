import Mathlib.Algebra.BigOperators.Intervals
import Mathlib.Algebra.Order.BigOperators.Group.Finset
import Mathlib.Data.BitVec
import LockfreeQueue.Library.Program
import LockfreeQueue.Linearizable

set_option autoImplicit false

namespace LockfreeQueue

-- The vectors of threads that the constructor of QBandwidth makes.
structure Bandwidth where
  producers : Nat
  consumers : Nat
  producers_fit : producers < 2 ^ 32

inductive RunPc where
  | startWriter (i : Nat)
  | startReader (i : Nat)
  | clearPush (i : Nat)
  | clearPop (i : Nat)
  | gatherConsumers
  | gatherProducers
  | begin
  | close
  | awaitProducers
  | finish
  | awaitConsumers
  | joinWriter (i : Nat)
  | joinReader (i : Nat)
  | sumPush (i : Nat) (push : BitVec 64)
  | sumPop (i : Nat) (push pop : BitVec 64)
  | report (push pop : BitVec 64)
  | abort
deriving DecidableEq

inductive WriterPc where
  | enter
  | wait
  | test
  | push
  | store
  | leave
  | exit
  | gone
deriving DecidableEq

inductive ReaderPc where
  | enter
  | wait
  | testState
  | testProducers
  | testEmpty
  | drain
  | store
  | leave
  | exit
  | gone
deriving DecidableEq

-- The thread that calls run(), and the threads it starts, each with its id and local counter.
inductive Worker where
  | main (pc : RunPc)
  | writer (id : Nat) (pc : WriterPc) (counter : BitVec 64)
  | reader (id : Nat) (pc : ReaderPc) (counter : BitVec 64)
  | nobody
deriving DecidableEq

structure BandwidthShared where
  state : Nat
  producersCounter : BitVec 32
  consumersCounter : BitVec 32
  pushCounter : Nat → BitVec 64
  popCounter : Nat → BitVec 64
  writers : Nat
  readers : Nat
  exited : Nat → Bool

namespace Bandwidth

def writer (_ : Bandwidth) (id : Nat) : Nat := 1 + id
def reader (bandwidth : Bandwidth) (id : Nat) : Nat := 1 + bandwidth.producers + id
def threads (bandwidth : Bandwidth) : Nat := 1 + bandwidth.producers + bandwidth.consumers

def worker (bandwidth : Bandwidth) (thread : Nat) : Worker :=
  if thread = 0 then .main (.startWriter 0)
  else if thread < 1 + bandwidth.producers then .writer (thread - 1) .enter 0
  else if thread < bandwidth.threads then .reader (thread - (1 + bandwidth.producers)) .enter 0
  else .nobody

-- The body of run() after it has zeroed the counters. The choice is whether the clock has passed
-- the time limit of the wait.
def main (bandwidth : Bandwidth) (shared : BandwidthShared) (late : Bool) : RunPc → Option (BandwidthShared × RunPc)
  | .startWriter i =>
      if i < bandwidth.producers then some ({ shared with writers := i + 1 }, .startWriter (i + 1)) else some (shared, .startReader 0)
  | .startReader i =>
      if i < bandwidth.consumers then some ({ shared with readers := i + 1 }, .startReader (i + 1)) else some (shared, .clearPush 0)
  | .clearPush i =>
      if i < bandwidth.producers then some ({ shared with pushCounter := Function.update shared.pushCounter i 0 }, .clearPush (i + 1))
      else some (shared, .clearPop 0)
  | .clearPop i =>
      if i < bandwidth.consumers then some ({ shared with popCounter := Function.update shared.popCounter i 0 }, .clearPop (i + 1))
      else some (shared, .gatherConsumers)
  | .gatherConsumers => some (shared, if shared.consumersCounter.toNat < bandwidth.consumers then .gatherConsumers else .gatherProducers)
  | .gatherProducers => some (shared, if shared.producersCounter.toNat < bandwidth.producers then .gatherConsumers else .begin)
  | .begin => some ({ shared with state := 1 }, .close)
  | .close => some ({ shared with state := 2 }, .awaitProducers)
  | .awaitProducers => some (shared, if shared.producersCounter ≠ 0 ∧ late = false then .awaitProducers else .finish)
  | .finish => some ({ shared with state := 4 }, .awaitConsumers)
  | .awaitConsumers =>
      some (shared, if shared.consumersCounter = 0 then .joinWriter 0 else if late then .abort else .awaitConsumers)
  | .joinWriter i =>
      if i < bandwidth.producers then if shared.exited (bandwidth.writer i) then some (shared, .joinWriter (i + 1)) else none
      else some (shared, .joinReader 0)
  | .joinReader i =>
      if i < bandwidth.consumers then if shared.exited (bandwidth.reader i) then some (shared, .joinReader (i + 1)) else none
      else some (shared, .sumPush 0 0)
  | .sumPush i push =>
      some (shared, if i < bandwidth.producers then .sumPush (i + 1) (push + shared.pushCounter i) else .sumPop 0 push 0)
  | .sumPop i push pop =>
      some (shared, if i < bandwidth.consumers then .sumPop (i + 1) push (pop + shared.popCounter i) else .report push pop)
  | .report _ _ | .abort => none

-- The lambda of a writer. It does not exist before the main thread has made it.
def write (bandwidth : Bandwidth) (shared : BandwidthShared) (id : Nat) (counter : BitVec 64) : WriterPc → Option (BandwidthShared × WriterPc)
  | .enter =>
      if id < shared.writers then some ({ shared with producersCounter := shared.producersCounter + 1 }, .wait) else none
  | .wait => some (shared, if shared.state < 1 then .wait else .test)
  | .test => some (shared, if shared.state = 1 then .push else .store)
  | .store => some ({ shared with pushCounter := Function.update shared.pushCounter id counter }, .leave)
  | .leave => some ({ shared with producersCounter := shared.producersCounter - 1 }, .exit)
  | .exit => some ({ shared with exited := Function.update shared.exited (bandwidth.writer id) true }, .gone)
  | .push | .gone => none

def read (bandwidth : Bandwidth) (shared : BandwidthShared) (id : Nat) (counter : BitVec 64) : ReaderPc → Option (BandwidthShared × ReaderPc)
  | .enter =>
      if id < shared.readers then some ({ shared with consumersCounter := shared.consumersCounter + 1 }, .wait) else none
  | .wait => some (shared, if shared.state < 1 then .wait else .testState)
  | .testState => some (shared, if shared.state < 3 then .drain else .testProducers)
  | .testProducers => some (shared, if shared.producersCounter ≠ 0 then .drain else .testEmpty)
  | .store => some ({ shared with popCounter := Function.update shared.popCounter id counter }, .leave)
  | .leave => some ({ shared with consumersCounter := shared.consumersCounter - 1 }, .exit)
  | .exit => some ({ shared with exited := Function.update shared.exited (bandwidth.reader id) true }, .gone)
  | .testEmpty | .drain | .gone => none

def step (bandwidth : Bandwidth) (shared : BandwidthShared) (worker : Worker) (late : Bool) : Option (BandwidthShared × Worker) :=
  match worker with
  | .main pc => (bandwidth.main shared late pc).map fun stepped => (stepped.1, .main stepped.2)
  | .writer id pc counter => (bandwidth.write shared id counter pc).map fun stepped => (stepped.1, .writer id stepped.2 counter)
  | .reader id pc counter => (bandwidth.read shared id counter pc).map fun stepped => (stepped.1, .reader id stepped.2 counter)
  | .nobody => none

end Bandwidth

section

variable {config : Config} {Data : Type}

-- What a writer pushes is its counter, as a value of the queue.
def Worker.call (value : BitVec 64 → Data) : Worker → Option (Call config Data)
  | .writer _ .push counter => some (.push (value counter))
  | .reader _ .testEmpty _ => some .empty
  | .reader _ .drain _ => some .pop
  | _ => none

def Worker.reply : Worker → Reply config Data → Worker
  | .writer id .push counter, .failed => .writer id .test counter
  | .writer id .push counter, _ => .writer id .test (counter + 1)
  | .reader id .testEmpty counter, .failed => .reader id .drain counter
  | .reader id .testEmpty counter, _ => .reader id .store counter
  | .reader id .drain counter, .failed => .reader id .testState counter
  | .reader id .drain counter, _ => .reader id .drain (counter + 1)
  | worker, _ => worker

def bandwidthProgram (config : Config) (Data : Type) (bandwidth : Bandwidth) (value : BitVec 64 → Data) :
    Service.Program Worker BandwidthShared Bool (Call config Data) (Reply config Data) where
  shared := ⟨0, 0, 0, fun _ => 0, fun _ => 0, 0, 0, fun _ => false⟩
  privates := bandwidth.worker
  step := fun _ shared worker late => bandwidth.step shared worker late
  call := fun _ worker => worker.call value
  reply := fun _ worker reply => worker.reply reply

end

namespace WriterPc

def entered : WriterPc → Bool
  | .enter => false
  | _ => true

def begun : WriterPc → Bool
  | .enter | .wait => false
  | _ => true

def stored : WriterPc → Bool
  | .leave | .exit | .gone => true
  | _ => false

def left : WriterPc → Bool
  | .exit | .gone => true
  | _ => false

end WriterPc

namespace ReaderPc

def begun : ReaderPc → Bool
  | .enter | .wait => false
  | _ => true

-- Past the read of _state that saw at least 3, then past the read of _producers_counter that saw
-- 0, then past the call of empty() that returned true.
def closing : ReaderPc → Bool
  | .testProducers | .testEmpty | .store | .leave | .exit | .gone => true
  | _ => false

def alone : ReaderPc → Bool
  | .testEmpty | .store | .leave | .exit | .gone => true
  | _ => false

def finished : ReaderPc → Bool
  | .store | .leave | .exit | .gone => true
  | _ => false

def stored : ReaderPc → Bool
  | .leave | .exit | .gone => true
  | _ => false

end ReaderPc

def RunPc.state : RunPc → Nat
  | .close => 1
  | .awaitProducers | .finish => 2
  | .awaitConsumers | .joinWriter _ | .joinReader _ | .sumPush _ _ | .sumPop _ _ _ | .report _ _ | .abort => 4
  | _ => 0

namespace Worker

inductive Role where
  | main
  | writer (id : Nat)
  | reader (id : Nat)
  | nobody
deriving DecidableEq

def role : Worker → Role
  | .main _ => .main
  | .writer id _ _ => .writer id
  | .reader id _ _ => .reader id
  | .nobody => .nobody

def pushed : Worker → BitVec 64
  | .writer _ _ counter => counter
  | _ => 0

def popped : Worker → BitVec 64
  | .reader _ _ counter => counter
  | _ => 0

-- Counted in _producers_counter.
def active : Worker → Nat
  | .writer _ pc _ => if pc.entered && !pc.left then 1 else 0
  | _ => 0

def entered : Worker → Bool
  | .writer _ pc _ => pc.entered
  | _ => true

def begun : Worker → Bool
  | .writer _ pc _ => pc.begun
  | .reader _ pc _ => pc.begun
  | _ => false

def left : Worker → Bool
  | .writer _ pc _ => pc.left
  | _ => true

def closing : Worker → Bool
  | .reader _ pc _ => pc.closing
  | _ => false

def alone : Worker → Bool
  | .reader _ pc _ => pc.alone
  | _ => false

def finished : Worker → Bool
  | .reader _ pc _ => pc.finished
  | _ => false

def gone : Worker → Bool
  | .writer _ .gone _ | .reader _ .gone _ => true
  | _ => false

def Saved (shared : BandwidthShared) : Worker → Prop
  | .writer id pc counter => pc.stored = true → shared.pushCounter id = counter
  | .reader id pc counter => pc.stored = true → shared.popCounter id = counter
  | _ => True

end Worker

section

variable {config : Config} {Data : Type} (bandwidth : Bandwidth)

def Bandwidth.role (thread : Nat) : Worker.Role := (bandwidth.worker thread).role

def Bandwidth.WritersGone (workers : Nat → Worker) (count : Nat) : Prop := ∀ i < count, (workers (bandwidth.writer i)).gone = true
def Bandwidth.ReadersGone (workers : Nat → Worker) (count : Nat) : Prop := ∀ i < count, (workers (bandwidth.reader i)).gone = true

def Bandwidth.pushSum (workers : Nat → Worker) (count : Nat) : BitVec 64 :=
  ∑ i ∈ Finset.range count, (workers (bandwidth.writer i)).pushed

def Bandwidth.popSum (workers : Nat → Worker) (count : Nat) : BitVec 64 :=
  ∑ i ∈ Finset.range count, (workers (bandwidth.reader i)).popped

-- What the main thread knows of the threads that it has joined, and what it has summed up.
def Bandwidth.Joined (workers : Nat → Worker) : RunPc → Prop
  | .joinWriter i => bandwidth.WritersGone workers i
  | .joinReader i => bandwidth.WritersGone workers bandwidth.producers ∧ bandwidth.ReadersGone workers i
  | .sumPush i push => (bandwidth.WritersGone workers bandwidth.producers ∧ bandwidth.ReadersGone workers bandwidth.consumers) ∧
      i ≤ bandwidth.producers ∧ push = bandwidth.pushSum workers i
  | .sumPop i push pop => (bandwidth.WritersGone workers bandwidth.producers ∧ bandwidth.ReadersGone workers bandwidth.consumers) ∧
      push = bandwidth.pushSum workers bandwidth.producers ∧ i ≤ bandwidth.consumers ∧ pop = bandwidth.popSum workers i
  | .report push pop => (bandwidth.WritersGone workers bandwidth.producers ∧ bandwidth.ReadersGone workers bandwidth.consumers) ∧
      push = bandwidth.pushSum workers bandwidth.producers ∧ pop = bandwidth.popSum workers bandwidth.consumers
  | _ => True

structure Balanced (shared : BandwidthShared) (workers : Nat → Worker) (queue : Fifo Data config.size) : Prop where
  roles : ∀ thread, (workers thread).role = bandwidth.role thread
  pushes : ∑ thread ∈ Finset.range bandwidth.threads, (workers thread).pushed = BitVec.ofNat 64 queue.total
  pops : ∑ thread ∈ Finset.range bandwidth.threads, (workers thread).popped = BitVec.ofNat 64 queue.first
  active : shared.producersCounter = BitVec.ofNat 32 (∑ thread ∈ Finset.range bandwidth.threads, (workers thread).active)
  main : ∀ pc, workers 0 = .main pc → shared.state = pc.state ∧ bandwidth.Joined workers pc
  begun : ∀ thread, (workers thread).begun = true → 1 ≤ shared.state
  entered : 1 ≤ shared.state ∨ workers 0 = .main .begin → ∀ thread, (workers thread).entered = true
  closing : ∀ thread, (workers thread).closing = true → 3 ≤ shared.state
  alone : ∀ thread, (workers thread).alone = true → ∀ other, (workers other).left = true
  finished : ∀ thread, (workers thread).finished = true → queue.items = []
  saved : ∀ thread, (workers thread).Saved shared
  exited : ∀ thread, shared.exited thread = true → (workers thread).gone = true

theorem role_writer (thread id : Nat) (role : bandwidth.role thread = .writer id) :
    thread = bandwidth.writer id ∧ id < bandwidth.producers := by
  simp only [Bandwidth.role, Bandwidth.worker] at role
  split at role
  · cases role
  · split at role
    · cases role
      rename_i positive less
      exact ⟨by rw [Bandwidth.writer]; omega, by omega⟩
    · split at role <;> cases role

theorem role_reader (thread id : Nat) (role : bandwidth.role thread = .reader id) :
    thread = bandwidth.reader id ∧ id < bandwidth.consumers := by
  simp only [Bandwidth.role, Bandwidth.worker] at role
  split at role
  · cases role
  · split at role
    · cases role
    · split at role
      · cases role
        rename_i positive beyond less
        rw [Bandwidth.threads] at less
        exact ⟨by rw [Bandwidth.reader]; omega, by omega⟩
      · cases role

theorem role_main (thread : Nat) (role : bandwidth.role thread = .main) : thread = 0 := by
  simp only [Bandwidth.role, Bandwidth.worker] at role
  split at role
  · assumption
  · split at role
    · cases role
    · split at role <;> cases role

theorem role_place (thread : Nat) (role : bandwidth.role thread ≠ .nobody) : thread < bandwidth.threads := by
  by_contra beyond
  have past : thread ≠ 0 ∧ ¬ thread < 1 + bandwidth.producers := by
    rw [Bandwidth.threads] at beyond
    omega
  apply role
  rw [Bandwidth.role, Bandwidth.worker, if_neg past.1, if_neg past.2, if_neg beyond]
  rfl

theorem initial_cases (thread : Nat) : bandwidth.worker thread = .main (.startWriter 0) ∨
    (∃ id, bandwidth.worker thread = .writer id .enter 0) ∨ (∃ id, bandwidth.worker thread = .reader id .enter 0) ∨
      bandwidth.worker thread = .nobody := by
  rw [Bandwidth.worker]
  split_ifs
  · exact .inl rfl
  · exact .inr (.inl ⟨_, rfl⟩)
  · exact .inr (.inr (.inl ⟨_, rfl⟩))
  · exact .inr (.inr (.inr rfl))

theorem balanced_initial : Balanced bandwidth ⟨0, 0, 0, fun _ => 0, fun _ => 0, 0, 0, fun _ => false⟩ bandwidth.worker
    (Fifo.empty : Fifo Data config.size) where
  roles := fun _ => rfl
  pushes := Finset.sum_eq_zero fun thread _ => by
    rcases initial_cases bandwidth thread with here | ⟨id, here⟩ | ⟨id, here⟩ | here <;> rw [here] <;> rfl
  pops := Finset.sum_eq_zero fun thread _ => by
    rcases initial_cases bandwidth thread with here | ⟨id, here⟩ | ⟨id, here⟩ | here <;> rw [here] <;> rfl
  active := by
    have nothing : ∀ thread ∈ Finset.range bandwidth.threads, (bandwidth.worker thread).active = 0 := fun thread _ => by
      rcases initial_cases bandwidth thread with here | ⟨id, here⟩ | ⟨id, here⟩ | here <;> rw [here] <;> rfl
    rw [Finset.sum_eq_zero nothing]
    rfl
  main := by
    intro pc here
    cases here
    exact ⟨rfl, trivial⟩
  begun := by
    intro thread begun
    rcases initial_cases bandwidth thread with here | ⟨id, here⟩ | ⟨id, here⟩ | here <;> rw [here] at begun <;> cases begun
  entered := by
    intro opened
    rcases opened with state | here
    · exact absurd state (by simp)
    · cases here
  closing := by
    intro thread closing
    rcases initial_cases bandwidth thread with here | ⟨id, here⟩ | ⟨id, here⟩ | here <;> rw [here] at closing <;> cases closing
  alone := by
    intro thread alone
    rcases initial_cases bandwidth thread with here | ⟨id, here⟩ | ⟨id, here⟩ | here <;> rw [here] at alone <;> cases alone
  finished := fun _ _ => rfl
  saved := by
    intro thread
    rcases initial_cases bandwidth thread with here | ⟨id, here⟩ | ⟨id, here⟩ | here <;> rw [here] <;>
      first | trivial | exact fun stored => nomatch stored
  exited := fun _ nothing => nomatch nothing

theorem finished_alone (worker : Worker) (finished : worker.finished = true) : worker.alone = true := by
  cases worker with
  | reader id pc counter => cases pc <;> first | rfl | cases finished
  | _ => cases finished

theorem gone_update (workers : Nat → Worker) (thread : Nat) (after : Worker) (running : (workers thread).gone = false) (other : Nat)
    (gone : (workers other).gone = true) : Function.update workers thread after other = workers other := by
  refine Function.update_of_ne (fun same => ?_) _ _
  rw [same, running] at gone
  cases gone

-- What the main thread has joined stays as it is, whichever thread is still running.
theorem joined_update (workers : Nat → Worker) (thread : Nat) (after : Worker) (running : (workers thread).gone = false) (pc : RunPc)
    (joined : bandwidth.Joined workers pc) : bandwidth.Joined (Function.update workers thread after) pc := by
  have writers (count : Nat) (gone : bandwidth.WritersGone workers count) :
      bandwidth.WritersGone (Function.update workers thread after) count := fun i less => by
    rw [gone_update workers thread after running _ (gone i less)]
    exact gone i less
  have readers (count : Nat) (gone : bandwidth.ReadersGone workers count) :
      bandwidth.ReadersGone (Function.update workers thread after) count := fun i less => by
    rw [gone_update workers thread after running _ (gone i less)]
    exact gone i less
  have pushes (count : Nat) (bound : count ≤ bandwidth.producers) (gone : bandwidth.WritersGone workers bandwidth.producers) :
      bandwidth.pushSum (Function.update workers thread after) count = bandwidth.pushSum workers count :=
    Finset.sum_congr rfl fun i member => by
      rw [gone_update workers thread after running _ (gone i (Nat.lt_of_lt_of_le (Finset.mem_range.mp member) bound))]
  have pops (count : Nat) (bound : count ≤ bandwidth.consumers) (gone : bandwidth.ReadersGone workers bandwidth.consumers) :
      bandwidth.popSum (Function.update workers thread after) count = bandwidth.popSum workers count :=
    Finset.sum_congr rfl fun i member => by
      rw [gone_update workers thread after running _ (gone i (Nat.lt_of_lt_of_le (Finset.mem_range.mp member) bound))]
  cases pc with
  | joinWriter i => exact writers i joined
  | joinReader i => exact ⟨writers _ joined.1, readers i joined.2⟩
  | sumPush i push =>
      obtain ⟨gone, bound, total⟩ := joined
      exact ⟨⟨writers _ gone.1, readers _ gone.2⟩, bound, total.trans (pushes i bound gone.1).symm⟩
  | sumPop i push pop =>
      obtain ⟨gone, total, bound, also⟩ := joined
      exact ⟨⟨writers _ gone.1, readers _ gone.2⟩, total.trans (pushes _ (Nat.le_refl _) gone.1).symm, bound,
        also.trans (pops i bound gone.2).symm⟩
  | report push pop =>
      obtain ⟨gone, total, also⟩ := joined
      exact ⟨⟨writers _ gone.1, readers _ gone.2⟩, total.trans (pushes _ (Nat.le_refl _) gone.1).symm,
        also.trans (pops _ (Nat.le_refl _) gone.2).symm⟩
  | _ => trivial

variable (shared next : BandwidthShared) (workers : Nat → Worker) (queue rest : Fifo Data config.size) (thread : Nat) (after : Worker)

-- What one step of a thread has to show, alone or together with an operation on the queue.
structure WorkerMoves : Prop where
  role : after.role = (workers thread).role ∧ bandwidth.role thread ≠ .nobody
  running : (workers thread).gone = false
  pushes : BitVec.ofNat 64 rest.total + (workers thread).pushed = BitVec.ofNat 64 queue.total + after.pushed
  pops : BitVec.ofNat 64 rest.first + (workers thread).popped = BitVec.ofNat 64 queue.first + after.popped
  active : next.producersCounter + BitVec.ofNat 32 (workers thread).active = shared.producersCounter + BitVec.ofNat 32 after.active
  state : shared.state ≤ next.state ∧ (thread ≠ 0 → next.state = shared.state)
  main : ∀ pc, after = .main pc → next.state = pc.state ∧ bandwidth.Joined workers pc
  begun : after.begun = true → 1 ≤ next.state
  entered : (workers thread).entered = true → after.entered = true
  opened : thread = 0 → (1 ≤ next.state ∨ after = .main .begin) →
    (1 ≤ shared.state ∨ workers 0 = .main .begin) ∨ ∀ other, (workers other).entered = true
  closing : after.closing = true → 3 ≤ next.state
  left : (workers thread).left = true → after.left = true
  alone : after.alone = true → (workers thread).alone = true ∨ ∀ other, (workers other).left = true
  finished : after.finished = true → (workers thread).alone = true ∧ ((workers thread).finished = true ∨ queue.items = [])
  kept : (workers thread).left = true → queue.items = [] → rest.items = []
  saved : after.Saved next ∧ ∀ other, other ≠ thread → (workers other).Saved next
  exited : ∀ other, next.exited other = true → other = thread ∧ after.gone = true ∨ shared.exited other = true

theorem balanced_moves (balanced : Balanced bandwidth shared workers queue)
    (moves : WorkerMoves bandwidth shared next workers queue rest thread after) :
    Balanced bandwidth next (Function.update workers thread after) rest := by
  have place : thread ∈ Finset.range bandwidth.threads := Finset.mem_range.mpr (role_place bandwidth thread moves.role.2)
  have others (P : Worker → Prop) (own : P after) (each : ∀ other, other ≠ thread → P (workers other)) (other : Nat) :
      P (Function.update workers thread after other) := by
    by_cases same : other = thread
    · rw [same, Function.update_self]
      exact own
    · rw [Function.update_of_ne same]
      exact each other same
  have allLeft (all : ∀ other, (workers other).left = true) (other : Nat) : (Function.update workers thread after other).left = true :=
    others (fun worker => worker.left = true) (moves.left (all thread)) (fun other _ => all other) other
  refine ⟨?_, ?_, ?_, ?_, ?_, ?_, ?_, ?_, ?_, ?_, ?_, ?_⟩
  · intro other
    by_cases same : other = thread
    · rw [same, Function.update_self, moves.role.1]
      exact balanced.roles thread
    · rw [Function.update_of_ne same]
      exact balanced.roles other
  · have total := Service.total_update (Finset.range bandwidth.threads) Worker.pushed workers thread after place
    rw [balanced.pushes, ← moves.pushes] at total
    exact add_right_cancel total
  · have total := Service.total_update (Finset.range bandwidth.threads) Worker.popped workers thread after place
    rw [balanced.pops, ← moves.pops] at total
    exact add_right_cancel total
  · have total := Service.total_update (Finset.range bandwidth.threads) Worker.active workers thread after place
    have counted := moves.active
    rw [balanced.active, ← BitVec.ofNat_add, ← total, BitVec.ofNat_add] at counted
    exact add_right_cancel counted
  · intro pc here
    by_cases main : thread = 0
    · subst main
      rw [Function.update_self] at here
      obtain ⟨state, joined⟩ := moves.main pc here
      exact ⟨state, joined_update bandwidth workers 0 after moves.running pc joined⟩
    · rw [Function.update_of_ne (Ne.symm main)] at here
      obtain ⟨state, joined⟩ := balanced.main pc here
      exact ⟨(moves.state.2 main).trans state, joined_update bandwidth workers thread after moves.running pc joined⟩
  · exact others (fun worker => worker.begun = true → 1 ≤ next.state) moves.begun
      (fun other _ begun => Nat.le_trans (balanced.begun other begun) moves.state.1)
  · intro opened
    have all : ∀ other, (workers other).entered = true := by
      by_cases main : thread = 0
      · subst main
        rw [Function.update_self] at opened
        rcases moves.opened rfl opened with before | all
        · exact balanced.entered before
        · exact all
      · rw [Function.update_of_ne (Ne.symm main), moves.state.2 main] at opened
        exact balanced.entered opened
    exact others (fun worker => worker.entered = true) (moves.entered (all thread)) (fun other _ => all other)
  · exact others (fun worker => worker.closing = true → 3 ≤ next.state) moves.closing
      (fun other _ closing => Nat.le_trans (balanced.closing other closing) moves.state.1)
  · refine others (fun worker => worker.alone = true → ∀ other, (Function.update workers thread after other).left = true) ?_ ?_
    · intro alone
      rcases moves.alone alone with before | all
      · exact allLeft (balanced.alone thread before)
      · exact allLeft all
    · exact fun other _ alone => allLeft (balanced.alone other alone)
  · refine others (fun worker => worker.finished = true → rest.items = []) ?_ ?_
    · intro finished
      obtain ⟨alone, empty⟩ := moves.finished finished
      exact moves.kept (balanced.alone thread alone thread) (empty.elim (balanced.finished thread) id)
    · intro other _ finished
      have alone := finished_alone (workers other) finished
      exact moves.kept (balanced.alone other alone thread) (balanced.finished other finished)
  · exact others (fun worker => worker.Saved next) moves.saved.1 moves.saved.2
  · intro other exited
    rcases moves.exited other exited with ⟨same, gone⟩ | before
    · rw [same, Function.update_self]
      exact gone
    · have gone := balanced.exited other before
      rw [gone_update workers thread after moves.running other gone]
      exact gone

def WriterPc.active (pc : WriterPc) : Nat := if pc.entered && !pc.left then 1 else 0

theorem writer_moves (balanced : Balanced bandwidth shared workers queue) (id : Nat) (pc pc' : WriterPc) (counter counter' : BitVec 64)
    (here : workers thread = .writer id pc counter) (running : pc ≠ .gone)
    (pushes : BitVec.ofNat 64 rest.total + counter = BitVec.ofNat 64 queue.total + counter') (first : rest.first = queue.first)
    (active : next.producersCounter + BitVec.ofNat 32 pc.active = shared.producersCounter + BitVec.ofNat 32 pc'.active)
    (state : next.state = shared.state) (begun : pc'.begun = true → 1 ≤ shared.state)
    (forward : (pc.entered = true → pc'.entered = true) ∧ (pc.left = true → pc'.left = true))
    (kept : pc.left = true → queue.items = [] → rest.items = []) (saved : pc'.stored = true → next.pushCounter id = counter')
    (counters : (∀ other, other ≠ id → next.pushCounter other = shared.pushCounter other) ∧ next.popCounter = shared.popCounter)
    (exited : ∀ other, next.exited other = true → other = thread ∧ pc' = .gone ∨ shared.exited other = true) :
    WorkerMoves bandwidth shared next workers queue rest thread (.writer id pc' counter') := by
  have role : bandwidth.role thread = .writer id := by rw [← balanced.roles thread, here]; rfl
  have place := (role_writer bandwidth thread id role).1
  refine ⟨⟨by rw [here]; rfl, by rw [role]; exact Worker.Role.noConfusion⟩, ?_, by rw [here]; exact pushes, by rw [here, first]; rfl,
    by rw [here]; exact active, ⟨state.ge, fun _ => state⟩, (fun _ nothing => nomatch nothing), fun began => state ▸ begun began, ?_, ?_,
    (fun nothing => nomatch nothing), by rw [here]; exact forward.2, (fun nothing => nomatch nothing), (fun nothing => nomatch nothing),
    by rw [here]; exact kept, ⟨saved, ?_⟩, ?_⟩
  · rw [here]
    cases pc <;> first | rfl | exact absurd rfl running
  · rw [here]
    exact forward.1
  · intro main
    rw [place, Bandwidth.writer] at main
    omega
  · intro other apart
    have before := balanced.saved other
    have roles := balanced.roles other
    cases there : workers other with
    | writer j pc count =>
        rw [there] at before roles
        have different : j ≠ id := fun same => apart ((role_writer bandwidth other j roles.symm).1.trans (by rw [same, place]))
        exact fun stored => (counters.1 j different).trans (before stored)
    | reader j pc count =>
        rw [there] at before
        exact fun stored => (congrFun counters.2 j).trans (before stored)
    | _ => trivial
  · intro other left
    rcases exited other left with ⟨same, gone⟩ | before
    · exact .inl ⟨same, by rw [gone]; rfl⟩
    · exact .inr before

theorem reader_moves (balanced : Balanced bandwidth shared workers queue) (id : Nat) (pc pc' : ReaderPc) (counter counter' : BitVec 64)
    (here : workers thread = .reader id pc counter) (running : pc ≠ .gone)
    (pops : BitVec.ofNat 64 rest.first + counter = BitVec.ofNat 64 queue.first + counter') (total : rest.total = queue.total)
    (state : next.state = shared.state ∧ next.producersCounter = shared.producersCounter) (begun : pc'.begun = true → 1 ≤ shared.state)
    (closing : pc'.closing = true → 3 ≤ shared.state)
    (alone : pc'.alone = true → pc.alone = true ∨ ∀ other, (workers other).left = true)
    (finished : pc'.finished = true → pc.alone = true ∧ (pc.finished = true ∨ queue.items = []))
    (kept : queue.items = [] → rest.items = []) (saved : pc'.stored = true → next.popCounter id = counter')
    (counters : (∀ other, other ≠ id → next.popCounter other = shared.popCounter other) ∧ next.pushCounter = shared.pushCounter)
    (exited : ∀ other, next.exited other = true → other = thread ∧ pc' = .gone ∨ shared.exited other = true) :
    WorkerMoves bandwidth shared next workers queue rest thread (.reader id pc' counter') := by
  have role : bandwidth.role thread = .reader id := by rw [← balanced.roles thread, here]; rfl
  have place := (role_reader bandwidth thread id role).1
  refine ⟨⟨by rw [here]; rfl, by rw [role]; exact Worker.Role.noConfusion⟩, ?_, by rw [here, total]; rfl, by rw [here]; exact pops,
    by rw [here, state.2]; rfl, ⟨state.1.ge, fun _ => state.1⟩, (fun _ nothing => nomatch nothing), fun began => state.1 ▸ begun began,
    fun _ => rfl, ?_, fun closed => state.1 ▸ closing closed, fun _ => rfl, by rw [here]; exact alone, by rw [here]; exact finished,
    fun _ => kept, ⟨saved, ?_⟩, ?_⟩
  · rw [here]
    cases pc <;> first | rfl | exact absurd rfl running
  · intro main
    rw [place, Bandwidth.reader] at main
    omega
  · intro other apart
    have before := balanced.saved other
    have roles := balanced.roles other
    cases there : workers other with
    | writer j pc count =>
        rw [there] at before
        exact fun stored => (congrFun counters.2 j).trans (before stored)
    | reader j pc count =>
        rw [there] at before roles
        have different : j ≠ id := fun same => apart ((role_reader bandwidth other j roles.symm).1.trans (by rw [same, place]))
        exact fun stored => (counters.1 j different).trans (before stored)
    | _ => trivial
  · intro other left
    rcases exited other left with ⟨same, gone⟩ | before
    · exact .inl ⟨same, by rw [gone]; rfl⟩
    · exact .inr before

theorem writers_total {Weight : Type} [AddCommMonoid Weight] (weigh : Nat → Weight) (main : weigh 0 = 0)
    (readers : ∀ i < bandwidth.consumers, weigh (bandwidth.reader i) = 0) :
    ∑ thread ∈ Finset.range bandwidth.threads, weigh thread = ∑ i ∈ Finset.range bandwidth.producers, weigh (bandwidth.writer i) := by
  rw [Bandwidth.threads, Finset.sum_range_add, Finset.sum_range_add, Finset.sum_range_one, main, zero_add]
  have nothing : ∑ i ∈ Finset.range bandwidth.consumers, weigh (1 + bandwidth.producers + i) = 0 :=
    Finset.sum_eq_zero fun i member => readers i (Finset.mem_range.mp member)
  rw [nothing, add_zero]
  rfl

theorem readers_total {Weight : Type} [AddCommMonoid Weight] (weigh : Nat → Weight) (main : weigh 0 = 0)
    (writers : ∀ i < bandwidth.producers, weigh (bandwidth.writer i) = 0) :
    ∑ thread ∈ Finset.range bandwidth.threads, weigh thread = ∑ i ∈ Finset.range bandwidth.consumers, weigh (bandwidth.reader i) := by
  rw [Bandwidth.threads, Finset.sum_range_add, Finset.sum_range_add, Finset.sum_range_one, main, zero_add]
  have nothing : ∑ i ∈ Finset.range bandwidth.producers, weigh (1 + i) = 0 :=
    Finset.sum_eq_zero fun i member => writers i (Finset.mem_range.mp member)
  rw [nothing, zero_add]
  rfl

theorem main_role : bandwidth.role 0 = .main := rfl

theorem writer_role (i : Nat) (less : i < bandwidth.producers) : bandwidth.role (bandwidth.writer i) = .writer i := by
  rw [Bandwidth.role, Bandwidth.worker, Bandwidth.writer, if_neg (by omega), if_pos (by omega)]
  exact congrArg Worker.Role.writer (Nat.add_sub_cancel_left 1 i)

theorem reader_role (i : Nat) (less : i < bandwidth.consumers) : bandwidth.role (bandwidth.reader i) = .reader i := by
  rw [Bandwidth.role, Bandwidth.worker, Bandwidth.threads, Bandwidth.reader, if_neg (by omega), if_neg (by omega), if_pos (by omega)]
  exact congrArg Worker.Role.reader (Nat.add_sub_cancel_left _ i)

theorem active_other (worker : Worker) (role : ∀ id, worker.role ≠ .writer id) : worker.active = 0 := by
  cases worker with
  | writer id pc counter => exact absurd rfl (role id)
  | _ => rfl

-- _producers_counter is the number of writers that have entered and not left, without wrapping.
theorem producers_counter (balanced : Balanced bandwidth shared workers queue) :
    shared.producersCounter.toNat = ∑ i ∈ Finset.range bandwidth.producers, (workers (bandwidth.writer i)).active ∧
      ∀ i, (workers (bandwidth.writer i)).active ≤ 1 := by
  have single (worker : Worker) : worker.active ≤ 1 := by
    cases worker with
    | writer id pc counter => rw [Worker.active]; split <;> omega
    | _ => exact Nat.zero_le 1
  have total := writers_total bandwidth (fun thread => (workers thread).active)
    (active_other _ fun id role => by rw [balanced.roles 0, main_role] at role; cases role)
    (fun i less => active_other _ fun id role => by rw [balanced.roles, reader_role bandwidth i less] at role; cases role)
  have bound := Finset.sum_le_sum fun i (_ : i ∈ Finset.range bandwidth.producers) => single (workers (bandwidth.writer i))
  rw [← Finset.card_eq_sum_ones, Finset.card_range] at bound
  rw [balanced.active, total, BitVec.toNat_ofNat, Nat.mod_eq_of_lt (Nat.lt_of_le_of_lt bound bandwidth.producers_fit)]
  exact ⟨rfl, fun i => single _⟩

theorem writer_place (balanced : Balanced bandwidth shared workers queue) (other id : Nat) (pc : WriterPc) (counter : BitVec 64)
    (there : workers other = .writer id pc counter) : other = bandwidth.writer id ∧ id < bandwidth.producers := by
  refine role_writer bandwidth other id ?_
  rw [← balanced.roles other, there]
  rfl

-- Once the run has begun, a reader that sees _producers_counter at 0 sees that no writer pushes any more.
theorem all_left (balanced : Balanced bandwidth shared workers queue) (began : 1 ≤ shared.state) (none : shared.producersCounter = 0)
    (other : Nat) : (workers other).left = true := by
  have counted := (producers_counter bandwidth shared workers queue balanced).1
  have entered := balanced.entered (.inl began) other
  rw [none, eq_comm] at counted
  cases there : workers other with
  | writer id pc counter =>
      obtain ⟨place, less⟩ := writer_place bandwidth shared workers queue balanced other id pc counter there
      have inactive := Finset.sum_eq_zero_iff.mp counted id (Finset.mem_range.mpr less)
      rw [← place, there] at inactive
      rw [there] at entered
      cases pc <;> first | rfl | exact absurd inactive Nat.one_ne_zero | cases entered
  | _ => rfl

-- The main thread begins the run when it has seen every writer enter.
theorem all_entered (balanced : Balanced bandwidth shared workers queue) (full : ¬ shared.producersCounter.toNat < bandwidth.producers)
    (other : Nat) : (workers other).entered = true := by
  obtain ⟨counted, single⟩ := producers_counter bandwidth shared workers queue balanced
  cases there : workers other with
  | writer id pc counter =>
      obtain ⟨place, less⟩ := writer_place bandwidth shared workers queue balanced other id pc counter there
      by_contra outside
      have idle : (workers (bandwidth.writer id)).active < 1 := by
        rw [← place, there]
        cases pc <;> first | exact Nat.zero_lt_one | exact absurd rfl outside
      have fewer := Finset.sum_lt_sum (fun i (_ : i ∈ Finset.range bandwidth.producers) => single i)
        ⟨id, Finset.mem_range.mpr less, idle⟩
      rw [← Finset.card_eq_sum_ones, Finset.card_range, ← counted] at fewer
      exact full fewer
  | _ => rfl

theorem exited_same (pc : Prop) (other : Nat) (before : shared.exited other = true) : other = thread ∧ pc ∨ shared.exited other = true :=
  .inr before

theorem exited_own (pc : Prop) (gone : pc) (other : Nat) (after : Function.update shared.exited thread true other = true) :
    other = thread ∧ pc ∨ shared.exited other = true := by
  by_cases same : other = thread
  · exact .inl ⟨same, gone⟩
  · rw [Function.update_of_ne same] at after
    exact .inr after

theorem write_moves (balanced : Balanced bandwidth shared workers queue) (i : Nat) (pc pc' : WriterPc) (counter : BitVec 64)
    (here : workers thread = .writer i pc counter) (stepped : bandwidth.write shared i counter pc = some (next, pc')) :
    WorkerMoves bandwidth shared next workers queue queue thread (.writer i pc' counter) := by
  have begun := balanced.begun thread
  have saved := balanced.saved thread
  rw [here] at begun saved
  cases pc with
  | enter =>
      obtain ⟨_, result⟩ := Option.ite_none_right_eq_some.mp stepped
      cases result
      exact writer_moves bandwidth shared _ workers queue queue thread balanced i .enter .wait counter counter here
        WriterPc.noConfusion rfl rfl (add_zero _) rfl (fun nothing => nomatch nothing) ⟨fun _ => rfl, fun nothing => nomatch nothing⟩
        (fun _ => id) (fun nothing => nomatch nothing) ⟨fun _ _ => rfl, rfl⟩ (exited_same shared thread _)
  | wait =>
      cases stepped
      by_cases early : shared.state < 1
      · rw [if_pos early]
        exact writer_moves bandwidth shared _ workers queue queue thread balanced i .wait .wait counter counter here
          WriterPc.noConfusion rfl rfl rfl rfl (fun nothing => nomatch nothing) ⟨fun _ => rfl, fun nothing => nomatch nothing⟩
          (fun _ => id) (fun nothing => nomatch nothing) ⟨fun _ _ => rfl, rfl⟩ (exited_same shared thread _)
      · rw [if_neg early]
        exact writer_moves bandwidth shared _ workers queue queue thread balanced i .wait .test counter counter here
          WriterPc.noConfusion rfl rfl rfl rfl (fun _ => Nat.le_of_not_lt early) ⟨fun _ => rfl, fun nothing => nomatch nothing⟩
          (fun _ => id) (fun nothing => nomatch nothing) ⟨fun _ _ => rfl, rfl⟩ (exited_same shared thread _)
  | test =>
      cases stepped
      by_cases running : shared.state = 1
      · rw [if_pos running]
        exact writer_moves bandwidth shared _ workers queue queue thread balanced i .test .push counter counter here
          WriterPc.noConfusion rfl rfl rfl rfl (fun _ => begun rfl) ⟨fun _ => rfl, fun nothing => nomatch nothing⟩
          (fun _ => id) (fun nothing => nomatch nothing) ⟨fun _ _ => rfl, rfl⟩ (exited_same shared thread _)
      · rw [if_neg running]
        exact writer_moves bandwidth shared _ workers queue queue thread balanced i .test .store counter counter here
          WriterPc.noConfusion rfl rfl rfl rfl (fun _ => begun rfl) ⟨fun _ => rfl, fun nothing => nomatch nothing⟩
          (fun _ => id) (fun nothing => nomatch nothing) ⟨fun _ _ => rfl, rfl⟩ (exited_same shared thread _)
  | store =>
      cases stepped
      exact writer_moves bandwidth shared _ workers queue queue thread balanced i .store .leave counter counter here
        WriterPc.noConfusion rfl rfl rfl rfl (fun _ => begun rfl) ⟨fun _ => rfl, fun nothing => nomatch nothing⟩
        (fun _ => id) (fun _ => Function.update_self _ _ _) ⟨fun other apart => Function.update_of_ne apart _ _, rfl⟩
        (exited_same shared thread _)
  | leave =>
      cases stepped
      exact writer_moves bandwidth shared _ workers queue queue thread balanced i .leave .exit counter counter here
        WriterPc.noConfusion rfl rfl ((sub_add_cancel _ _).trans (add_zero _).symm) rfl (fun _ => begun rfl)
        ⟨fun _ => rfl, fun nothing => nomatch nothing⟩ (fun _ => id) (fun _ => saved rfl) ⟨fun _ _ => rfl, rfl⟩
        (exited_same shared thread _)
  | exit =>
      cases stepped
      have place := (role_writer bandwidth thread i (by rw [← balanced.roles thread, here]; rfl)).1
      rw [← place]
      exact writer_moves bandwidth shared _ workers queue queue thread balanced i .exit .gone counter counter here
        WriterPc.noConfusion rfl rfl rfl rfl (fun _ => begun rfl) ⟨fun _ => rfl, fun _ => rfl⟩ (fun _ => id) (fun _ => saved rfl)
        ⟨fun _ _ => rfl, rfl⟩ (exited_own shared thread _ rfl)
  | push => cases stepped
  | gone => cases stepped

theorem read_moves (balanced : Balanced bandwidth shared workers queue) (i : Nat) (pc pc' : ReaderPc) (counter : BitVec 64)
    (here : workers thread = .reader i pc counter) (stepped : bandwidth.read shared i counter pc = some (next, pc')) :
    WorkerMoves bandwidth shared next workers queue queue thread (.reader i pc' counter) := by
  have begun := balanced.begun thread
  have closing := balanced.closing thread
  have saved := balanced.saved thread
  rw [here] at begun closing saved
  cases pc with
  | enter =>
      obtain ⟨_, result⟩ := Option.ite_none_right_eq_some.mp stepped
      cases result
      exact reader_moves bandwidth shared _ workers queue queue thread balanced i .enter .wait counter counter here
        ReaderPc.noConfusion rfl rfl ⟨rfl, rfl⟩ (fun nothing => nomatch nothing) (fun nothing => nomatch nothing)
        (fun nothing => nomatch nothing) (fun nothing => nomatch nothing) id (fun nothing => nomatch nothing) ⟨fun _ _ => rfl, rfl⟩
        (exited_same shared thread _)
  | wait =>
      cases stepped
      by_cases early : shared.state < 1
      · rw [if_pos early]
        exact reader_moves bandwidth shared _ workers queue queue thread balanced i .wait .wait counter counter here
          ReaderPc.noConfusion rfl rfl ⟨rfl, rfl⟩ (fun nothing => nomatch nothing) (fun nothing => nomatch nothing)
          (fun nothing => nomatch nothing) (fun nothing => nomatch nothing) id (fun nothing => nomatch nothing) ⟨fun _ _ => rfl, rfl⟩
          (exited_same shared thread _)
      · rw [if_neg early]
        exact reader_moves bandwidth shared _ workers queue queue thread balanced i .wait .testState counter counter here
          ReaderPc.noConfusion rfl rfl ⟨rfl, rfl⟩ (fun _ => Nat.le_of_not_lt early) (fun nothing => nomatch nothing)
          (fun nothing => nomatch nothing) (fun nothing => nomatch nothing) id (fun nothing => nomatch nothing) ⟨fun _ _ => rfl, rfl⟩
          (exited_same shared thread _)
  | testState =>
      cases stepped
      by_cases running : shared.state < 3
      · rw [if_pos running]
        exact reader_moves bandwidth shared _ workers queue queue thread balanced i .testState .drain counter counter here
          ReaderPc.noConfusion rfl rfl ⟨rfl, rfl⟩ (fun _ => begun rfl) (fun nothing => nomatch nothing)
          (fun nothing => nomatch nothing) (fun nothing => nomatch nothing) id (fun nothing => nomatch nothing) ⟨fun _ _ => rfl, rfl⟩
          (exited_same shared thread _)
      · rw [if_neg running]
        exact reader_moves bandwidth shared _ workers queue queue thread balanced i .testState .testProducers counter counter here
          ReaderPc.noConfusion rfl rfl ⟨rfl, rfl⟩ (fun _ => begun rfl) (fun _ => Nat.le_of_not_lt running)
          (fun nothing => nomatch nothing) (fun nothing => nomatch nothing) id (fun nothing => nomatch nothing) ⟨fun _ _ => rfl, rfl⟩
          (exited_same shared thread _)
  | testProducers =>
      cases stepped
      by_cases some : shared.producersCounter ≠ 0
      · rw [if_pos some]
        exact reader_moves bandwidth shared _ workers queue queue thread balanced i .testProducers .drain counter counter here
          ReaderPc.noConfusion rfl rfl ⟨rfl, rfl⟩ (fun _ => begun rfl) (fun nothing => nomatch nothing)
          (fun nothing => nomatch nothing) (fun nothing => nomatch nothing) id (fun nothing => nomatch nothing) ⟨fun _ _ => rfl, rfl⟩
          (exited_same shared thread _)
      · rw [if_neg some]
        have left := all_left bandwidth shared workers queue balanced (begun rfl) (not_not.mp some)
        exact reader_moves bandwidth shared _ workers queue queue thread balanced i .testProducers .testEmpty counter counter here
          ReaderPc.noConfusion rfl rfl ⟨rfl, rfl⟩ (fun _ => begun rfl) (fun _ => closing rfl) (fun _ => .inr left)
          (fun nothing => nomatch nothing) id (fun nothing => nomatch nothing) ⟨fun _ _ => rfl, rfl⟩ (exited_same shared thread _)
  | store =>
      cases stepped
      exact reader_moves bandwidth shared _ workers queue queue thread balanced i .store .leave counter counter here
        ReaderPc.noConfusion rfl rfl ⟨rfl, rfl⟩ (fun _ => begun rfl) (fun _ => closing rfl) (fun _ => .inl rfl) (fun _ => ⟨rfl, .inl rfl⟩)
        id (fun _ => Function.update_self _ _ _) ⟨fun other apart => Function.update_of_ne apart _ _, rfl⟩ (exited_same shared thread _)
  | leave =>
      cases stepped
      exact reader_moves bandwidth shared _ workers queue queue thread balanced i .leave .exit counter counter here
        ReaderPc.noConfusion rfl rfl ⟨rfl, rfl⟩ (fun _ => begun rfl) (fun _ => closing rfl) (fun _ => .inl rfl) (fun _ => ⟨rfl, .inl rfl⟩)
        id (fun _ => saved rfl) ⟨fun _ _ => rfl, rfl⟩ (exited_same shared thread _)
  | exit =>
      cases stepped
      have place := (role_reader bandwidth thread i (by rw [← balanced.roles thread, here]; rfl)).1
      rw [← place]
      exact reader_moves bandwidth shared _ workers queue queue thread balanced i .exit .gone counter counter here
        ReaderPc.noConfusion rfl rfl ⟨rfl, rfl⟩ (fun _ => begun rfl) (fun _ => closing rfl) (fun _ => .inl rfl) (fun _ => ⟨rfl, .inl rfl⟩)
        id (fun _ => saved rfl) ⟨fun _ _ => rfl, rfl⟩ (exited_own shared thread _ rfl)
  | testEmpty => cases stepped
  | drain => cases stepped
  | gone => cases stepped

theorem run_moves (pc pc' : RunPc) (here : workers 0 = .main pc)
    (state : next.state = pc'.state ∧ shared.state ≤ next.state) (joined : bandwidth.Joined workers pc')
    (opened : 1 ≤ next.state ∨ pc' = .begin → (1 ≤ shared.state ∨ pc = .begin) ∨ ∀ other, (workers other).entered = true)
    (frame : next.producersCounter = shared.producersCounter ∧ next.exited = shared.exited)
    (saved : ∀ other, other ≠ 0 → (workers other).Saved next) :
    WorkerMoves bandwidth shared next workers queue queue 0 (.main pc') := by
  refine ⟨⟨by rw [here]; rfl, Worker.Role.noConfusion⟩, by rw [here]; rfl, by rw [here]; rfl, by rw [here]; rfl,
    by rw [here, frame.1]; rfl, ⟨state.2, fun apart => absurd rfl apart⟩, ?_, (fun nothing => nomatch nothing), fun _ => rfl, ?_,
    (fun nothing => nomatch nothing), fun _ => rfl, (fun nothing => nomatch nothing), (fun nothing => nomatch nothing), fun _ => id,
    ⟨trivial, saved⟩, ?_⟩
  · intro other same
    cases same
    exact ⟨state.1, joined⟩
  · intro _ before
    have same : 1 ≤ next.state ∨ pc' = .begin := before.imp_right Worker.main.inj
    rcases opened same with (began | begin) | all
    · exact .inl (.inl began)
    · exact .inl (.inr (by rw [here, begin]))
    · exact .inr all
  · rw [frame.2]
    exact fun _ => .inr

theorem stored_begun (worker : Worker) (shared : BandwidthShared) (idle : worker.begun = false) : worker.Saved shared := by
  cases worker with
  | writer id pc counter => cases pc <;> first | (cases idle; done) | (intro stored; cases stored)
  | reader id pc counter => cases pc <;> first | (cases idle; done) | (intro stored; cases stored)
  | _ => trivial

theorem gone_writer (balanced : Balanced bandwidth shared workers queue) (i : Nat) (less : i < bandwidth.producers)
    (gone : (workers (bandwidth.writer i)).gone = true) : shared.pushCounter i = (workers (bandwidth.writer i)).pushed := by
  have role := (balanced.roles (bandwidth.writer i)).trans (writer_role bandwidth i less)
  have saved := balanced.saved (bandwidth.writer i)
  cases there : workers (bandwidth.writer i) with
  | writer id pc counter =>
      rw [there] at role gone saved
      cases role
      cases pc <;> first | exact saved rfl | cases gone
  | _ => rw [there] at role; cases role

theorem gone_reader (balanced : Balanced bandwidth shared workers queue) (i : Nat) (less : i < bandwidth.consumers)
    (gone : (workers (bandwidth.reader i)).gone = true) : shared.popCounter i = (workers (bandwidth.reader i)).popped := by
  have role := (balanced.roles (bandwidth.reader i)).trans (reader_role bandwidth i less)
  have saved := balanced.saved (bandwidth.reader i)
  cases there : workers (bandwidth.reader i) with
  | reader id pc counter =>
      rw [there] at role gone saved
      cases role
      cases pc <;> first | exact saved rfl | cases gone
  | _ => rw [there] at role; cases role

-- A step that only moves the main thread on, with the joins and sums it has made so far.
theorem run_quiet (balanced : Balanced bandwidth shared workers queue) (pc pc' : RunPc) (here : workers 0 = .main pc)
    (state : pc'.state = pc.state) (joined : bandwidth.Joined workers pc')
    (opened : pc' = .begin → ∀ other, (workers other).entered = true) :
    WorkerMoves bandwidth shared shared workers queue queue 0 (.main pc') := by
  have same := (balanced.main pc here).1
  refine run_moves bandwidth shared shared workers queue pc pc' here ⟨same.trans state.symm, Nat.le_refl _⟩ joined ?_ ⟨rfl, rfl⟩
    (fun other _ => balanced.saved other)
  rintro (began | begin)
  · exact .inl (.inl began)
  · exact .inr (opened begin)

theorem run_state (balanced : Balanced bandwidth shared workers queue) (pc pc' : RunPc) (here : workers 0 = .main pc)
    (below : pc.state ≤ pc'.state) (joined : bandwidth.Joined workers pc') (started : 1 ≤ pc.state ∨ pc = .begin) :
    WorkerMoves bandwidth shared { shared with state := pc'.state } workers queue queue 0 (.main pc') := by
  have same := (balanced.main pc here).1
  refine run_moves bandwidth shared _ workers queue pc pc' here ⟨rfl, same ▸ below⟩ joined ?_ ⟨rfl, rfl⟩ ?_
  · exact fun _ => .inl (by rw [same]; exact started)
  · intro other _
    have before := balanced.saved other
    cases there : workers other <;> rw [there] at before <;> exact before

theorem run_clear (balanced : Balanced bandwidth shared workers queue) (pc pc' : RunPc) (here : workers 0 = .main pc)
    (state : pc.state = 0 ∧ pc'.state = 0) (joined : bandwidth.Joined workers pc') (calm : pc' ≠ .begin)
    (frame : next.state = shared.state ∧ next.producersCounter = shared.producersCounter ∧ next.exited = shared.exited) :
    WorkerMoves bandwidth shared next workers queue queue 0 (.main pc') := by
  have zero := (balanced.main pc here).1.trans state.1
  refine run_moves bandwidth shared next workers queue pc pc' here ⟨frame.1.trans (zero.trans state.2.symm), frame.1.ge⟩ joined ?_
    frame.2 (fun other _ => stored_begun _ _ ?_)
  · rintro (began | begin)
    · rw [frame.1, zero] at began
      omega
    · exact absurd begin calm
  · by_contra begun
    have began := balanced.begun other (Bool.not_eq_false _ ▸ begun)
    omega

theorem main_moves (balanced : Balanced bandwidth shared workers queue) (late : Bool) (pc pc' : RunPc) (here : workers 0 = .main pc)
    (stepped : bandwidth.main shared late pc = some (next, pc')) :
    WorkerMoves bandwidth shared next workers queue queue 0 (.main pc') := by
  obtain ⟨_, joined⟩ := balanced.main pc here
  cases pc with
  | startWriter i =>
      simp only [Bandwidth.main] at stepped
      split at stepped <;> cases stepped
      · exact run_clear bandwidth shared _ workers queue balanced _ _ here ⟨rfl, rfl⟩ trivial RunPc.noConfusion ⟨rfl, rfl, rfl⟩
      · exact run_quiet bandwidth shared workers queue balanced _ _ here rfl trivial (fun nothing => nomatch nothing)
  | startReader i =>
      simp only [Bandwidth.main] at stepped
      split at stepped <;> cases stepped
      · exact run_clear bandwidth shared _ workers queue balanced _ _ here ⟨rfl, rfl⟩ trivial RunPc.noConfusion ⟨rfl, rfl, rfl⟩
      · exact run_quiet bandwidth shared workers queue balanced _ _ here rfl trivial (fun nothing => nomatch nothing)
  | clearPush i =>
      simp only [Bandwidth.main] at stepped
      split at stepped <;> cases stepped
      · exact run_clear bandwidth shared _ workers queue balanced _ _ here ⟨rfl, rfl⟩ trivial RunPc.noConfusion ⟨rfl, rfl, rfl⟩
      · exact run_quiet bandwidth shared workers queue balanced _ _ here rfl trivial (fun nothing => nomatch nothing)
  | clearPop i =>
      simp only [Bandwidth.main] at stepped
      split at stepped <;> cases stepped
      · exact run_clear bandwidth shared _ workers queue balanced _ _ here ⟨rfl, rfl⟩ trivial RunPc.noConfusion ⟨rfl, rfl, rfl⟩
      · exact run_quiet bandwidth shared workers queue balanced _ _ here rfl trivial (fun nothing => nomatch nothing)
  | gatherConsumers =>
      cases stepped
      split
      · exact run_quiet bandwidth shared workers queue balanced _ _ here rfl trivial (fun nothing => nomatch nothing)
      · exact run_quiet bandwidth shared workers queue balanced _ _ here rfl trivial (fun nothing => nomatch nothing)
  | gatherProducers =>
      cases stepped
      split
      · exact run_quiet bandwidth shared workers queue balanced _ _ here rfl trivial (fun nothing => nomatch nothing)
      · rename_i full
        exact run_quiet bandwidth shared workers queue balanced _ _ here rfl trivial
          (fun _ => all_entered bandwidth shared workers queue balanced full)
  | begin =>
      cases stepped
      exact run_state bandwidth shared workers queue balanced .begin .close here (Nat.zero_le 1) trivial (.inr rfl)
  | close =>
      cases stepped
      exact run_state bandwidth shared workers queue balanced .close .awaitProducers here (Nat.le_succ 1) trivial
        (.inl (Nat.le_refl 1))
  | awaitProducers =>
      cases stepped
      split
      · exact run_quiet bandwidth shared workers queue balanced _ _ here rfl trivial (fun nothing => nomatch nothing)
      · exact run_quiet bandwidth shared workers queue balanced _ _ here rfl trivial (fun nothing => nomatch nothing)
  | finish =>
      cases stepped
      exact run_state bandwidth shared workers queue balanced .finish .awaitConsumers here (by decide) trivial
        (.inl (by decide))
  | awaitConsumers =>
      cases stepped
      split
      · exact run_quiet bandwidth shared workers queue balanced _ _ here rfl (fun i less => absurd less (Nat.not_lt_zero i))
          (fun nothing => nomatch nothing)
      · split
        · exact run_quiet bandwidth shared workers queue balanced _ _ here rfl trivial (fun nothing => nomatch nothing)
        · exact run_quiet bandwidth shared workers queue balanced _ _ here rfl trivial (fun nothing => nomatch nothing)
  | joinWriter i =>
      simp only [Bandwidth.main] at stepped
      split at stepped
      · obtain ⟨exited, result⟩ := Option.ite_none_right_eq_some.mp stepped
        cases result
        refine run_quiet bandwidth shared workers queue balanced _ _ here rfl (fun j less => ?_) (fun nothing => nomatch nothing)
        rcases Nat.lt_succ_iff_lt_or_eq.mp less with before | rfl
        · exact joined j before
        · exact balanced.exited _ exited
      · rename_i all
        cases stepped
        exact run_quiet bandwidth shared workers queue balanced _ _ here rfl
          ⟨fun j less => joined j (by omega), fun j less => absurd less (Nat.not_lt_zero j)⟩ (fun nothing => nomatch nothing)
  | joinReader i =>
      simp only [Bandwidth.main] at stepped
      split at stepped
      · obtain ⟨exited, result⟩ := Option.ite_none_right_eq_some.mp stepped
        cases result
        refine run_quiet bandwidth shared workers queue balanced _ _ here rfl ⟨joined.1, fun j less => ?_⟩ (fun nothing => nomatch nothing)
        rcases Nat.lt_succ_iff_lt_or_eq.mp less with before | rfl
        · exact joined.2 j before
        · exact balanced.exited _ exited
      · rename_i all
        cases stepped
        exact run_quiet bandwidth shared workers queue balanced _ _ here rfl
          ⟨⟨joined.1, fun j less => joined.2 j (by omega)⟩, Nat.zero_le _, rfl⟩ (fun nothing => nomatch nothing)
  | sumPush i push =>
      obtain ⟨gone, bound, total⟩ := joined
      cases stepped
      split
      · rename_i more
        refine run_quiet bandwidth shared workers queue balanced _ _ here rfl ⟨gone, more, ?_⟩ (fun nothing => nomatch nothing)
        rw [total, gone_writer bandwidth shared workers queue balanced i more (gone.1 i more)]
        exact (Finset.sum_range_succ _ i).symm
      · have last : i = bandwidth.producers := by omega
        subst last
        exact run_quiet bandwidth shared workers queue balanced _ _ here rfl ⟨gone, total, Nat.zero_le _, rfl⟩
          (fun nothing => nomatch nothing)
  | sumPop i push pop =>
      obtain ⟨gone, pushes, bound, total⟩ := joined
      cases stepped
      split
      · rename_i more
        refine run_quiet bandwidth shared workers queue balanced _ _ here rfl ⟨gone, pushes, more, ?_⟩ (fun nothing => nomatch nothing)
        rw [total, gone_reader bandwidth shared workers queue balanced i more (gone.2 i more)]
        exact (Finset.sum_range_succ _ i).symm
      · have last : i = bandwidth.consumers := by omega
        subst last
        exact run_quiet bandwidth shared workers queue balanced _ _ here rfl ⟨gone, pushes, total⟩ (fun nothing => nomatch nothing)
  | report push pop => cases stepped
  | abort => cases stepped

theorem pop_empty (none : queue.pop? = none) : queue.items = [] := by
  by_contra held
  obtain ⟨value, rest, popped⟩ := Fifo.pop_held queue held
  rw [none] at popped
  cases popped

theorem push_moves (balanced : Balanced bandwidth shared workers queue) (i : Nat) (counter : BitVec 64) (d : Data)
    (here : workers thread = .writer i .push counter) :
    match queue.push? d with
    | some rest => WorkerMoves bandwidth shared shared workers queue rest thread (.writer i .test (counter + 1))
    | none => WorkerMoves bandwidth shared shared workers queue queue thread (.writer i .test counter) := by
  have begun := balanced.begun thread
  rw [here] at begun
  cases stored : queue.push? d with
  | none =>
      exact writer_moves bandwidth shared shared workers queue queue thread balanced i .push .test counter counter here
        WriterPc.noConfusion rfl rfl rfl rfl (fun _ => begun rfl) ⟨fun _ => rfl, fun nothing => nomatch nothing⟩
        (fun nothing => nomatch nothing) (fun nothing => nomatch nothing) ⟨fun _ _ => rfl, rfl⟩ (exited_same shared thread _)
  | some rest =>
      refine writer_moves bandwidth shared shared workers queue rest thread balanced i .push .test counter (counter + 1) here
        WriterPc.noConfusion ?_ (Fifo.push_items queue rest d stored).2.1 rfl rfl (fun _ => begun rfl)
        ⟨fun _ => rfl, fun nothing => nomatch nothing⟩ (fun nothing => nomatch nothing) (fun nothing => nomatch nothing)
        ⟨fun _ _ => rfl, rfl⟩ (exited_same shared thread _)
      rw [Fifo.push_total queue rest d stored, BitVec.ofNat_add, add_assoc, add_comm counter]
      rfl

theorem pop_moves (balanced : Balanced bandwidth shared workers queue) (i : Nat) (counter : BitVec 64)
    (here : workers thread = .reader i .drain counter) :
    match queue.pop? with
    | some (_, rest) => WorkerMoves bandwidth shared shared workers queue rest thread (.reader i .drain (counter + 1))
    | none => WorkerMoves bandwidth shared shared workers queue queue thread (.reader i .testState counter) := by
  have begun := balanced.begun thread
  rw [here] at begun
  cases popped : queue.pop? with
  | none =>
      exact reader_moves bandwidth shared shared workers queue queue thread balanced i .drain .testState counter counter here
        ReaderPc.noConfusion rfl rfl ⟨rfl, rfl⟩ (fun _ => begun rfl) (fun nothing => nomatch nothing) (fun nothing => nomatch nothing)
        (fun nothing => nomatch nothing) id (fun nothing => nomatch nothing) ⟨fun _ _ => rfl, rfl⟩ (exited_same shared thread _)
  | some pair =>
      obtain ⟨items, first⟩ := Fifo.pop_items queue pair.2 pair.1 popped
      refine reader_moves bandwidth shared shared workers queue pair.2 thread balanced i .drain .drain counter (counter + 1) here
        ReaderPc.noConfusion ?_ (Fifo.pop_total queue pair.2 pair.1 popped) ⟨rfl, rfl⟩ (fun _ => begun rfl)
        (fun nothing => nomatch nothing) (fun nothing => nomatch nothing) (fun nothing => nomatch nothing) ?_
        (fun nothing => nomatch nothing) ⟨fun _ _ => rfl, rfl⟩ (exited_same shared thread _)
      · rw [first, BitVec.ofNat_add, add_assoc, add_comm counter]
        rfl
      · intro empty
        rw [items] at empty
        cases empty

-- empty() may return false of an empty queue, and then the reader only looks again.
theorem empty_moves (balanced : Balanced bandwidth shared workers queue) (i : Nat) (counter : BitVec 64)
    (here : workers thread = .reader i .testEmpty counter) :
    WorkerMoves bandwidth shared shared workers queue queue thread (.reader i .drain counter) ∧
      (queue.pop? = none → WorkerMoves bandwidth shared shared workers queue queue thread (.reader i .store counter)) := by
  have begun := balanced.begun thread
  have closing := balanced.closing thread
  rw [here] at begun closing
  refine ⟨?_, fun none => ?_⟩
  · exact reader_moves bandwidth shared shared workers queue queue thread balanced i .testEmpty .drain counter counter here
      ReaderPc.noConfusion rfl rfl ⟨rfl, rfl⟩ (fun _ => begun rfl) (fun nothing => nomatch nothing) (fun nothing => nomatch nothing)
      (fun nothing => nomatch nothing) id (fun nothing => nomatch nothing) ⟨fun _ _ => rfl, rfl⟩ (exited_same shared thread _)
  · exact reader_moves bandwidth shared shared workers queue queue thread balanced i .testEmpty .store counter counter here
      ReaderPc.noConfusion rfl rfl ⟨rfl, rfl⟩ (fun _ => begun rfl) (fun _ => closing rfl) (fun _ => .inl rfl)
      (fun _ => ⟨rfl, .inr (pop_empty queue none)⟩) id (fun nothing => nomatch nothing) ⟨fun _ _ => rfl, rfl⟩
      (exited_same shared thread _)

-- The sums that the report prints, as counts of the queue's elements.
theorem reported_counts (shared : BandwidthShared) (workers : Nat → Worker) (queue : Fifo Data config.size)
    (balanced : Balanced bandwidth shared workers queue) (push pop : BitVec 64) (here : workers 0 = .main (.report push pop)) :
    push = BitVec.ofNat 64 queue.total ∧ pop = BitVec.ofNat 64 queue.first ∧ (0 < bandwidth.consumers → queue.items = []) := by
  obtain ⟨_, gone, pushes, pops⟩ := balanced.main _ here
  have writers := writers_total bandwidth (fun thread => (workers thread).pushed) (by rw [here]; rfl) (fun i less => by
    have role := (balanced.roles (bandwidth.reader i)).trans (reader_role bandwidth i less)
    cases there : workers (bandwidth.reader i) with
    | writer id pc counter => rw [there] at role; cases role
    | _ => rfl)
  have readers := readers_total bandwidth (fun thread => (workers thread).popped) (by rw [here]; rfl) (fun i less => by
    have role := (balanced.roles (bandwidth.writer i)).trans (writer_role bandwidth i less)
    cases there : workers (bandwidth.writer i) with
    | reader id pc counter => rw [there] at role; cases role
    | _ => rfl)
  refine ⟨pushes.trans (writers.symm.trans balanced.pushes), pops.trans (readers.symm.trans balanced.pops), fun some => ?_⟩
  have last := gone.2 0 some
  refine balanced.finished (bandwidth.reader 0) ?_
  have role := (balanced.roles (bandwidth.reader 0)).trans (reader_role bandwidth 0 some)
  cases there : workers (bandwidth.reader 0) with
  | reader id pc counter =>
      rw [there] at last
      cases pc <;> first | rfl | cases last
  | _ => rw [there] at role; cases role

variable (value : BitVec 64 → Data)

theorem worker_call (worker : Worker) (call : Call config Data) (calls : worker.call value = some call) :
    (∃ i counter, worker = .writer i .push counter ∧ call = .push (value counter)) ∨
      (∃ i counter, worker = .reader i .testEmpty counter ∧ call = .empty) ∨ ∃ i counter, worker = .reader i .drain counter ∧ call = .pop := by
  cases worker with
  | writer i pc counter =>
      cases pc with
      | push => cases calls; exact .inl ⟨i, counter, rfl, rfl⟩
      | _ => cases calls
  | reader i pc counter =>
      cases pc with
      | testEmpty => cases calls; exact .inr (.inl ⟨i, counter, rfl, rfl⟩)
      | drain => cases calls; exact .inr (.inr ⟨i, counter, rfl, rfl⟩)
      | _ => cases calls
  | _ => cases calls

variable [DecidableEq Data]

theorem bandwidth_single : Service.Single (bandwidthProgram config Data bandwidth value) (queueSpec config Data) := by
  intro thread worker call queue lagging calls
  rcases worker_call value worker call calls with ⟨i, counter, _, rfl⟩ | ⟨i, counter, _, rfl⟩ | ⟨i, counter, _, rfl⟩
  · exact ⟨_, congrArg Prod.snd (single_commit queue (.push (value counter)) lagging rfl)⟩
  · exact ⟨_, congrArg Prod.snd (empty_commit queue lagging)⟩
  · exact ⟨_, congrArg Prod.snd (single_commit queue .pop lagging rfl)⟩

theorem bandwidth_keeps : Service.Keeps (bandwidthProgram config Data bandwidth value) (queueSpec config Data) (Balanced bandwidth) where
  initial := balanced_initial bandwidth
  own shared workers queue thread late next after balanced stepped := by
    cases here : workers thread with
    | main pc =>
        have main : thread = 0 := role_main bandwidth thread (by rw [← balanced.roles thread, here]; rfl)
        subst main
        rw [here] at stepped
        obtain ⟨⟨made, pc'⟩, moved, result⟩ := Option.map_eq_some_iff.mp stepped
        cases result
        exact balanced_moves bandwidth shared made workers queue queue 0 _ balanced
          (main_moves bandwidth shared made workers queue balanced late pc pc' here moved)
    | writer i pc counter =>
        rw [here] at stepped
        obtain ⟨⟨made, pc'⟩, moved, result⟩ := Option.map_eq_some_iff.mp stepped
        cases result
        exact balanced_moves bandwidth shared made workers queue queue thread _ balanced
          (write_moves bandwidth shared made workers queue thread balanced i pc pc' counter here moved)
    | reader i pc counter =>
        rw [here] at stepped
        obtain ⟨⟨made, pc'⟩, moved, result⟩ := Option.map_eq_some_iff.mp stepped
        cases result
        exact balanced_moves bandwidth shared made workers queue queue thread _ balanced
          (read_moves bandwidth shared made workers queue thread balanced i pc pc' counter here moved)
    | nobody => rw [here] at stepped; cases stepped
  call shared workers queue thread call lagging reply balanced calls decided := by
    rcases worker_call value _ call calls with ⟨i, counter, here, rfl⟩ | ⟨i, counter, here, rfl⟩ | ⟨i, counter, here, rfl⟩
    · have moves := push_moves bandwidth shared workers queue thread balanced i counter (value counter) here
      rw [single_commit queue (.push (value counter)) lagging rfl] at decided ⊢
      cases decided
      cases stored : queue.push? (value counter) <;> rw [stored] at moves <;>
        simpa only [bandwidthProgram, here, Call.reference, stored, Worker.reply] using
          balanced_moves bandwidth shared shared workers queue _ thread _ balanced moves
    · obtain ⟨again, done⟩ := empty_moves bandwidth shared workers queue thread balanced i counter here
      rw [empty_commit queue lagging] at decided ⊢
      cases decided
      by_cases empty : queue.pop? = none ∧ lagging = false
      · simpa only [bandwidthProgram, here, if_pos empty, Worker.reply] using
          balanced_moves bandwidth shared shared workers queue queue thread _ balanced (done empty.1)
      · simpa only [bandwidthProgram, here, if_neg empty, Worker.reply] using
          balanced_moves bandwidth shared shared workers queue queue thread _ balanced again
    · have moves := pop_moves bandwidth shared workers queue thread balanced i counter here
      rw [single_commit queue .pop lagging rfl] at decided ⊢
      cases decided
      cases popped : queue.pop? <;> rw [popped] at moves <;>
        simpa only [bandwidthProgram, here, Call.reference, popped, Worker.reply] using
          balanced_moves bandwidth shared shared workers queue _ thread _ balanced moves

variable [Zero Data]

-- Every run of the bandwidth test that comes to its report, on any number of writers and readers
-- and whatever limits of time pass on the way, reports as many pops as pushes and leaves the queue empty.
theorem bandwidth_balanced (some : 0 < bandwidth.consumers) (state : Service.Hosted Worker BandwidthShared (System config Data))
    (reached : Transition.Reachable (Service.hosted (bandwidthProgram config Data bandwidth value) (queueObject config Data))
      (Service.Permits fun system thread => system.Timely (.step thread)) state)
    (push pop : BitVec 64) (reported : state.threads 0 = .own (.main (.report push pop))) :
    push = pop ∧ push = BitVec.ofNat 64 (stores state.object.log) ∧ stores state.object.log = takes state.object.log := by
  obtain ⟨atomic, refines, workers, balanced, agree⟩ := Service.hosted_keeps (bandwidthProgram config Data bandwidth value)
    (queueSpec config Data) (Balanced bandwidth) (queueObject config Data) (fun system thread => system.Timely (.step thread))
    Refines queue_simulates (bandwidth_single bandwidth value) (bandwidth_keeps bandwidth value) state reached
  have here : workers 0 = .main (.report push pop) := Service.agrees_own _ _ 0 _ _ _ (reported ▸ agree 0)
  obtain ⟨pushes, pops, emptied⟩ := reported_counts bandwidth state.shared workers atomic.value balanced push pop here
  obtain ⟨total, first⟩ := contents_counts state.object.log atomic.value refines.value
  have none : atomic.value.total = atomic.value.first := by rw [Fifo.total, emptied some, List.length_nil, Nat.add_zero]
  exact ⟨by rw [pushes, pops, none], by rw [pushes, total], by rw [← total, ← first, none]⟩

end

theorem one_fits : 1 < 2 ^ 32 := by decide

def oneEach : Bandwidth := ⟨1, 1, one_fits⟩

def bandwidthObject : Transition.Machine (Service.Hosted Worker BandwidthShared (System smallQueue Nat)) (Service.HostedAction Bool Nat) :=
  Service.hosted (bandwidthProgram smallQueue Nat oneEach BitVec.toNat) (queueObject smallQueue Nat)

-- One writer and one reader: the writer pushes once, and the main thread runs into its limit of
-- time before the writer has seen that the run is over.
def bandwidthRun : List (Service.HostedAction Bool Nat) :=
  Service.repeated [(8, .own 0 false), (1, .own 1 false), (1, .own 2 false), (3, .own 0 false), (2, .own 1 false), (1, .invoke 1),
    (4, .move 1), (1, .own 0 false), (1, .own 0 true), (4, .own 1 false), (1, .own 0 false), (3, .own 2 false), (1, .invoke 2),
    (2, .move 2), (1, .invoke 2), (4, .move 2), (1, .invoke 2), (2, .move 2), (2, .own 2 false), (1, .invoke 2), (2, .move 2),
    (3, .own 2 false), (9, .own 0 false)]

theorem bandwidth_run_completes : (Transition.checkedRun bandwidthObject (Service.Permits fun system thread => system.Timely (.step thread))
    bandwidthRun bandwidthObject.start).isSome = true := by decide +kernel

theorem bandwidth_balanced_one :
    let state := (Transition.checkedRun bandwidthObject (Service.Permits fun system thread => system.Timely (.step thread))
      bandwidthRun bandwidthObject.start).get bandwidth_run_completes
    state.threads 0 = .own (.main (.report 1 1)) ∧ 1 = BitVec.ofNat 64 (stores state.object.log) ∧
      stores state.object.log = takes state.object.log := by
  intro state
  have path := Transition.checked_run_path bandwidthObject _ bandwidthRun _ state (Option.some_get bandwidth_run_completes).symm
  have reported : state.threads 0 = .own (.main (.report 1 1)) := by decide +kernel
  clear_value state
  exact ⟨reported, (bandwidth_balanced oneEach BitVec.toNat Nat.one_pos state ⟨bandwidthRun, path⟩ 1 1 reported).2⟩

end LockfreeQueue
