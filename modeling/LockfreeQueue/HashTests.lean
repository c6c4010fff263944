import Mathlib.Data.BitVec
import LockfreeQueue.HashSignature
import LockfreeQueue.Library.Program
import LockfreeQueue.Library.Streams
import LockfreeQueue.Linearizable

set_option autoImplicit false

namespace LockfreeQueue

structure Data2 where
  v : BitVec 64
  hindex : BitVec 8
deriving DecidableEq

structure Data3 where
  v : BitVec 32
  seqNum : BitVec 32
  hindex : BitVec 8
deriving DecidableEq

instance : Zero Data2 := ⟨⟨0, 0⟩⟩
instance : Zero Data3 := ⟨⟨0, 0, 0⟩⟩

-- What the tests hash2 and hash3 differ in: the element that producer `id` pushes in round i, what
-- goes into the signatures on either side, and whether a consumer that has the lock may add.
structure HashTest (Data : Type) where
  producers : Nat
  consumers : Nat
  loops : BitVec 32
  element : Nat → Nat → Data
  input : Nat → BitVec 64
  output : Data → BitVec 64
  hindex : Data → Nat
  ready : Data → BitVec 64 → Bool
  number : Data → Nat
  ids_fit : producers ≤ 256
  output_element : ∀ id i, output (element id i) = input i
  hindex_element : ∀ id i, id < producers → hindex (element id i) = id
  number_element : ∀ id i, i < 2 ^ 32 → number (element id i) = i

def hash2 (producers consumers : Nat) (loops : BitVec 32) (fits : producers ≤ 256) : HashTest Data2 where
  producers := producers
  consumers := consumers
  loops := loops
  element id i := ⟨BitVec.ofNat 64 i, BitVec.ofNat 8 id⟩
  input i := BitVec.ofNat 64 i
  output d := d.v
  hindex d := d.hindex.toNat
  ready _ _ := true
  number d := d.v.toNat
  ids_fit := fits
  output_element _ _ := rfl
  hindex_element id _ less := BitVec.toNat_ofNat id 8 ▸ Nat.mod_eq_of_lt (Nat.lt_of_lt_of_le less fits)
  number_element _ i less := BitVec.toNat_ofNat i 64 ▸ Nat.mod_eq_of_lt (Nat.lt_trans less (by decide))

-- The product is one of uint32_t, and hash_signature widens it.
def hash3 (producers consumers : Nat) (loops : BitVec 32) (fits : producers ≤ 256) : HashTest Data3 where
  producers := producers
  consumers := consumers
  loops := loops
  element id i := ⟨BitVec.ofNat 32 i * BitVec.ofNat 32 i, BitVec.ofNat 32 i, BitVec.ofNat 8 id⟩
  input i := (BitVec.ofNat 32 i * BitVec.ofNat 32 i).setWidth 64
  output d := d.v.setWidth 64
  hindex d := d.hindex.toNat
  ready d count := d.seqNum.setWidth 64 == count
  number d := d.seqNum.toNat
  ids_fit := fits
  output_element _ _ := rfl
  hindex_element id _ less := BitVec.toNat_ofNat id 8 ▸ Nat.mod_eq_of_lt (Nat.lt_of_lt_of_le less fits)
  number_element _ i less := BitVec.toNat_ofNat i 32 ▸ Nat.mod_eq_of_lt less

inductive TestPc where
  | startProducer (i : Nat)
  | awaitFirst
  | startConsumer (i : Nat)
  | joinProducer (i : Nat)
  | joinConsumer (i : Nat)
  | compare (i : Nat) (same : Bool)
  | verdict (same : Bool)
deriving DecidableEq

inductive ProducerPc where
  | enter
  | test
  | hash
  | push
  | leave
  | exit
  | gone
deriving DecidableEq

inductive ConsumerPc (Data : Type) where
  | enter
  | testEmpty
  | testCount
  | drain
  | lock (d : Data)
  | check (d : Data)
  | release (d : Data)
  | add (d : Data)
  | unlock (d : Data)
  | exit
  | gone
deriving DecidableEq

-- The thread of the test, its producers with their loop counter, and its consumers.
inductive Tester (Data : Type) where
  | main (pc : TestPc)
  | producer (id : Nat) (pc : ProducerPc) (i : Nat)
  | consumer (id : Nat) (pc : ConsumerPc Data)
  | nobody
deriving DecidableEq

structure HashShared where
  producersCount : BitVec 32
  hin : Nat → HashSignature
  hout : Nat → HashSignature
  slocks : Nat → Bool
  producers : Nat
  consumers : Nat
  exited : Nat → Bool

namespace HashTest

variable {Data : Type} (test : HashTest Data)

def producer (_ : HashTest Data) (id : Nat) : Nat := 1 + id
def consumer (test : HashTest Data) (id : Nat) : Nat := 1 + test.producers + id

def tester (test : HashTest Data) (thread : Nat) : Tester Data :=
  if thread = 0 then .main (.startProducer 0)
  else if thread < 1 + test.producers then .producer (thread - 1) .enter 0
  else if thread < 1 + test.producers + test.consumers then .consumer (thread - (1 + test.producers)) .enter
  else .nobody

def shared (test : HashTest Data) : HashShared where
  producersCount := BitVec.ofNat 32 test.producers
  hin _ := HashSignature.create 0
  hout _ := HashSignature.create 0
  slocks _ := false
  producers := 0
  consumers := 0
  exited _ := false

def main (shared : HashShared) : TestPc → Option (HashShared × TestPc)
  | .startProducer i =>
      if i < test.producers then some ({ shared with producers := i + 1 }, .startProducer (i + 1)) else some (shared, .awaitFirst)
  | .startConsumer i =>
      if i < test.consumers then some ({ shared with consumers := i + 1 }, .startConsumer (i + 1)) else some (shared, .joinProducer 0)
  | .joinProducer i =>
      if i < test.producers then if shared.exited (test.producer i) then some (shared, .joinProducer (i + 1)) else none
      else some (shared, .joinConsumer 0)
  | .joinConsumer i =>
      if i < test.consumers then if shared.exited (test.consumer i) then some (shared, .joinConsumer (i + 1)) else none
      else some (shared, .compare 0 true)
  | .compare i same =>
      some (shared, if i < test.producers then .compare (i + 1) (same && (shared.hin i).equals (shared.hout i)) else .verdict same)
  | .awaitFirst | .verdict _ => none

-- The loop counter stays below 2 ^ 32, so its width in the two tests makes no difference.
def produce (shared : HashShared) (id i : Nat) : ProducerPc → Option (HashShared × ProducerPc)
  | .enter => if id < shared.producers then some (shared, .test) else none
  | .test => some (shared, if i < test.loops.toNat then .hash else .leave)
  | .hash => some ({ shared with hin := Function.update shared.hin id ((shared.hin id).add (test.input i)) }, .push)
  | .leave => some ({ shared with producersCount := shared.producersCount - 1 }, .exit)
  | .exit => some ({ shared with exited := Function.update shared.exited (test.producer id) true }, .gone)
  | .push | .gone => none

-- The guard takes the lock of the element's producer, and gives it back before the next try.
def consume (shared : HashShared) (id : Nat) : ConsumerPc Data → Option (HashShared × ConsumerPc Data)
  | .enter => if id < shared.consumers then some (shared, .testEmpty) else none
  | .testCount => some (shared, if 0 < shared.producersCount then .drain else .exit)
  | .lock d =>
      some ({ shared with slocks := Function.update shared.slocks (test.hindex d) true },
        if shared.slocks (test.hindex d) then .lock d else .check d)
  | .check d => some (shared, if test.ready d (shared.hout (test.hindex d)).count then .add d else .release d)
  | .release d => some ({ shared with slocks := Function.update shared.slocks (test.hindex d) false }, .lock d)
  | .add d =>
      some ({ shared with hout := Function.update shared.hout (test.hindex d) ((shared.hout (test.hindex d)).add (test.output d)) },
        .unlock d)
  | .unlock d => some ({ shared with slocks := Function.update shared.slocks (test.hindex d) false }, .testEmpty)
  | .exit => some ({ shared with exited := Function.update shared.exited (test.consumer id) true }, .gone)
  | .testEmpty | .drain | .gone => none

def step (shared : HashShared) : Tester Data → Option (HashShared × Tester Data)
  | .main pc => (test.main shared pc).map fun stepped => (stepped.1, .main stepped.2)
  | .producer id pc i => (test.produce shared id i pc).map fun stepped => (stepped.1, .producer id stepped.2 i)
  | .consumer id pc => (test.consume shared id pc).map fun stepped => (stepped.1, .consumer id stepped.2)
  | .nobody => none

end HashTest

section

variable {config : Config} {Data : Type}

def Tester.call (test : HashTest Data) : Tester Data → Option (Call config Data)
  | .main .awaitFirst => some .empty
  | .producer id .push i => some (.push (test.element id i))
  | .consumer _ .testEmpty => some .empty
  | .consumer _ .drain => some .pop
  | _ => none

def Tester.reply : Tester Data → Reply config Data → Tester Data
  | .main .awaitFirst, .failed => .main (.startConsumer 0)
  | .producer id .push i, .done _ _ => .producer id .test (i + 1)
  | .consumer id .testEmpty, .failed => .consumer id .drain
  | .consumer id .testEmpty, _ => .consumer id .testCount
  | .consumer id .drain, .failed => .consumer id .testEmpty
  | .consumer id .drain, .done (some d) _ => .consumer id (.lock d)
  | tester, _ => tester

def hashProgram (config : Config) (test : HashTest Data) :
    Service.Program (Tester Data) HashShared Unit (Call config Data) (Reply config Data) where
  shared := test.shared
  privates := test.tester
  step := fun _ shared tester _ => test.step shared tester
  call := fun _ tester => tester.call test
  reply := fun _ tester reply => tester.reply reply

end

namespace ConsumerPc

variable {Data : Type}

-- The element that has been popped and not yet added, and the one whose lock is held.
def element : ConsumerPc Data → Option Data
  | .lock d | .check d | .release d | .add d => some d
  | _ => none

def guarded : ConsumerPc Data → Option Data
  | .check d | .release d | .add d | .unlock d => some d
  | _ => none

end ConsumerPc

namespace ProducerPc

def hashed (i : Nat) : ProducerPc → Nat
  | .push => i + 1
  | _ => i

def Within (loops i : Nat) : ProducerPc → Prop
  | .enter | .test => i ≤ loops
  | .hash | .push => i < loops
  | .leave | .exit | .gone => i = loops

end ProducerPc

namespace HashTest

variable {Data : Type} (test : HashTest Data)

-- The signature of a producer's first inputs.
def signature (count : Nat) : HashSignature := ((List.range count).map test.input).foldl HashSignature.add (HashSignature.create 0)

theorem signature_succ (count : Nat) : test.signature (count + 1) = (test.signature count).add (test.input count) := by
  rw [signature, signature, List.range_succ, List.map_append, List.foldl_append]
  rfl

theorem signature_count (count : Nat) : (test.signature count).count = BitVec.ofNat 64 count := by
  rw [signature, HashSignature.add_count, List.length_map, List.length_range]
  exact BitVec.zero_add _

end HashTest

namespace Tester

variable {Data : Type} (test : HashTest Data)

inductive Role where
  | main
  | producer (id : Nat)
  | consumer (id : Nat)
  | nobody
deriving DecidableEq

def role : Tester Data → Role
  | .main _ => .main
  | .producer id _ _ => .producer id
  | .consumer id _ => .consumer id
  | .nobody => .nobody

def pushed : Tester Data → Nat
  | .producer _ _ i => i
  | _ => 0

def element : Tester Data → Option Data
  | .consumer _ pc => pc.element
  | _ => none

def held (tester : Tester Data) : Option (Nat × Nat) := tester.element.map fun d => (test.hindex d, test.number d)

def inside : Tester Data → Option Nat
  | .consumer _ pc => pc.guarded.map test.hindex
  | _ => none

def gone : Tester Data → Bool
  | .producer _ .gone _ | .consumer _ .gone => true
  | _ => false

def Fed (shared : HashShared) : Tester Data → Prop
  | .producer id pc i => shared.hin id = test.signature (pc.hashed i) ∧ pc.Within test.loops.toNat i
  | _ => True

end Tester

section

variable {config : Config} {Data : Type} (test : HashTest Data)

def HashTest.role (thread : Nat) : Tester.Role := (test.tester thread).role

def HashTest.put (testers : Nat → Tester Data) (k : Nat) : Nat := (testers (test.producer k)).pushed

def HashShared.served (shared : HashShared) (k : Nat) : Nat := (shared.hout k).count.toNat

def HashTest.ProducersGone (testers : Nat → Tester Data) (count : Nat) : Prop := ∀ i < count, (testers (test.producer i)).gone = true
def HashTest.ConsumersGone (testers : Nat → Tester Data) (count : Nat) : Prop := ∀ i < count, (testers (test.consumer i)).gone = true
def HashTest.AllGone (testers : Nat → Tester Data) : Prop :=
  test.ProducersGone testers test.producers ∧ test.ConsumersGone testers test.consumers

def HashTest.Joined (shared : HashShared) (testers : Nat → Tester Data) : TestPc → Prop
  | .joinProducer i => test.ProducersGone testers i
  | .joinConsumer i => test.ProducersGone testers test.producers ∧ test.ConsumersGone testers i
  | .compare i same => test.AllGone testers ∧ i ≤ test.producers ∧ (same = true ↔ ∀ k < i, shared.hin k = shared.hout k)
  | .verdict same => test.AllGone testers ∧ (same = true ↔ ∀ k < test.producers, shared.hin k = shared.hout k)
  | _ => True

-- `taken` counts what has been popped of each producer's elements.
structure Relayed (shared : HashShared) (testers : Nat → Tester Data) (queue : Fifo Data config.size) (taken : Nat → Nat) : Prop where
  roles : ∀ thread, (testers thread).role = test.role thread
  main : ∀ pc, testers 0 = .main pc → test.Joined shared testers pc
  merged : Streams.Merged test.hindex test.element queue.items taken (test.put testers)
  turns : Streams.Turns shared.served taken fun thread => (testers thread).held test
  elements : ∀ thread d, (testers thread).element = some d → d = test.element (test.hindex d) (test.number d)
  signed : ∀ k, shared.hout k = test.signature (shared.served k)
  fed : ∀ thread, (testers thread).Fed test shared
  apart : ∀ thread other k, (testers thread).inside test = some k → (testers other).inside test = some k → thread = other
  locked : ∀ thread k, (testers thread).inside test = some k → shared.slocks k = true
  owned : ∀ k, shared.slocks k = true → ∃ thread, (testers thread).inside test = some k
  turn : ∀ thread id d, testers thread = .consumer id (.add d) → test.number d = shared.served (test.hindex d)
  exited : ∀ thread, shared.exited thread = true → (testers thread).gone = true

end

namespace HashTest

variable {config : Config} {Data : Type} (test : HashTest Data)

theorem role_producer (thread id : Nat) (role : test.role thread = .producer id) : thread = test.producer id ∧ id < test.producers := by
  simp only [HashTest.role, tester] at role
  split at role
  · cases role
  · split at role
    · cases role
      rename_i positive less
      exact ⟨by rw [producer]; omega, by omega⟩
    · split at role <;> cases role

theorem role_consumer (thread id : Nat) (role : test.role thread = .consumer id) : thread = test.consumer id ∧ id < test.consumers := by
  simp only [HashTest.role, tester] at role
  split at role
  · cases role
  · split at role
    · cases role
    · split at role
      · cases role
        rename_i positive beyond less
        exact ⟨by rw [consumer]; omega, by omega⟩
      · cases role

theorem role_main (thread : Nat) (role : test.role thread = .main) : thread = 0 := by
  simp only [HashTest.role, tester] at role
  split at role
  · assumption
  · split at role
    · cases role
    · split at role <;> cases role

theorem producer_role (id : Nat) (less : id < test.producers) : test.role (test.producer id) = .producer id := by
  rw [HashTest.role, tester, producer, if_neg (by omega), if_pos (by omega)]
  exact congrArg Tester.Role.producer (Nat.add_sub_cancel_left 1 id)

theorem initial_tester (P : Tester Data → Prop) (main : P (.main (.startProducer 0))) (producer : ∀ id, P (.producer id .enter 0))
    (consumer : ∀ id, P (.consumer id .enter)) (nobody : P .nobody) (thread : Nat) : P (test.tester thread) := by
  rw [tester]
  split_ifs
  · exact main
  · exact producer _
  · exact consumer _
  · exact nobody

theorem relayed_initial : Relayed test test.shared test.tester (Fifo.empty : Fifo Data config.size) (fun _ => 0) where
  roles := fun _ => rfl
  main := by
    intro pc here
    cases here
    exact trivial
  merged := by
    have none : test.put test.tester = fun _ => 0 := funext fun k =>
      initial_tester test (fun tester => tester.pushed = 0) rfl (fun _ => rfl) (fun _ => rfl) rfl (test.producer k)
    rw [none]
    exact Streams.merged_nil test.hindex test.element
  turns := by
    have none : (fun thread => (test.tester thread).held test) = fun _ => none := funext fun thread =>
      initial_tester test (fun tester => tester.held test = none) rfl (fun _ => rfl) (fun _ => rfl) rfl thread
    rw [none]
    exact Streams.turns_start
  elements := fun thread d popped => by
    have none := initial_tester test (fun tester => tester.element = none) rfl (fun _ => rfl) (fun _ => rfl) rfl thread
    rw [none] at popped
    cases popped
  signed := fun _ => rfl
  fed := initial_tester test (Tester.Fed test test.shared) trivial (fun _ => ⟨rfl, Nat.zero_le _⟩) (fun _ => trivial) trivial
  apart := fun thread other k within => by
    have none := initial_tester test (fun tester => tester.inside test = none) rfl (fun _ => rfl) (fun _ => rfl) rfl thread
    rw [none] at within
    cases within
  locked := fun thread k within => by
    have none := initial_tester test (fun tester => tester.inside test = none) rfl (fun _ => rfl) (fun _ => rfl) rfl thread
    rw [none] at within
    cases within
  owned := fun _ nothing => nomatch nothing
  turn := fun thread id d adding => by
    have none := initial_tester test (fun tester => tester.element = none) rfl (fun _ => rfl) (fun _ => rfl) rfl thread
    rw [adding] at none
    cases none
  exited := fun _ nothing => nomatch nothing

theorem gone_kept (testers : Nat → Tester Data) (thread : Nat) (after : Tester Data) (running : (testers thread).gone = false) (other : Nat)
    (gone : (testers other).gone = true) : Function.update testers thread after other = testers other := by
  refine Function.update_of_ne (fun same => ?_) _ _
  rw [same, running] at gone
  cases gone

theorem producers_kept (testers : Nat → Tester Data) (thread : Nat) (after : Tester Data) (running : (testers thread).gone = false)
    (count : Nat) (gone : test.ProducersGone testers count) : test.ProducersGone (Function.update testers thread after) count := by
  intro i less
  rw [gone_kept testers thread after running _ (gone i less)]
  exact gone i less

theorem consumers_kept (testers : Nat → Tester Data) (thread : Nat) (after : Tester Data) (running : (testers thread).gone = false)
    (count : Nat) (gone : test.ConsumersGone testers count) : test.ConsumersGone (Function.update testers thread after) count := by
  intro i less
  rw [gone_kept testers thread after running _ (gone i less)]
  exact gone i less

theorem joined_kept (shared : HashShared) (testers : Nat → Tester Data) (thread : Nat) (after : Tester Data)
    (running : (testers thread).gone = false) (pc : TestPc) (joined : test.Joined shared testers pc) :
    test.Joined shared (Function.update testers thread after) pc := by
  have producers := test.producers_kept testers thread after running
  have consumers := test.consumers_kept testers thread after running
  cases pc with
  | joinProducer i => exact producers i joined
  | joinConsumer i => exact ⟨producers _ joined.1, consumers i joined.2⟩
  | compare i same => exact ⟨⟨producers _ joined.1.1, consumers _ joined.1.2⟩, joined.2⟩
  | verdict same => exact ⟨⟨producers _ joined.1.1, consumers _ joined.1.2⟩, joined.2⟩
  | _ => trivial

-- Once the signatures are compared, no other thread is left to change them.
theorem joined_frozen (shared next : HashShared) (testers : Nat → Tester Data) (thread : Nat)
    (worker : thread ≠ 0 ∧ test.role thread ≠ .nobody) (running : (testers thread).gone = false) (pc : TestPc)
    (joined : test.Joined shared testers pc) : test.Joined next testers pc := by
  have frozen (gone : test.AllGone testers) : False := by
    cases here : test.role thread with
    | main => exact worker.1 (role_main test thread here)
    | nobody => exact worker.2 here
    | producer id =>
        obtain ⟨place, less⟩ := role_producer test thread id here
        have ended := gone.1 id less
        rw [← place, running] at ended
        cases ended
    | consumer id =>
        obtain ⟨place, less⟩ := role_consumer test thread id here
        have ended := gone.2 id less
        rw [← place, running] at ended
        cases ended
  cases pc with
  | compare i same => exact (frozen joined.1).elim
  | verdict same => exact (frozen joined.1).elim
  | _ => exact joined

variable (shared next : HashShared) (testers : Nat → Tester Data) (queue rest : Fifo Data config.size) (thread : Nat) (after : Tester Data)
variable (taken kept : Nat → Nat)

-- What one step of a thread has to show, alone or together with an operation on the queue.
structure Moves : Prop where
  role : after.role = (testers thread).role ∧ test.role thread ≠ .nobody
  running : (testers thread).gone = false
  main : ∀ pc, after = .main pc → test.Joined next testers pc
  merged : Streams.Merged test.hindex test.element rest.items kept (test.put (Function.update testers thread after))
  turns : Streams.Turns next.served kept (Function.update (fun other => (testers other).held test) thread (after.held test))
  elements : ∀ d, after.element = some d → d = test.element (test.hindex d) (test.number d)
  signed : ∀ k, next.hout k = test.signature (next.served k)
  fed : after.Fed test next ∧ ∀ other, other ≠ thread → (testers other).Fed test next
  inside : ∀ k, after.inside test = some k →
    next.slocks k = true ∧ ((testers thread).inside test = some k ∨ shared.slocks k = false)
  locked : ∀ other k, other ≠ thread → (testers other).inside test = some k → next.slocks k = true
  owned : ∀ k, next.slocks k = true → after.inside test = some k ∨ shared.slocks k = true ∧ (testers thread).inside test ≠ some k
  turn : ∀ id d, after = .consumer id (.add d) → test.number d = next.served (test.hindex d)
  waits : ∀ other id d, other ≠ thread → testers other = .consumer id (.add d) → next.served (test.hindex d) = shared.served (test.hindex d)
  exited : ∀ other, next.exited other = true → other = thread ∧ after.gone = true ∨ shared.exited other = true

theorem others (P : Nat → Tester Data → Prop) (own : P thread after) (each : ∀ other, other ≠ thread → P other (testers other)) (other : Nat) :
    P other (Function.update testers thread after other) := by
  by_cases same : other = thread
  · rw [same, Function.update_self]
    exact own
  · rw [Function.update_of_ne same]
    exact each other same

theorem relayed_moves (relayed : Relayed test shared testers queue taken)
    (moves : Moves test shared next testers rest thread after kept) :
    Relayed test next (Function.update testers thread after) rest kept where
  roles := others testers thread after (fun other tester => tester.role = test.role other)
    (moves.role.1.trans (relayed.roles thread)) (fun other _ => relayed.roles other)
  main := by
    intro pc here
    by_cases main : thread = 0
    · subst main
      rw [Function.update_self] at here
      exact joined_kept test next testers 0 after moves.running pc (moves.main pc here)
    · rw [Function.update_of_ne (Ne.symm main)] at here
      exact joined_kept test next testers thread after moves.running pc
        (joined_frozen test shared next testers thread ⟨main, moves.role.2⟩ moves.running pc (relayed.main pc here))
  merged := moves.merged
  turns := by
    have same : (fun other => (Function.update testers thread after other).held test) =
        Function.update (fun other => (testers other).held test) thread (after.held test) := funext fun other => by
      by_cases same : other = thread
      · rw [same, Function.update_self, Function.update_self]
      · rw [Function.update_of_ne same, Function.update_of_ne same]
    rw [same]
    exact moves.turns
  elements := others testers thread after (fun _ tester => ∀ d, tester.element = some d → d = test.element (test.hindex d) (test.number d))
    moves.elements (fun other _ => relayed.elements other)
  signed := moves.signed
  fed := others testers thread after (fun _ tester => tester.Fed test next) moves.fed.1 moves.fed.2
  apart := by
    intro left right k first second
    have entered (other : Nat) (apart : other ≠ thread) (own : after.inside test = some k) (within : (testers other).inside test = some k) :
        False := by
      rcases (moves.inside k own).2 with before | free
      · exact apart (relayed.apart other thread k within before)
      · rw [relayed.locked other k within] at free
        cases free
    by_cases mine : left = thread <;> by_cases yours : right = thread
    · rw [mine, yours]
    · rw [mine, Function.update_self] at first
      rw [Function.update_of_ne yours] at second
      exact (entered right yours first second).elim
    · rw [yours, Function.update_self] at second
      rw [Function.update_of_ne mine] at first
      exact (entered left mine second first).elim
    · rw [Function.update_of_ne mine] at first
      rw [Function.update_of_ne yours] at second
      exact relayed.apart left right k first second
  locked := others testers thread after (fun _ tester => ∀ k, tester.inside test = some k → next.slocks k = true)
    (fun k own => (moves.inside k own).1) (fun other apart k => moves.locked other k apart)
  owned := by
    intro k locked
    rcases moves.owned k locked with own | ⟨before, outside⟩
    · exact ⟨thread, by rw [Function.update_self]; exact own⟩
    · obtain ⟨other, within⟩ := relayed.owned k before
      have apart : other ≠ thread := fun same => outside (same ▸ within)
      exact ⟨other, by rw [Function.update_of_ne apart]; exact within⟩
  turn := others testers thread after (fun _ tester => ∀ id d, tester = .consumer id (.add d) → test.number d = next.served (test.hindex d))
    moves.turn (fun other apart id d adding => (relayed.turn other id d adding).trans (moves.waits other id d apart adding).symm)
  exited := by
    intro other exited
    rcases moves.exited other exited with ⟨same, gone⟩ | before
    · rw [same, Function.update_self]
      exact gone
    · have gone := relayed.exited other before
      rw [gone_kept testers thread after moves.running other gone]
      exact gone

theorem put_same (pushed : after.pushed = (testers thread).pushed) : test.put (Function.update testers thread after) = test.put testers :=
  funext fun k => by
    by_cases same : test.producer k = thread
    · rw [put, put, same, Function.update_self, pushed]
    · rw [put, put, Function.update_of_ne same]

theorem served_same (hashes : next.hout = shared.hout) : next.served = shared.served := funext fun k => by
  rw [HashShared.served, HashShared.served, hashes]

theorem fed_same (hashes : next.hin = shared.hin) (tester : Tester Data) (fed : tester.Fed test shared) : tester.Fed test next := by
  cases tester with
  | producer id pc i => exact ⟨hashes ▸ fed.1, fed.2⟩
  | _ => trivial

theorem owned_same (inside : after.inside test = (testers thread).inside test) (slocks : next.slocks = shared.slocks) (k : Nat)
    (locked : next.slocks k = true) :
    after.inside test = some k ∨ shared.slocks k = true ∧ (testers thread).inside test ≠ some k := by
  by_cases own : (testers thread).inside test = some k
  · exact .inl (inside.trans own)
  · exact .inr ⟨slocks ▸ locked, own⟩

-- A step that touches neither the queue nor the signatures, nor what its thread has pushed and holds.
theorem calm_moves (relayed : Relayed test shared testers queue taken)
    (role : after.role = (testers thread).role ∧ test.role thread ≠ .nobody) (running : (testers thread).gone = false)
    (main : ∀ pc, after = .main pc → test.Joined next testers pc) (hashes : next.hin = shared.hin ∧ next.hout = shared.hout)
    (pushed : after.pushed = (testers thread).pushed) (element : after.element = (testers thread).element) (fed : after.Fed test shared)
    (inside : ∀ k, after.inside test = some k → next.slocks k = true ∧ ((testers thread).inside test = some k ∨ shared.slocks k = false))
    (locked : ∀ other k, other ≠ thread → (testers other).inside test = some k → next.slocks k = true)
    (owned : ∀ k, next.slocks k = true → after.inside test = some k ∨ shared.slocks k = true ∧ (testers thread).inside test ≠ some k)
    (turn : ∀ id d, after = .consumer id (.add d) → test.number d = shared.served (test.hindex d))
    (exited : ∀ other, next.exited other = true → other = thread ∧ after.gone = true ∨ shared.exited other = true) :
    Moves test shared next testers queue thread after taken where
  role := role
  running := running
  main := main
  merged := put_same test testers thread after pushed ▸ relayed.merged
  turns := by
    have held : after.held test = (testers thread).held test := by rw [Tester.held, element, Tester.held]
    rw [held, Function.update_eq_self, served_same shared next hashes.2]
    exact relayed.turns
  elements := fun d popped => relayed.elements thread d (element.symm.trans popped)
  signed := fun k => by
    rw [hashes.2, served_same shared next hashes.2]
    exact relayed.signed k
  fed := ⟨fed_same test shared next hashes.1 after fed, fun other _ => fed_same test shared next hashes.1 _ (relayed.fed other)⟩
  inside := inside
  locked := locked
  owned := owned
  turn := fun id d adding => (turn id d adding).trans (congrFun (served_same shared next hashes.2) _).symm
  waits := fun _ _ _ _ _ => congrFun (served_same shared next hashes.2) _
  exited := exited

theorem exited_before (gone : Prop) (same : next.exited = shared.exited) (other : Nat) (exited : next.exited other = true) :
    other = thread ∧ gone ∨ shared.exited other = true := .inr (same ▸ exited)

theorem exited_now (gone : Prop) (own : gone) (other : Nat) (exited : Function.update shared.exited thread true other = true) :
    other = thread ∧ gone ∨ shared.exited other = true := by
  by_cases same : other = thread
  · exact .inl ⟨same, own⟩
  · rw [Function.update_of_ne same] at exited
    exact .inr exited

theorem place_producer (relayed : Relayed test shared testers queue taken) (id i : Nat) (pc : ProducerPc)
    (here : testers thread = .producer id pc i) : thread = test.producer id ∧ id < test.producers := by
  refine role_producer test thread id ?_
  rw [← relayed.roles thread, here]
  rfl

theorem place_consumer (relayed : Relayed test shared testers queue taken) (id : Nat) (pc : ConsumerPc Data)
    (here : testers thread = .consumer id pc) : thread = test.consumer id ∧ id < test.consumers := by
  refine role_consumer test thread id ?_
  rw [← relayed.roles thread, here]
  rfl

theorem producer_moves (relayed : Relayed test shared testers queue taken) (id i : Nat) (pc pc' : ProducerPc)
    (here : testers thread = .producer id pc i) (running : (testers thread).gone = false)
    (frame : next.hin = shared.hin ∧ next.hout = shared.hout ∧ next.slocks = shared.slocks)
    (hashed : pc'.hashed i = pc.hashed i) (within : pc'.Within test.loops.toNat i)
    (exited : ∀ other, next.exited other = true → other = thread ∧ pc' = .gone ∨ shared.exited other = true) :
    Moves test shared next testers queue thread (.producer id pc' i) taken := by
  have role : test.role thread = .producer id := by rw [← relayed.roles thread, here]; rfl
  have fed := relayed.fed thread
  rw [here] at fed
  refine calm_moves test shared next testers queue thread _ taken relayed
    ⟨by rw [here]; rfl, by rw [role]; exact Tester.Role.noConfusion⟩ running (fun _ nothing => nomatch nothing) ⟨frame.1, frame.2.1⟩
    (by rw [here]; rfl) (by rw [here]; rfl) ⟨by rw [hashed]; exact fed.1, within⟩ (fun _ nothing => nomatch nothing) ?_
    (owned_same test shared next testers thread _ (by rw [here]; rfl) frame.2.2) (fun _ _ nothing => nomatch nothing) ?_
  · intro other k _ within
    rw [frame.2.2]
    exact relayed.locked other k within
  · intro other left
    rcases exited other left with ⟨same, gone⟩ | before
    · exact .inl ⟨same, by rw [gone]; rfl⟩
    · exact .inr before

theorem consumer_moves (relayed : Relayed test shared testers queue taken) (id : Nat) (pc pc' : ConsumerPc Data)
    (here : testers thread = .consumer id pc) (running : (testers thread).gone = false) (frame : next.hin = shared.hin ∧ next.hout = shared.hout)
    (element : pc'.element = pc.element)
    (guarded : ∀ d, pc'.guarded = some d → next.slocks (test.hindex d) = true ∧ (pc.guarded = some d ∨ shared.slocks (test.hindex d) = false))
    (locked : ∀ other k, other ≠ thread → (testers other).inside test = some k → next.slocks k = true)
    (owned : ∀ k, next.slocks k = true → pc'.guarded.map test.hindex = some k ∨ shared.slocks k = true ∧ pc.guarded.map test.hindex ≠ some k)
    (turn : ∀ d, pc' = .add d → test.number d = shared.served (test.hindex d))
    (exited : ∀ other, next.exited other = true → other = thread ∧ pc' = .gone ∨ shared.exited other = true) :
    Moves test shared next testers queue thread (.consumer id pc') taken := by
  have role : test.role thread = .consumer id := by rw [← relayed.roles thread, here]; rfl
  refine calm_moves test shared next testers queue thread _ taken relayed
    ⟨by rw [here]; rfl, by rw [role]; exact Tester.Role.noConfusion⟩ running (fun _ nothing => nomatch nothing) frame
    (by rw [here]; rfl) (by rw [here]; exact element) trivial ?_ locked (by rw [here]; exact owned) ?_ ?_
  · intro k own
    obtain ⟨d, within, rfl⟩ := Option.map_eq_some_iff.mp own
    obtain ⟨taken, before⟩ := guarded d within
    refine ⟨taken, before.imp_left fun guarded => ?_⟩
    rw [here]
    exact Option.map_eq_some_iff.mpr ⟨d, guarded, rfl⟩
  · intro other d same
    cases same
    exact turn d rfl
  · intro other left
    rcases exited other left with ⟨same, gone⟩ | before
    · exact .inl ⟨same, by rw [gone]; rfl⟩
    · exact .inr before

theorem produce_moves (relayed : Relayed test shared testers queue taken) (id i : Nat) (pc pc' : ProducerPc)
    (here : testers thread = .producer id pc i) (stepped : test.produce shared id i pc = some (next, pc')) :
    Moves test shared next testers queue thread (.producer id pc' i) taken := by
  obtain ⟨place, less⟩ := place_producer test shared testers queue thread taken relayed id i pc here
  have fed := relayed.fed thread
  rw [here] at fed
  cases pc with
  | enter =>
      obtain ⟨_, result⟩ := Option.ite_none_right_eq_some.mp stepped
      cases result
      exact producer_moves test shared _ testers queue thread taken relayed id i .enter .test here (by rw [here]; rfl) ⟨rfl, rfl, rfl⟩ rfl
        fed.2 (exited_before shared _ thread _ rfl)
  | test =>
      cases stepped
      have bound : i ≤ test.loops.toNat := fed.2
      by_cases more : i < test.loops.toNat
      · rw [if_pos more]
        exact producer_moves test shared _ testers queue thread taken relayed id i .test .hash here (by rw [here]; rfl) ⟨rfl, rfl, rfl⟩
          rfl more (exited_before shared _ thread _ rfl)
      · rw [if_neg more]
        exact producer_moves test shared _ testers queue thread taken relayed id i .test .leave here (by rw [here]; rfl) ⟨rfl, rfl, rfl⟩
          rfl (Nat.le_antisymm bound (Nat.le_of_not_lt more)) (exited_before shared _ thread _ rfl)
  | hash =>
      cases stepped
      have role : test.role thread = .producer id := by rw [← relayed.roles thread, here]; rfl
      refine ⟨⟨by rw [here]; rfl, by rw [role]; exact Tester.Role.noConfusion⟩, by rw [here]; rfl, (fun _ nothing => nomatch nothing), ?_,
        ?_, (fun _ nothing => nomatch nothing), relayed.signed, ⟨⟨?_, fed.2⟩, ?_⟩, (fun _ nothing => nomatch nothing),
        fun other k _ => relayed.locked other k, owned_same test shared _ testers thread _ (by rw [here]; rfl) rfl,
        (fun _ _ nothing => nomatch nothing), (fun _ _ _ _ _ => rfl), exited_before shared _ thread _ rfl⟩
      · rw [put_same test testers thread _ (by rw [here]; rfl)]
        exact relayed.merged
      · have same : (Tester.producer id .push i : Tester Data).held test = (testers thread).held test := by rw [here]; rfl
        rw [same, Function.update_eq_self]
        exact relayed.turns
      · have before : shared.hin id = test.signature i := fed.1
        exact (Function.update_self ..).trans (by rw [before]; exact (signature_succ test i).symm)
      · intro other apart
        have before := relayed.fed other
        cases there : testers other with
        | producer j pc count =>
            rw [there] at before
            have different : j ≠ id := by
              rintro rfl
              exact apart ((place_producer test shared testers queue other taken relayed j count pc there).1.trans place.symm)
            exact ⟨(Function.update_of_ne different _ _).trans before.1, before.2⟩
        | _ => trivial
  | leave =>
      cases stepped
      exact producer_moves test shared _ testers queue thread taken relayed id i .leave .exit here (by rw [here]; rfl) ⟨rfl, rfl, rfl⟩
        rfl fed.2 (exited_before shared _ thread _ rfl)
  | exit =>
      cases stepped
      rw [← place]
      exact producer_moves test shared _ testers queue thread taken relayed id i .exit .gone here (by rw [here]; rfl) ⟨rfl, rfl, rfl⟩
        rfl fed.2 (exited_now shared thread _ rfl)
  | push => cases stepped
  | gone => cases stepped

theorem put_bound (relayed : Relayed test shared testers queue taken) (k : Nat) : test.put testers k ≤ test.loops.toNat := by
  have fed := relayed.fed (test.producer k)
  cases here : testers (test.producer k) with
  | producer id pc i =>
      rw [here] at fed
      rw [put, here]
      have within := fed.2
      change i ≤ _
      cases pc <;> simp only [ProducerPc.Within] at within <;> omega
  | _ => rw [put, here]; exact Nat.zero_le _

theorem put_producer (relayed : Relayed test shared testers queue taken) (k : Nat) (some : 0 < test.put testers k) : k < test.producers := by
  cases here : testers (test.producer k) with
  | producer id pc i =>
      obtain ⟨place, less⟩ := place_producer test shared testers queue _ taken relayed id i pc here
      have same : k = id := Nat.add_left_cancel place
      rwa [same]
  | _ => rw [put, here] at some; exact absurd some (Nat.lt_irrefl 0)

-- Either the consumers wait for their turn, or there is only one of them.
def InTurn : Prop := test.consumers = 1 ∨ ∀ d count, test.ready d count = true → test.number d = count.toNat

theorem ready_turn (inTurn : test.InTurn) (relayed : Relayed test shared testers queue taken) (id : Nat) (d : Data)
    (here : testers thread = .consumer id (.check d)) (ready : test.ready d (shared.hout (test.hindex d)).count = true) :
    test.number d = shared.served (test.hindex d) := by
  rcases inTurn with single | ordered
  · refine Streams.turns_single shared.served taken _ thread (test.hindex d) relayed.turns (fun other apart => ?_) (test.number d)
      (by simp only [here]; rfl)
    obtain ⟨place, less⟩ := place_consumer test shared testers queue thread taken relayed id _ here
    cases there : testers other with
    | consumer j pc =>
        obtain ⟨where_, below⟩ := place_consumer test shared testers queue other taken relayed j pc there
        have same : j = id := by omega
        exact absurd (where_.trans (by rw [same, place])) apart
    | _ => rfl
  · exact ordered d _ ready

theorem add_moves (relayed : Relayed test shared testers queue taken) (id : Nat) (d : Data) (here : testers thread = .consumer id (.add d)) :
    Moves test shared
      { shared with hout := Function.update shared.hout (test.hindex d) ((shared.hout (test.hindex d)).add (test.output d)) }
      testers queue thread (.consumer id (.unlock d)) taken := by
  have role : test.role thread = .consumer id := by rw [← relayed.roles thread, here]; rfl
  have turn := relayed.turn thread id d here
  have value := relayed.elements thread d (by rw [here]; rfl)
  have within : (testers thread).inside test = some (test.hindex d) := by rw [here]; rfl
  have holding : (testers thread).held test = some (test.hindex d, shared.served (test.hindex d)) := by rw [here, ← turn]; rfl
  have small : shared.served (test.hindex d) < test.loops.toNat :=
    Nat.lt_of_lt_of_le (Nat.lt_of_lt_of_le (relayed.turns.waits thread _ _ holding).2 (relayed.merged (test.hindex d)).1)
      (put_bound test shared testers queue taken relayed (test.hindex d))
  have wide := test.loops.isLt
  have output : test.output d = test.input (shared.served (test.hindex d)) := by
    rw [← turn, ← test.output_element (test.hindex d), ← value]
  have added : (shared.hout (test.hindex d)).add (test.output d) = test.signature (shared.served (test.hindex d) + 1) := by
    rw [signature_succ, ← relayed.signed, output]
  have served : HashShared.served
      { shared with hout := Function.update shared.hout (test.hindex d) ((shared.hout (test.hindex d)).add (test.output d)) } =
      Function.update shared.served (test.hindex d) (shared.served (test.hindex d) + 1) := funext fun k => by
    change (Function.update shared.hout (test.hindex d) _ k).count.toNat = _
    by_cases same : k = test.hindex d
    · rw [same, Function.update_self, Function.update_self, added, signature_count, BitVec.toNat_ofNat, Nat.mod_eq_of_lt (by omega)]
    · rw [Function.update_of_ne same, Function.update_of_ne same]
      rfl
  refine ⟨⟨by rw [here]; rfl, by rw [role]; exact Tester.Role.noConfusion⟩, by rw [here]; rfl, (fun _ nothing => nomatch nothing), ?_,
    ?_, (fun _ nothing => nomatch nothing), fun k => ?_, ⟨trivial, fun other _ => fed_same test shared _ rfl _ (relayed.fed other)⟩, ?_,
    fun other k _ => relayed.locked other k, owned_same test shared _ testers thread _ (by rw [here]; rfl) rfl,
    (fun _ _ nothing => nomatch nothing), ?_, exited_before shared _ thread _ rfl⟩
  · rw [put_same test testers thread _ (by rw [here]; rfl)]
    exact relayed.merged
  · rw [served]
    exact Streams.turns_serve shared.served taken _ thread (test.hindex d) relayed.turns holding
  · rw [served]
    by_cases same : k = test.hindex d
    · rw [same, Function.update_self]
      exact (Function.update_self ..).trans added
    · rw [Function.update_of_ne same]
      exact (Function.update_of_ne same _ _).trans (relayed.signed k)
  · intro k own
    have same : test.hindex d = k := Option.some.inj own
    rw [← same]
    exact ⟨relayed.locked thread _ within, .inl within⟩
  · intro other j d' apart there
    rw [served, Function.update_of_ne fun same => apart (relayed.apart other thread (test.hindex d) ?_ within)]
    rw [there, ← same]
    rfl

theorem consume_moves (inTurn : test.InTurn) (relayed : Relayed test shared testers queue taken) (id : Nat) (pc pc' : ConsumerPc Data)
    (here : testers thread = .consumer id pc) (stepped : test.consume shared id pc = some (next, pc')) :
    Moves test shared next testers queue thread (.consumer id pc') taken := by
  obtain ⟨place, less⟩ := place_consumer test shared testers queue thread taken relayed id pc here
  have still (other k : Nat) (_ : other ≠ thread) (within : (testers other).inside test = some k) : shared.slocks k = true :=
    relayed.locked other k within
  have alike (other : ConsumerPc Data) (guarded : other.guarded = pc.guarded) (k : Nat) (locked : shared.slocks k = true) :
      other.guarded.map test.hindex = some k ∨ shared.slocks k = true ∧ pc.guarded.map test.hindex ≠ some k := by
    rw [guarded]
    exact (Classical.em _).imp_right fun outside => ⟨locked, outside⟩
  have freed (d : Data) (own : pc.guarded = some d) (other : ConsumerPc Data) (k : Nat)
      (locked : Function.update shared.slocks (test.hindex d) false k = true) :
      other.guarded.map test.hindex = some k ∨ shared.slocks k = true ∧ pc.guarded.map test.hindex ≠ some k := by
    have different : k ≠ test.hindex d := fun same => by rw [same, Function.update_self] at locked; cases locked
    rw [Function.update_of_ne different] at locked
    refine .inr ⟨locked, fun same => different ?_⟩
    rw [own] at same
    exact (Option.some.inj same).symm
  -- The lock that a thread gives back is nobody else's.
  have given (d : Data) (own : pc.guarded = some d) (other k : Nat) (apart : other ≠ thread)
      (within : (testers other).inside test = some k) : Function.update shared.slocks (test.hindex d) false k = true := by
    have different : k ≠ test.hindex d := by
      rintro rfl
      refine apart (relayed.apart other thread _ within ?_)
      rw [here]
      exact Option.map_eq_some_iff.mpr ⟨d, own, rfl⟩
    rw [Function.update_of_ne different]
    exact relayed.locked other k within
  cases pc with
  | enter =>
      obtain ⟨_, result⟩ := Option.ite_none_right_eq_some.mp stepped
      cases result
      exact consumer_moves test shared _ testers queue thread taken relayed id .enter .testEmpty here (by rw [here]; rfl) ⟨rfl, rfl⟩ rfl
        (fun _ nothing => nomatch nothing) still (alike _ rfl) (fun _ nothing => nomatch nothing) (exited_before shared _ thread _ rfl)
  | testCount =>
      cases stepped
      by_cases active : 0 < shared.producersCount
      · rw [if_pos active]
        exact consumer_moves test shared _ testers queue thread taken relayed id .testCount .drain here (by rw [here]; rfl) ⟨rfl, rfl⟩
          rfl (fun _ nothing => nomatch nothing) still (alike _ rfl) (fun _ nothing => nomatch nothing) (exited_before shared _ thread _ rfl)
      · rw [if_neg active]
        exact consumer_moves test shared _ testers queue thread taken relayed id .testCount .exit here (by rw [here]; rfl) ⟨rfl, rfl⟩
          rfl (fun _ nothing => nomatch nothing) still (alike _ rfl) (fun _ nothing => nomatch nothing) (exited_before shared _ thread _ rfl)
  | lock d =>
      cases stepped
      have set (other k : Nat) (_ : other ≠ thread) (within : (testers other).inside test = some k) :
          Function.update shared.slocks (test.hindex d) true k = true := by
        by_cases same : k = test.hindex d
        · rw [same, Function.update_self]
        · rw [Function.update_of_ne same]
          exact relayed.locked other k within
      have before (k : Nat) (different : k ≠ test.hindex d) (locked : Function.update shared.slocks (test.hindex d) true k = true) :
          shared.slocks k = true := by rwa [Function.update_of_ne different] at locked
      by_cases busy : shared.slocks (test.hindex d) = true
      · rw [if_pos busy]
        refine consumer_moves test shared _ testers queue thread taken relayed id (.lock d) (.lock d) here (by rw [here]; rfl) ⟨rfl, rfl⟩
          rfl (fun _ nothing => nomatch nothing) set (fun k locked => .inr ⟨?_, fun nothing => nomatch nothing⟩)
          (fun _ nothing => nomatch nothing) (exited_before shared _ thread _ rfl)
        by_cases same : k = test.hindex d
        · rw [same]
          exact busy
        · exact before k same locked
      · rw [if_neg busy]
        refine consumer_moves test shared _ testers queue thread taken relayed id (.lock d) (.check d) here (by rw [here]; rfl)
          ⟨rfl, rfl⟩ rfl (fun other same => ?_) set (fun k locked => ?_) (fun _ nothing => nomatch nothing)
          (exited_before shared _ thread _ rfl)
        · cases same
          exact ⟨Function.update_self .., .inr (Bool.not_eq_true _ ▸ busy)⟩
        · by_cases same : k = test.hindex d
          · exact .inl (congrArg some same.symm)
          · exact .inr ⟨before k same locked, fun nothing => nomatch nothing⟩
  | check d =>
      cases stepped
      have own : shared.slocks (test.hindex d) = true := relayed.locked thread _ (by rw [here]; rfl)
      by_cases ready : test.ready d (shared.hout (test.hindex d)).count = true
      · rw [if_pos ready]
        have turn := ready_turn test shared testers queue thread taken inTurn relayed id d here ready
        refine consumer_moves test shared _ testers queue thread taken relayed id (.check d) (.add d) here (by rw [here]; rfl)
          ⟨rfl, rfl⟩ rfl (fun other same => ?_) still (alike _ rfl) (fun other same => ?_) (exited_before shared _ thread _ rfl)
        · cases same
          exact ⟨own, .inl rfl⟩
        · cases same
          exact turn
      · rw [if_neg ready]
        refine consumer_moves test shared _ testers queue thread taken relayed id (.check d) (.release d) here (by rw [here]; rfl)
          ⟨rfl, rfl⟩ rfl (fun other same => ?_) still (alike _ rfl) (fun _ nothing => nomatch nothing) (exited_before shared _ thread _ rfl)
        cases same
        exact ⟨own, .inl rfl⟩
  | release d =>
      cases stepped
      exact consumer_moves test shared _ testers queue thread taken relayed id (.release d) (.lock d) here (by rw [here]; rfl) ⟨rfl, rfl⟩
        rfl (fun _ nothing => nomatch nothing) (given d rfl) (freed d rfl _) (fun _ nothing => nomatch nothing) (exited_before shared _ thread _ rfl)
  | add d =>
      cases stepped
      exact add_moves test shared testers queue thread taken relayed id d here
  | unlock d =>
      cases stepped
      exact consumer_moves test shared _ testers queue thread taken relayed id (.unlock d) .testEmpty here (by rw [here]; rfl) ⟨rfl, rfl⟩
        rfl (fun _ nothing => nomatch nothing) (given d rfl) (freed d rfl _) (fun _ nothing => nomatch nothing) (exited_before shared _ thread _ rfl)
  | exit =>
      cases stepped
      rw [← place]
      exact consumer_moves test shared _ testers queue thread taken relayed id .exit .gone here (by rw [here]; rfl) ⟨rfl, rfl⟩
        rfl (fun _ nothing => nomatch nothing) still (alike _ rfl) (fun _ nothing => nomatch nothing) (exited_now shared thread _ rfl)
  | testEmpty => cases stepped
  | drain => cases stepped
  | gone => cases stepped

theorem test_moves (relayed : Relayed test shared testers queue taken) (pc pc' : TestPc) (here : testers 0 = .main pc)
    (frame : next.hin = shared.hin ∧ next.hout = shared.hout ∧ next.slocks = shared.slocks ∧ next.exited = shared.exited)
    (joined : test.Joined next testers pc') : Moves test shared next testers queue 0 (.main pc') taken := by
  refine calm_moves test shared next testers queue 0 _ taken relayed ⟨by rw [here]; rfl, Tester.Role.noConfusion⟩ (by rw [here]; rfl) ?_
    ⟨frame.1, frame.2.1⟩ (by rw [here]; rfl) (by rw [here]; rfl) trivial (fun _ nothing => nomatch nothing) ?_
    (owned_same test shared next testers 0 _ (by rw [here]; rfl) frame.2.2.1) (fun _ _ nothing => nomatch nothing)
    (exited_before shared next 0 _ frame.2.2.2)
  · intro other same
    cases same
    exact joined
  · intro other k _ within
    rw [frame.2.2.1]
    exact relayed.locked other k within

theorem main_moves (relayed : Relayed test shared testers queue taken) (pc pc' : TestPc) (here : testers 0 = .main pc)
    (stepped : test.main shared pc = some (next, pc')) : Moves test shared next testers queue 0 (.main pc') taken := by
  have joined := relayed.main pc here
  cases pc with
  | startProducer i =>
      simp only [main] at stepped
      split at stepped <;> cases stepped
      · exact test_moves test shared _ testers queue taken relayed _ _ here ⟨rfl, rfl, rfl, rfl⟩ trivial
      · exact test_moves test shared _ testers queue taken relayed _ _ here ⟨rfl, rfl, rfl, rfl⟩ trivial
  | startConsumer i =>
      simp only [main] at stepped
      split at stepped <;> cases stepped
      · exact test_moves test shared _ testers queue taken relayed _ _ here ⟨rfl, rfl, rfl, rfl⟩ trivial
      · exact test_moves test shared _ testers queue taken relayed _ _ here ⟨rfl, rfl, rfl, rfl⟩
          (fun i less => absurd less (Nat.not_lt_zero i))
  | joinProducer i =>
      simp only [main] at stepped
      split at stepped
      · obtain ⟨exited, result⟩ := Option.ite_none_right_eq_some.mp stepped
        cases result
        refine test_moves test shared _ testers queue taken relayed _ _ here ⟨rfl, rfl, rfl, rfl⟩ (fun j less => ?_)
        rcases Nat.lt_succ_iff_lt_or_eq.mp less with before | rfl
        · exact joined j before
        · exact relayed.exited _ exited
      · cases stepped
        exact test_moves test shared _ testers queue taken relayed _ _ here ⟨rfl, rfl, rfl, rfl⟩
          ⟨fun j less => joined j (by omega), fun j less => absurd less (Nat.not_lt_zero j)⟩
  | joinConsumer i =>
      simp only [main] at stepped
      split at stepped
      · obtain ⟨exited, result⟩ := Option.ite_none_right_eq_some.mp stepped
        cases result
        refine test_moves test shared _ testers queue taken relayed _ _ here ⟨rfl, rfl, rfl, rfl⟩ ⟨joined.1, fun j less => ?_⟩
        rcases Nat.lt_succ_iff_lt_or_eq.mp less with before | rfl
        · exact joined.2 j before
        · exact relayed.exited _ exited
      · cases stepped
        exact test_moves test shared _ testers queue taken relayed _ _ here ⟨rfl, rfl, rfl, rfl⟩
          ⟨⟨joined.1, fun j less => joined.2 j (by omega)⟩, Nat.zero_le _, fun _ k none => absurd none (Nat.not_lt_zero k), fun _ => rfl⟩
  | compare i same =>
      obtain ⟨gone, bound, agreed⟩ := joined
      cases stepped
      by_cases more : i < test.producers
      · rw [if_pos more]
        refine test_moves test shared _ testers queue taken relayed _ _ here ⟨rfl, rfl, rfl, rfl⟩ ⟨gone, more, ?_⟩
        rw [Bool.and_eq_true, agreed, HashSignature.equals_iff]
        constructor
        · rintro ⟨before, last⟩ k less
          rcases Nat.lt_succ_iff_lt_or_eq.mp less with earlier | rfl
          · exact before k earlier
          · exact last
        · exact fun all => ⟨fun k less => all k (Nat.lt_succ_of_lt less), all i (Nat.lt_succ_self i)⟩
      · rw [if_neg more]
        have last : i = test.producers := by omega
        subst last
        exact test_moves test shared _ testers queue taken relayed _ _ here ⟨rfl, rfl, rfl, rfl⟩ ⟨gone, agreed⟩
  | awaitFirst => cases stepped
  | verdict same => cases stepped

-- A push that succeeds puts the next element of the producer's stream.
theorem push_moves (relayed : Relayed test shared testers queue taken) (id i : Nat) (here : testers thread = .producer id .push i)
    (pushed : queue.push? (test.element id i) = some rest) :
    Moves test shared shared testers rest thread (.producer id .test (i + 1)) taken := by
  obtain ⟨place, less⟩ := place_producer test shared testers queue thread taken relayed id i .push here
  have role : test.role thread = .producer id := by rw [← relayed.roles thread, here]; rfl
  have fed := relayed.fed thread
  rw [here] at fed
  have held : (Tester.producer id .test (i + 1) : Tester Data).held test = (testers thread).held test := by rw [here]; rfl
  have put : test.put testers id = i := by rw [HashTest.put, ← place, here]; rfl
  have more : test.put (Function.update testers thread (.producer id .test (i + 1))) =
      Function.update (test.put testers) id (test.put testers id + 1) := funext fun k => by
    by_cases same : k = id
    · rw [same, HashTest.put, ← place, Function.update_self, Function.update_self, put]
      rfl
    · have other : test.producer k ≠ thread := by
        rw [place]
        exact fun same' => same (Nat.add_left_cancel same')
      rw [HashTest.put, Function.update_of_ne other, Function.update_of_ne same]
      rfl
  refine ⟨⟨by rw [here]; rfl, by rw [role]; exact Tester.Role.noConfusion⟩, by rw [here]; rfl, (fun _ nothing => nomatch nothing), ?_,
    ?_, (fun _ nothing => nomatch nothing), relayed.signed, ⟨⟨fed.1, fed.2⟩, fun other _ => relayed.fed other⟩,
    (fun _ nothing => nomatch nothing), fun other k _ => relayed.locked other k,
    owned_same test shared _ testers thread _ (by rw [here]; rfl) rfl, (fun _ _ nothing => nomatch nothing),
    (fun _ _ _ _ _ => rfl), exited_before shared _ thread _ rfl⟩
  · have merged := Streams.merged_put test.hindex test.element queue.items taken _ id relayed.merged (by
      rw [put, test.hindex_element id i less])
    rw [put] at merged
    rw [more, (Fifo.push_items queue rest _ pushed).2.2, put]
    exact merged
  · rw [held, Function.update_eq_self]
    exact relayed.turns

-- A pop that succeeds takes the next element of some producer's stream.
theorem take_moves (relayed : Relayed test shared testers queue taken) (id : Nat) (d : Data) (here : testers thread = .consumer id .drain)
    (popped : queue.pop? = some (d, rest)) :
    Moves test shared shared testers rest thread (.consumer id (.lock d))
      (Function.update taken (test.hindex d) (taken (test.hindex d) + 1)) := by
  have role : test.role thread = .consumer id := by rw [← relayed.roles thread, here]; rfl
  have items := relayed.merged
  rw [(Fifo.pop_items queue rest d popped).1] at items
  obtain ⟨first, less, merged⟩ := Streams.merged_take test.hindex test.element rest.items taken _ d items
  have small := Nat.lt_of_lt_of_le less (put_bound test shared testers queue taken relayed (test.hindex d))
  have number : test.number d = taken (test.hindex d) := by
    rw [first, test.hindex_element _ _ (put_producer test shared testers queue taken relayed _ (Nat.lt_of_le_of_lt (Nat.zero_le _) less))]
    exact test.number_element _ _ (Nat.lt_trans small test.loops.isLt)
  refine ⟨⟨by rw [here]; rfl, by rw [role]; exact Tester.Role.noConfusion⟩, by rw [here]; rfl, (fun _ nothing => nomatch nothing), ?_,
    ?_, ?_, relayed.signed, ⟨trivial, fun other _ => relayed.fed other⟩,
    (fun _ nothing => nomatch nothing), fun other k _ => relayed.locked other k,
    owned_same test shared _ testers thread _ (by rw [here]; rfl) rfl, (fun _ _ nothing => nomatch nothing),
    (fun _ _ _ _ _ => rfl), exited_before shared _ thread _ rfl⟩
  · rw [put_same test testers thread _ (by rw [here]; rfl)]
    exact merged
  · have held : (Tester.consumer id (.lock d)).held test = some (test.hindex d, taken (test.hindex d)) := by rw [← number]; rfl
    rw [held]
    exact Streams.turns_take shared.served taken _ thread (test.hindex d) relayed.turns (by simp only [here]; rfl)
  · intro other same
    cases same
    rw [number]
    exact first

-- A call that returns without an element only moves its consumer on.
theorem look_moves (relayed : Relayed test shared testers queue taken) (id : Nat) (pc pc' : ConsumerPc Data)
    (here : testers thread = .consumer id pc) (running : (testers thread).gone = false)
    (looking : pc.guarded = none) (same : pc'.element = pc.element) (free : pc'.guarded = none) :
    Relayed test shared (Function.update testers thread (.consumer id pc')) queue taken := by
  have unguarded (d : Data) : pc'.guarded ≠ some d := fun own => by rw [free] at own; cases own
  exact relayed_moves test shared shared testers queue queue thread _ taken taken relayed
    (consumer_moves test shared shared testers queue thread taken relayed id pc pc' here running ⟨rfl, rfl⟩ same
      (fun d own => absurd own (unguarded d)) (fun other k _ => relayed.locked other k)
      (fun k locked => .inr ⟨locked, by rw [looking]; exact fun nothing => nomatch nothing⟩) (fun d adds => absurd (by rw [adds]; rfl) (unguarded d)) (exited_before shared shared thread _ rfl))

theorem tester_call (tester : Tester Data) (call : Call config Data) (calls : tester.call test = some call) :
    (tester = .main .awaitFirst ∧ call = .empty) ∨ (∃ id i, tester = .producer id .push i ∧ call = .push (test.element id i)) ∨
      (∃ id, tester = .consumer id .testEmpty ∧ call = .empty) ∨ ∃ id, tester = .consumer id .drain ∧ call = .pop := by
  cases tester with
  | main pc =>
      cases pc with
      | awaitFirst => cases calls; exact .inl ⟨rfl, rfl⟩
      | _ => cases calls
  | producer id pc i =>
      cases pc with
      | push => cases calls; exact .inr (.inl ⟨id, i, rfl, rfl⟩)
      | _ => cases calls
  | consumer id pc =>
      cases pc with
      | testEmpty => cases calls; exact .inr (.inr (.inl ⟨id, rfl, rfl⟩))
      | drain => cases calls; exact .inr (.inr (.inr ⟨id, rfl, rfl⟩))
      | _ => cases calls
  | nobody => cases calls

theorem element_gone (tester : Tester Data) (gone : tester.gone = true) : tester.element = none := by
  cases tester with
  | consumer id pc => cases pc <;> first | rfl | cases gone
  | _ => rfl

-- When every thread is gone, all that has been popped has been added.
theorem served_gone (relayed : Relayed test shared testers queue taken) (gone : test.AllGone testers) (k : Nat) :
    shared.served k = taken k := by
  refine Streams.turns_done shared.served taken _ k relayed.turns (fun other => ?_)
  cases here : testers other with
  | consumer id pc =>
      obtain ⟨place, less⟩ := place_consumer test shared testers queue other taken relayed id pc here
      have ended := gone.2 id less
      rw [← place, here] at ended
      rw [Tester.held, element_gone _ ended]
      rfl
  | _ => rfl

theorem put_gone (relayed : Relayed test shared testers queue taken) (gone : test.AllGone testers) (k : Nat) (less : k < test.producers) :
    test.put testers k = test.loops.toNat ∧ shared.hin k = test.signature test.loops.toNat := by
  have ended := gone.1 k less
  have fed := relayed.fed (test.producer k)
  have role := (relayed.roles (test.producer k)).trans (producer_role test k less)
  rw [put]
  cases here : testers (test.producer k) with
  | producer id pc i =>
      rw [here] at ended fed role
      cases role
      cases pc with
      | gone =>
          have last : i = test.loops.toNat := fed.2
          rw [← last]
          exact ⟨rfl, fed.1⟩
      | _ => cases ended
  | _ => rw [here] at role; cases role

theorem signature_eq_iff (served loops : Nat) (small : served < 2 ^ 64) (fits : loops < 2 ^ 64) :
    test.signature loops = test.signature served ↔ served = loops := by
  constructor
  · intro same
    have counts := congrArg (fun signature => signature.count.toNat) same
    simp only [signature_count, BitVec.toNat_ofNat, Nat.mod_eq_of_lt small, Nat.mod_eq_of_lt fits] at counts
    exact counts.symm
  · intro same
    rw [same]

theorem served_bound (relayed : Relayed test shared testers queue taken) (k : Nat) : shared.served k ≤ test.loops.toNat :=
  Nat.le_trans (relayed.turns.behind k) (Nat.le_trans (relayed.merged k).1 (put_bound test shared testers queue taken relayed k))

theorem verdict_empty (relayed : Relayed test shared testers queue taken) (same : Bool) (here : testers 0 = .main (.verdict same)) :
    same = true ↔ queue.items = [] := by
  obtain ⟨gone, agreed⟩ := relayed.main _ here
  have wide := test.loops.isLt
  have equal (k : Nat) (less : k < test.producers) : shared.hin k = shared.hout k ↔ taken k = test.put testers k := by
    obtain ⟨put, fed⟩ := put_gone test shared testers queue taken relayed gone k less
    have bound := served_bound test shared testers queue taken relayed k
    rw [fed, relayed.signed k, signature_eq_iff test _ _ (by omega) (by omega), put,
      served_gone test shared testers queue taken relayed gone k]
  rw [agreed, Streams.merged_done test.hindex test.element queue.items taken _ relayed.merged]
  constructor
  · intro all k
    by_cases less : k < test.producers
    · exact (equal k less).mp (all k less)
    · have none : ¬ 0 < test.put testers k := fun some => less (put_producer test shared testers queue taken relayed k some)
      have bound := (relayed.merged k).1
      omega
  · exact fun all k less => (equal k less).mpr (all k)

theorem reply_element (tester : Tester Data) (call : Call config Data) (reply : Reply config Data) (d : Data)
    (calls : tester.call test = some call) (popped : (tester.reply reply).element = some d) :
    ∃ id number, tester = .consumer id .drain ∧ reply = .done (some d) number := by
  rcases tester_call test tester call calls with ⟨rfl, _⟩ | ⟨id, i, rfl, _⟩ | ⟨id, rfl, _⟩ | ⟨id, rfl, _⟩
  · cases reply <;> cases popped
  · cases reply <;> cases popped
  · cases reply <;> cases popped
  · cases reply with
    | done data number =>
        cases data with
        | none => cases popped
        | some e =>
            cases popped
            exact ⟨id, number, rfl, rfl⟩
    | _ => cases popped

variable [DecidableEq Data]

theorem hash_single : Service.Single (hashProgram config test) (queueSpec config Data) := by
  intro thread tester call queue lagging calls
  rcases tester_call test tester call calls with ⟨_, rfl⟩ | ⟨id, i, _, rfl⟩ | ⟨id, _, rfl⟩ | ⟨id, _, rfl⟩
  · exact ⟨_, congrArg Prod.snd (empty_commit queue lagging)⟩
  · exact ⟨_, congrArg Prod.snd (single_commit queue (.push (test.element id i)) lagging rfl)⟩
  · exact ⟨_, congrArg Prod.snd (empty_commit queue lagging)⟩
  · exact ⟨_, congrArg Prod.snd (single_commit queue .pop lagging rfl)⟩

theorem hash_keeps (inTurn : test.InTurn) : Service.Keeps (hashProgram config test) (queueSpec config Data)
    (fun shared testers queue => ∃ taken, Relayed test shared testers queue taken) where
  initial := ⟨_, relayed_initial test⟩
  own := by
    rintro shared testers queue thread _ next after ⟨taken, relayed⟩ stepped
    refine ⟨taken, ?_⟩
    cases here : testers thread with
    | main pc =>
        have main : thread = 0 := role_main test thread (by rw [← relayed.roles thread, here]; rfl)
        subst main
        rw [here] at stepped
        obtain ⟨⟨made, pc'⟩, moved, result⟩ := Option.map_eq_some_iff.mp stepped
        cases result
        exact relayed_moves test shared made testers queue queue 0 _ taken taken relayed
          (main_moves test shared made testers queue taken relayed pc pc' here moved)
    | producer id pc i =>
        rw [here] at stepped
        obtain ⟨⟨made, pc'⟩, moved, result⟩ := Option.map_eq_some_iff.mp stepped
        cases result
        exact relayed_moves test shared made testers queue queue thread _ taken taken relayed
          (produce_moves test shared made testers queue thread taken relayed id i pc pc' here moved)
    | consumer id pc =>
        rw [here] at stepped
        obtain ⟨⟨made, pc'⟩, moved, result⟩ := Option.map_eq_some_iff.mp stepped
        cases result
        exact relayed_moves test shared made testers queue queue thread _ taken taken relayed
          (consume_moves test shared made testers queue thread taken inTurn relayed id pc pc' here moved)
    | nobody => rw [here] at stepped; cases stepped
  call := by
    rintro shared testers queue thread call lagging reply ⟨taken, relayed⟩ calls decided
    have still (answer : Reply config Data) (same : testers thread = (testers thread).reply answer) :
        Relayed test shared (Function.update testers thread ((testers thread).reply answer)) queue taken := by
      rw [← same, Function.update_eq_self]
      exact relayed
    rcases tester_call test _ call calls with ⟨here, rfl⟩ | ⟨id, i, here, rfl⟩ | ⟨id, here, rfl⟩ | ⟨id, here, rfl⟩
    · rw [empty_commit queue lagging] at decided ⊢
      cases decided
      by_cases empty : queue.pop? = none ∧ lagging = false
      · exact ⟨taken, still _ (by rw [here, if_pos empty]; rfl)⟩
      · refine ⟨taken, relayed_moves test shared shared testers queue queue thread _ taken taken relayed ?_⟩
        have main : thread = 0 := role_main test thread (by rw [← relayed.roles thread, here]; rfl)
        subst main
        simp only [hashProgram, here, if_neg empty, Tester.reply]
        exact test_moves test shared shared testers queue taken relayed _ _ here ⟨rfl, rfl, rfl, rfl⟩ trivial
    · rw [single_commit queue (.push (test.element id i)) lagging rfl] at decided ⊢
      cases decided
      cases stored : queue.push? (test.element id i) with
      | none =>
          simp only [hashProgram, Call.reference, stored]
          exact ⟨taken, still _ (by rw [here]; rfl)⟩
      | some rest =>
          simp only [hashProgram, here, Call.reference, stored, Tester.reply]
          exact ⟨taken, relayed_moves test shared shared testers queue rest thread _ taken taken relayed
            (push_moves test shared testers queue rest thread taken relayed id i here stored)⟩
    · rw [empty_commit queue lagging] at decided ⊢
      cases decided
      by_cases empty : queue.pop? = none ∧ lagging = false
      · simp only [hashProgram, here, if_pos empty, Tester.reply]
        exact ⟨taken, look_moves test shared testers queue thread taken relayed id .testEmpty .testCount here
          (by rw [here]; rfl) rfl rfl rfl⟩
      · simp only [hashProgram, here, if_neg empty, Tester.reply]
        exact ⟨taken, look_moves test shared testers queue thread taken relayed id .testEmpty .drain here
          (by rw [here]; rfl) rfl rfl rfl⟩
    · rw [single_commit queue .pop lagging rfl] at decided ⊢
      cases decided
      cases popped : queue.pop? with
      | none =>
          simp only [hashProgram, here, Call.reference, popped, Tester.reply]
          exact ⟨taken, look_moves test shared testers queue thread taken relayed id .drain .testEmpty here
            (by rw [here]; rfl) rfl rfl rfl⟩
      | some pair =>
          simp only [hashProgram, here, Call.reference, popped, Tester.reply]
          exact ⟨_, relayed_moves test shared shared testers queue pair.2 thread _ taken _ relayed
            (take_moves test shared testers queue pair.2 thread taken relayed id pair.1 here popped)⟩

def Inside (state : Service.Hosted (Tester Data) HashShared (System config Data)) (thread k : Nat) : Prop :=
  ∃ id pc d, state.threads thread = .own (.consumer id pc) ∧ pc.guarded = some d ∧ test.hindex d = k

-- A thread inside the guard is in no call of the queue.
theorem inside_own (state : Service.Hosted (Tester Data) HashShared (System config Data))
    (progress : Option (Service.Progress (Standing config Data) (Reply config Data))) (tester : Tester Data)
    (agree : Service.Agrees (hashProgram config test) (queueSpec config Data) thread (state.threads thread) progress tester) (k : Nat) :
    tester.inside test = some k ↔ Inside test state thread k := by
  constructor
  · intro within
    cases running : state.threads thread with
    | own locals =>
        rw [running] at agree
        rw [Service.agrees_own _ _ thread locals tester _ agree] at within
        cases locals with
        | consumer id pc =>
            obtain ⟨d, guarded, same⟩ := Option.map_eq_some_iff.mp within
            exact ⟨id, pc, d, running, guarded, same⟩
        | _ => cases within
    | waiting locals =>
        rw [running] at agree
        have outside (call : Call config Data) (calls : locals.call test = some call) (reply : Reply config Data) :
            locals.inside test = none ∧ (locals.reply reply).inside test = none := by
          rcases tester_call test locals call calls with ⟨rfl, _⟩ | ⟨id, i, rfl, _⟩ | ⟨id, rfl, _⟩ | ⟨id, rfl, _⟩
          · cases reply <;> exact ⟨rfl, rfl⟩
          · cases reply <;> exact ⟨rfl, rfl⟩
          · cases reply <;> exact ⟨rfl, rfl⟩
          · cases reply with
            | done data number => cases data <;> exact ⟨rfl, rfl⟩
            | _ => exact ⟨rfl, rfl⟩
        cases progress with
        | none => exact agree.elim
        | some progressed =>
            cases progressed with
            | active stage =>
                obtain ⟨rfl, call, calls, _⟩ := agree
                cases (outside call calls .failed).1.symm.trans within
            | decided reply =>
                obtain ⟨rfl, call, calls⟩ := agree
                cases (outside call calls reply).2.symm.trans within
  · rintro ⟨id, pc, d, running, guarded, same⟩
    rw [running] at agree
    rw [Service.agrees_own _ _ thread _ tester _ agree]
    exact Option.map_eq_some_iff.mpr ⟨d, guarded, same⟩

variable [Zero Data]

-- The test's threads on the queue itself, at any interleaving of their accesses to it.
def machine (config : Config) : Transition.Machine (Service.Hosted (Tester Data) HashShared (System config Data)) (Service.HostedAction Unit Nat) :=
  Service.hosted (hashProgram config test) (queueObject config Data)

def Reached (state : Service.Hosted (Tester Data) HashShared (System config Data)) : Prop :=
  Transition.Reachable (test.machine config) (Service.Permits fun system thread => system.Timely (.step thread)) state

theorem relayed_reached (inTurn : test.InTurn) (state : Service.Hosted (Tester Data) HashShared (System config Data))
    (reached : test.Reached state) :
    ∃ atomic testers taken, Refines state.object atomic ∧ Relayed test state.shared testers atomic.value taken ∧
      ∀ thread, Service.Agrees (hashProgram config test) (queueSpec config Data) thread (state.threads thread) (atomic.pending thread)
        (testers thread) := by
  obtain ⟨atomic, refines, testers, ⟨taken, relayed⟩, agree⟩ := Service.hosted_keeps (hashProgram config test)
    (queueSpec config Data) _ (queueObject config Data) (fun system thread => system.Timely (.step thread))
    Refines queue_simulates (hash_single test) (hash_keeps test inTurn) state reached
  exact ⟨atomic, testers, taken, refines, relayed, agree⟩

-- A consumer has an element once its pop has taken it, whether the pop has returned or not.
def Has (state : Service.Hosted (Tester Data) HashShared (System config Data)) (thread : Nat) (d : Data) : Prop :=
  (∃ id pc, state.threads thread = .own (.consumer id pc) ∧ pc.element = some d) ∨
    ∃ id number, state.threads thread = .waiting (.consumer id .drain) ∧
      (state.object.tasks thread).map Task.progress = some (.decided (.done (some d) number))

theorem element_has (state : Service.Hosted (Tester Data) HashShared (System config Data))
    (atomic : Service.Atomic (Fifo Data config.size) (Standing config Data) (Reply config Data)) (refines : Refines state.object atomic)
    (tester : Tester Data) (agree : Service.Agrees (hashProgram config test) (queueSpec config Data) thread (state.threads thread)
      (atomic.pending thread) tester) (d : Data) (popped : tester.element = some d) : Has state thread d := by
  have pending := refines.pending thread
  cases running : state.threads thread with
  | own locals =>
      rw [running] at agree
      have same := Service.agrees_own _ _ thread locals tester _ agree
      subst same
      cases tester with
      | consumer id pc => exact .inl ⟨id, pc, running, popped⟩
      | _ => cases popped
  | waiting locals =>
      rw [running] at agree
      cases progress : atomic.pending thread with
      | none => rw [progress] at agree; exact agree.elim
      | some progressed =>
          rw [progress] at agree pending
          cases progressed with
          | active stage =>
              obtain ⟨rfl, call, calls, _⟩ := agree
              rcases tester_call test tester call calls with ⟨rfl, _⟩ | ⟨id, i, rfl, _⟩ | ⟨id, rfl, _⟩ | ⟨id, rfl, _⟩ <;> cases popped
          | decided reply =>
              obtain ⟨rfl, call, calls⟩ := agree
              obtain ⟨id, number, rfl, rfl⟩ := reply_element test locals call reply d calls popped
              exact .inr ⟨id, number, running, pending.symm⟩

theorem has_element (state : Service.Hosted (Tester Data) HashShared (System config Data))
    (atomic : Service.Atomic (Fifo Data config.size) (Standing config Data) (Reply config Data)) (refines : Refines state.object atomic)
    (tester : Tester Data) (agree : Service.Agrees (hashProgram config test) (queueSpec config Data) thread (state.threads thread)
      (atomic.pending thread) tester) (d : Data) (has : Has state thread d) : tester.element = some d := by
  rcases has with ⟨id, pc, running, popped⟩ | ⟨id, number, running, decided⟩
  · rw [running] at agree
    rw [Service.agrees_own _ _ thread _ tester _ agree]
    exact popped
  · rw [running, refines.pending thread, decided] at agree
    rw [agree.1]
    rfl

end HashTest

section

variable {config : Config} {Data : Type} [DecidableEq Data] [Zero Data] (test : HashTest Data)

-- What has been added to an output signature are the first inputs of its producer, in order; and
-- the test ends well exactly when its consumers have not left anything in the queue.
theorem hash_verdict (inTurn : test.InTurn) (state : Service.Hosted (Tester Data) HashShared (System config Data))
    (reached : test.Reached state) :
    (∀ k, state.shared.hout k = test.signature (state.shared.served k) ∧ state.shared.served k ≤ test.loops.toNat) ∧
      ∀ same, state.threads 0 = .own (.main (.verdict same)) →
        (same = true ↔ stores state.object.log = takes state.object.log) := by
  obtain ⟨atomic, testers, taken, refines, relayed, agree⟩ := HashTest.relayed_reached test inTurn state reached
  refine ⟨fun k => ⟨relayed.signed k, HashTest.served_bound test state.shared testers atomic.value taken relayed k⟩, fun same ended => ?_⟩
  have here : testers 0 = .main (.verdict same) := Service.agrees_own _ _ 0 _ _ _ (ended ▸ agree 0)
  obtain ⟨total, first⟩ := contents_counts state.object.log atomic.value refines.value
  rw [HashTest.verdict_empty test state.shared testers atomic.value taken relayed same here, ← total, ← first, Fifo.total,
    Nat.add_eq_left, List.length_eq_zero_iff]

end

theorem hash2_in_turn (producers : Nat) (loops : BitVec 32) (fits : producers ≤ 256) : (hash2 producers 1 loops fits).InTurn := .inl rfl

theorem hash3_in_turn (producers consumers : Nat) (loops : BitVec 32) (fits : producers ≤ 256) :
    (hash3 producers consumers loops fits).InTurn := by
  refine .inr fun d count ready => ?_
  have same : d.seqNum.setWidth 64 = count := eq_of_beq ready
  rw [← same, BitVec.toNat_setWidth, Nat.mod_eq_of_lt (Nat.lt_trans d.seqNum.isLt (by decide))]
  rfl

theorem one_id : 1 ≤ 256 := by decide

-- The producer pushes its second element when the consumer has seen the queue empty, and is gone
-- when the consumer asks whether a producer is left.
def hashRun : List (Service.HostedAction Unit Nat) :=
  Service.repeated [(2, .own 0 ()), (3, .own 1 ()), (1, .invoke 1), (4, .move 1), (1, .invoke 0), (2, .move 0), (2, .own 0 ()),
    (1, .own 2 ()), (1, .invoke 2), (2, .move 2), (1, .invoke 2), (4, .move 2), (4, .own 2 ()), (1, .invoke 2), (2, .move 2),
    (2, .own 1 ()), (1, .invoke 1), (4, .move 1), (3, .own 1 ()), (2, .own 2 ()), (6, .own 0 ())]

theorem hash_run_completes : (Transition.checkedRun (HashTest.machine (hash2 1 1 2 one_id) smallQueue)
    (Service.Permits fun system thread => system.Timely (.step thread)) hashRun
    (HashTest.machine (hash2 1 1 2 one_id) smallQueue).start).isSome = true := by decide +kernel

theorem hash_verdict_missed :
    let state := (Transition.checkedRun (HashTest.machine (hash2 1 1 2 one_id) smallQueue)
      (Service.Permits fun system thread => system.Timely (.step thread)) hashRun
      (HashTest.machine (hash2 1 1 2 one_id) smallQueue).start).get hash_run_completes
    state.threads 0 = .own (.main (.verdict false)) ∧ stores state.object.log ≠ takes state.object.log := by
  intro state
  have path := Transition.checked_run_path (HashTest.machine (hash2 1 1 2 one_id) smallQueue) _ hashRun _ state
    (Option.some_get hash_run_completes).symm
  have ended : state.threads 0 = .own (.main (.verdict false)) := by decide +kernel
  clear_value state
  refine ⟨ended, fun same => ?_⟩
  have verdict := (hash_verdict (hash2 1 1 2 one_id) (hash2_in_turn 1 2 one_id) state ⟨hashRun, path⟩).2 false ended
  exact absurd (verdict.mpr same) Bool.false_ne_true

-- No consumer of hash3 waits in vain: a lock that is taken has one owner, which gives it back, and
-- of a producer's elements that are held there is always the one that comes next.
theorem hash3_turns (config : Config) (producers consumers : Nat) (loops : BitVec 32) (fits : producers ≤ 256)
    (state : Service.Hosted (Tester Data3) HashShared (System config Data3))
    (reached : (hash3 producers consumers loops fits).Reached state) :
    (∀ k, state.shared.slocks k = true ↔ ∃ thread, HashTest.Inside (hash3 producers consumers loops fits) state thread k) ∧
      (∀ thread other k, HashTest.Inside (hash3 producers consumers loops fits) state thread k →
        HashTest.Inside (hash3 producers consumers loops fits) state other k → thread = other) ∧
      ∀ thread d, HashTest.Has state thread d → ∃ other e, HashTest.Has state other e ∧ e.hindex = d.hindex ∧
        (hash3 producers consumers loops fits).ready e (state.shared.hout d.hindex.toNat).count = true := by
  obtain ⟨atomic, testers, taken, refines, relayed, agree⟩ :=
    HashTest.relayed_reached _ (hash3_in_turn producers consumers loops fits) state reached
  have inside (thread k : Nat) := HashTest.inside_own (hash3 producers consumers loops fits) thread state _ _ (agree thread) k
  refine ⟨fun k => ⟨fun locked => ?_, ?_⟩, fun thread other k first second => ?_, fun thread d has => ?_⟩
  · obtain ⟨thread, within⟩ := relayed.owned k locked
    exact ⟨thread, (inside thread k).mp within⟩
  · rintro ⟨thread, within⟩
    exact relayed.locked thread k ((inside thread k).mpr within)
  · exact relayed.apart thread other k ((inside thread k).mpr first) ((inside other k).mpr second)
  · have popped := HashTest.has_element _ thread state atomic refines _ (agree thread) d has
    have held : (testers thread).held (hash3 producers consumers loops fits) = some (d.hindex.toNat, d.seqNum.toNat) := by
      rw [Tester.held, popped]
      rfl
    obtain ⟨other, next⟩ := Streams.turns_next state.shared.served taken _ thread _ relayed.turns _ held
    obtain ⟨e, taken, place⟩ := Option.map_eq_some_iff.mp next
    obtain ⟨same, turn⟩ := (Prod.mk.injEq _ _ _ _).mp place
    refine ⟨other, e, HashTest.element_has _ other state atomic refines _ (agree other) e taken, BitVec.eq_of_toNat_eq same, ?_⟩
    refine beq_iff_eq.mpr (BitVec.eq_of_toNat_eq ?_)
    rw [BitVec.toNat_setWidth, Nat.mod_eq_of_lt (Nat.lt_trans e.seqNum.isLt (by decide))]
    exact turn

-- The first consumer's pop has taken element 0 and not returned, and the second has element 1.
def turnsRun : List (Service.HostedAction Unit Nat) :=
  Service.repeated [(2, .own 0 ()), (3, .own 1 ()), (1, .invoke 1), (4, .move 1), (2, .own 1 ()), (1, .invoke 1), (4, .move 1),
    (1, .invoke 0), (2, .move 0), (3, .own 0 ()), (1, .own 2 ()), (1, .invoke 2), (2, .move 2), (1, .invoke 2), (3, .move 2),
    (1, .own 3 ()), (1, .invoke 3), (2, .move 3), (1, .invoke 3), (7, .move 3)]

theorem turns_run_completes : (Transition.checkedRun (HashTest.machine (hash3 1 2 2 one_id) smallQueue)
    (Service.Permits fun system thread => system.Timely (.step thread)) turnsRun
    (HashTest.machine (hash3 1 2 2 one_id) smallQueue).start).isSome = true := by decide +kernel

theorem hash3_turns_waiting :
    let state := (Transition.checkedRun (HashTest.machine (hash3 1 2 2 one_id) smallQueue)
      (Service.Permits fun system thread => system.Timely (.step thread)) turnsRun
      (HashTest.machine (hash3 1 2 2 one_id) smallQueue).start).get turns_run_completes
    state.threads 3 = .own (.consumer 1 (.lock ⟨1, 1, 0⟩)) ∧
      ∃ other e, HashTest.Has state other e ∧ e.hindex = 0 ∧ (hash3 1 2 2 one_id).ready e (state.shared.hout 0).count = true := by
  intro state
  have path := Transition.checked_run_path (HashTest.machine (hash3 1 2 2 one_id) smallQueue) _ turnsRun _ state
    (Option.some_get turns_run_completes).symm
  have waiting : state.threads 3 = .own (.consumer 1 (.lock ⟨1, 1, 0⟩)) := by decide +kernel
  clear_value state
  exact ⟨waiting, (hash3_turns smallQueue 1 2 2 one_id state ⟨turnsRun, path⟩).2.2 3 ⟨1, 1, 0⟩ (.inl ⟨1, _, waiting, rfl⟩)⟩

end LockfreeQueue
