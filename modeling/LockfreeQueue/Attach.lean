import LockfreeQueue.Create

set_option autoImplicit false

namespace LockfreeQueue

open Bytes

namespace Instantiation

-- Two instantiations that see the same slots in the same bytes, so that what is a queue to the
-- one is a queue to the other.
structure Compatible (q other : Instantiation) : Prop where
  slots : q.N = other.N
  index : q.indexBytes = other.indexBytes
  sequence : q.seqOffset = other.seqOffset
  data : q.dataSize = other.dataSize
  states : ∀ store base queue written consumed, Represents (q.decode store base) queue written consumed →
    ∃ queue written consumed, Represents (other.decode store base) queue written consumed

-- A constructor of the one has created the file; its counts and its queue may have changed since
-- when the header passes the check of the other.
def AttachesTo (q other : Instantiation) : Prop :=
  ∃ stack created later own, q.Opens File.created (.reading stack) created ∧ later.length = created.length ∧
    slice later.byte 0 q.described.length = slice created.byte 0 q.described.length ∧
    (other.advance later (.reading own)).2 = .attaching

theorem attaches_described (q other : Instantiation) (later : File) (own : Stack) (long : headerSize ≤ later.length)
    (described : slice later.byte 0 q.described.length = q.described) :
    (other.advance later (.reading own)).2 = .attaching ↔ q.N = other.N := by
  have accepts := q.accepts_front other later.byte described
  rw [advance, File.read_all later 0 headerSize (by omega), if_neg (fun missing => missing (slice_length _ _ _)), ← accepts]
  by_cases accepted : other.Accepts (slice later.byte 0 headerSize)
  · rw [if_pos accepted]
    exact iff_of_true rfl accepted
  · rw [if_neg accepted]
    exact iff_of_false (by simp) accepted

theorem attaches_iff (q other : Instantiation) : AttachesTo q other ↔ q.N = other.N := by
  have empty : File.created.length = 0 := rfl
  have short : File.created.length < headerSize := by decide
  have long : ∀ stack, headerSize ≤ (q.created File.created stack).length := fun stack => by
    rw [created_length, queueStart, headerSize]
    omega
  constructor
  · rintro ⟨stack, created, later, own, opens, length, same, attaching⟩
    have left := (q.create_opens _ created stack short).mp opens
    subst left
    exact (attaches_described q other later own (by rw [length]; exact long stack)
      (same.trans (q.created_described _ stack empty))).mp attaching
  · intro same
    have stack : Stack := ⟨List.replicate headerSize 0, List.length_replicate⟩
    exact ⟨stack, _, _, stack, (q.create_opens _ _ stack short).mpr rfl, rfl, rfl,
      (attaches_described q other _ stack (long stack) (q.created_described _ stack empty)).mpr same⟩

-- The flags that make push and pop lazy leave the bytes as they are.
theorem same_layout (q other : Instantiation) (slots : q.N = other.N) (data : q.dataSize = other.dataSize)
    (index : q.indexBytes = other.indexBytes) : Compatible q other := by
  cases q
  cases other
  cases slots
  cases data
  cases index
  refine ⟨rfl, rfl, rfl, rfl, fun store base queue written consumed represents => ⟨queue, written, consumed, ?_⟩⟩
  refine ⟨?_, ?_, represents.write, represents.writeLag, represents.read, represents.readLag⟩
  · intro k v held
    have full := represents.full k v held
    exact congrArg₂ Entry.mk (congrArg Entry.data full) (congrArg Entry.seq full)
  · intro k lower upper
    have empty := represents.empty k lower upper
    exact congrArg₂ Entry.mk (congrArg Entry.data empty) (congrArg Entry.seq empty)

-- The check tells queues apart by their number of slots alone.
theorem attach_compatible_iff (q other : Instantiation) : (AttachesTo q other → Compatible q other) ↔
    q.N ≠ other.N ∨ (q.dataSize = other.dataSize ∧ q.indexBytes = other.indexBytes) := by
  rw [attaches_iff]
  constructor
  · intro sound
    by_cases slots : q.N = other.N
    · exact .inr ⟨(sound slots).data, (sound slots).index⟩
    · exact .inl slots
  · rintro (different | ⟨data, index⟩) slots
    · exact absurd slots different
    · exact same_layout q other slots data index

end Instantiation

-- As smallShared, with eight bytes of data.
def wideShared : Instantiation where
  dataSize := 8
  indexBytes := 4
  N := 2
  lazyPush := false
  lazyPop := false
  filled := by decide
  indexWidth := smallShared.indexWidth
  unitValue := .inr rfl
  power := smallShared.power
  unsigned := smallShared.unsigned
  wideEnough := smallShared.wideEnough

-- Already the queue that the constructor leaves is none to a process that attaches with the wider
-- data: the sequence of its second slot lies where that process reads data.
theorem wide_attaches_small : Instantiation.AttachesTo smallShared wideShared ∧ ¬ Instantiation.Compatible smallShared wideShared ∧
    let created := smallShared.created File.created clearStack
    smallShared.decode created.byte queueStart = Memory.initial smallShared.config smallShared.Data ∧
      ∀ queue written consumed, ¬ Represents (wideShared.decode created.byte queueStart) queue written consumed := by
  refine ⟨(Instantiation.attaches_iff smallShared wideShared).mpr rfl, fun same => absurd same.data (by decide),
    (smallShared.empty_round_trips File.created clearStack rfl).fresh, ?_⟩
  intro queue written consumed represents
  have second : (wideShared.decode (smallShared.created File.created clearStack).byte queueStart).entry (wideShared.config.number 1) =
      ⟨8589934592, wideShared.config.emptySeq 0⟩ := by decide +kernel
  obtain ⟨k, _, _, _, ⟨_, v, _, full⟩ | ⟨_, empty⟩⟩ := slot_cases _ queue written consumed 1 represents
  · rw [second] at full
    exact wideShared.config.empty_ne_full 0 k (congrArg Entry.seq full)
  · rw [second] at empty
    have data : (8589934592 : wideShared.Data) = 0 := congrArg Entry.data empty
    exact absurd data (by decide)

end LockfreeQueue
