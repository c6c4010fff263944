import LockfreeQueue.Mapped
import LockfreeQueue.Shared

set_option autoImplicit false

namespace LockfreeQueue

open Bytes

-- The bytes of the local `header` before the read. Its initialisers write nothing that a
-- constructor that creates does not write again.
abbrev Stack := { bytes : List Byte // bytes.length = headerSize }

-- The constructor of shared_mpmc_queue up to its next access to the file, with the header and
-- the offset of its file descriptor. A constructor that fails ends the process or throws.
inductive Stage where
  | closed
  | reading (stack : Stack)
  | truncating (header : List Byte) (offset : Nat)
  | writing (header : List Byte) (offset : Nat)
  | mapping
  | building (rest : List (Nat × List Byte))
  | attaching
  | ready
  | failed

namespace Instantiation

section

variable (q : Instantiation)

-- The members that a constructor that creates assigns, over what its header held.
def built (header : List Byte) : List Byte := q.fields ++ header.drop q.fields.length

def advance (file : File) : Stage → File × Stage
  | .reading stack =>
      let r := file.read 0 headerSize
      if r.length ≠ headerSize then (file, .truncating (q.built (r ++ stack.val.drop r.length)) r.length)
      else if q.Accepts r then (file, .attaching)
      else (file, .failed)
  | .truncating header offset => (file.truncate (queueStart + q.size), .writing header offset)
  | .writing header offset => (file.write offset header, .mapping)
  | .mapping => (file, .building (q.construction queueStart))
  | .building (change :: rest) => (file.store change.1 change.2, .building rest)
  | .building [] => (file, .ready)
  | .attaching => (file, .ready)
  | .closed => (file, .closed)
  | .ready => (file, .ready)
  | .failed => (file, .failed)

-- A constructor that runs while no other process uses the file returns and leaves `final`.
inductive Opens : File → Stage → File → Prop where
  | returned (file : File) : Opens file .ready file
  | step (file final : File) (stage : Stage) (running : stage ≠ .ready)
      (later : Opens (q.advance file stage).1 (q.advance file stage).2 final) : Opens file stage final

-- What a constructor that creates has left in a file too short for a header.
def created (file : File) (stack : Stack) : File :=
  let r := file.read 0 headerSize
  ((file.truncate (queueStart + q.size)).write r.length (q.built (r ++ stack.val.drop r.length))).stores (q.construction queueStart)

theorem opens_ready (file final : File) : q.Opens file .ready final ↔ final = file := by
  constructor
  · intro run
    cases run with
    | returned => rfl
    | step _ _ _ running _ => exact absurd rfl running
  · intro same
    rw [same]
    exact .returned file

theorem opens_step (file final : File) (stage : Stage) (running : stage ≠ .ready) :
    q.Opens file stage final ↔ q.Opens (q.advance file stage).1 (q.advance file stage).2 final := by
  constructor
  · intro run
    cases run with
    | returned => exact absurd rfl running
    | step _ _ _ _ later => exact later
  · exact .step file final stage running

theorem opens_building (file final : File) (rest : List (Nat × List Byte)) :
    q.Opens file (.building rest) final ↔ final = file.stores rest := by
  induction rest generalizing file with
  | nil =>
      rw [opens_step _ _ _ _ (by simp)]
      exact q.opens_ready file final
  | cons change rest ih =>
      rw [opens_step _ _ _ _ (by simp)]
      exact ih (file.store change.1 change.2)

theorem create_opens (file final : File) (stack : Stack) (short : file.length < headerSize) :
    q.Opens file (.reading stack) final ↔ final = q.created file stack := by
  have missing : (file.read 0 headerSize).length ≠ headerSize := by
    rw [File.read_length]
    omega
  rw [opens_step _ _ _ _ (by simp), advance, if_pos missing, opens_step _ _ _ _ (by simp), advance, opens_step _ _ _ _ (by simp), advance,
    opens_step _ _ _ _ (by simp), advance, opens_building]
  rfl

theorem attach_opens (file final : File) (stack : Stack) (long : headerSize ≤ file.length) (accepted : q.Accepts (slice file.byte 0 headerSize)) :
    q.advance file (.reading stack) = (file, .attaching) ∧ (q.Opens file (.reading stack) final ↔ final = file) := by
  have attaches : q.advance file (.reading stack) = (file, .attaching) := by
    rw [advance, File.read_all file 0 headerSize (by omega)]
    exact (if_neg (fun missing => missing (slice_length _ _ _))).trans (if_pos accepted)
  refine ⟨attaches, ?_⟩
  rw [opens_step _ _ _ _ (by simp), attaches, opens_step _ _ _ _ (by simp), advance]
  exact q.opens_ready file final

theorem built_length (header : List Byte) (length : header.length = headerSize) : (q.built header).length = headerSize := by
  rw [built, List.length_append, List.length_drop, fields_length, length]
  decide

theorem read_stack (file : File) (stack : Stack) :
    (file.read 0 headerSize ++ stack.val.drop (file.read 0 headerSize).length).length = headerSize := by
  rw [List.length_append, List.length_drop, stack.property, File.read_length]
  omega

theorem created_length (file : File) (stack : Stack) : (q.created file stack).length = queueStart + q.size := by
  have count := file.read_length 0 headerSize
  have length := q.built_length _ (read_stack file stack)
  rw [created, File.stores_length]
  change max (queueStart + q.size) ((file.read 0 headerSize).length + (q.built _).length) = _
  rw [length, queueStart, headerSize] at *
  omega

theorem construction_inside (change : Nat × List Byte) (member : change ∈ q.construction queueStart) :
    queueStart ≤ change.1 ∧ change.1 + change.2.length ≤ queueStart + q.size := q.construction_in_queue queueStart change member

-- The new queue lies behind what the constructor wrote to the file before.
theorem created_byte (file : File) (stack : Stack) :
    (q.created file stack).byte = patches (patch (file.truncate (queueStart + q.size)).byte (file.read 0 headerSize).length
      (q.built (file.read 0 headerSize ++ stack.val.drop (file.read 0 headerSize).length))) (q.construction queueStart) := by
  have length := q.created_length file stack
  rw [created, File.stores_length] at length
  rw [created, File.stores_byte _ _ fun change member => ?_]
  · rfl
  · rw [length]
    exact (q.construction_inside change member).2

theorem created_front (file : File) (stack : Stack) (place count : Nat) (front : place + count ≤ queueStart) :
    slice (q.created file stack).byte place count = slice (patch (file.truncate (queueStart + q.size)).byte (file.read 0 headerSize).length
      (q.built (file.read 0 headerSize ++ stack.val.drop (file.read 0 headerSize).length))) place count := by
  rw [created_byte]
  exact slice_patches_apart _ _ _ _ fun change member => .inl (Nat.le_trans front (q.construction_inside change member).1)

-- The header of a file that was empty is at its place.
theorem created_header (file : File) (stack : Stack) (empty : file.length = 0) :
    slice (q.created file stack).byte 0 headerSize = q.built stack.val := by
  have length := q.built_length stack.val stack.property
  have same := slice_patch (file.truncate (queueStart + q.size)).byte 0 (q.built stack.val)
  rw [length] at same
  rw [created_front q file stack 0 headerSize (by decide), file.read_empty 0 headerSize empty]
  exact same

theorem built_described (header : List Byte) : ∃ rest, q.built header = q.described ++ rest :=
  ⟨split 4 0 ++ split 4 0 ++ header.drop q.fields.length, by rw [built, fields, List.append_assoc]⟩

theorem header_parts (byte : Nat → Byte) : slice byte 0 headerSize =
    slice byte 0 q.described.length ++ slice byte q.described.length (headerSize - q.described.length) := by
  have parts := slice_append byte 0 q.described.length (headerSize - q.described.length)
  rwa [Nat.add_sub_cancel' (by rw [described_length]; decide), Nat.zero_add] at parts

-- Of the header only the words that describe the queue are read again.
theorem accepts_front (other : Instantiation) (byte : Nat → Byte) (described : slice byte 0 q.described.length = q.described) :
    other.Accepts (slice byte 0 headerSize) ↔ q.N = other.N := by
  rw [q.header_parts, described]
  exact other.accepts_described q _

theorem created_described (file : File) (stack : Stack) (empty : file.length = 0) :
    slice (q.created file stack).byte 0 q.described.length = q.described := by
  obtain ⟨rest, built⟩ := q.built_described stack.val
  have parts := q.created_header file stack empty
  rw [q.header_parts, built] at parts
  exact List.append_inj_left parts (slice_length _ _ _)

-- A constructor has created `final`, and whenever the file is opened again, with the words that
-- describe the queue and its length as they were left, the queue is there as it is then.
structure RoundTrips (file : File) (stack : Stack) (final : File) : Prop where
  header : slice final.byte 0 headerSize = q.built (file.read 0 headerSize ++ stack.val.drop (file.read 0 headerSize).length)
  fresh : q.decode final.byte queueStart = Memory.initial q.config q.Data
  attaches : ∀ later other, later.length = final.length →
    slice later.byte 0 q.described.length = slice final.byte 0 q.described.length →
      q.advance later (.reading other) = (later, .attaching) ∧ q.Opens later (.reading other) later ∧
        ∀ reopened, q.Opens later (.reading other) reopened →
          q.decode reopened.byte queueStart = q.decode later.byte queueStart

theorem empty_round_trips (file : File) (stack : Stack) (empty : file.length = 0) :
    q.RoundTrips file stack (q.created file stack) := by
  have header := q.created_header file stack empty
  refine ⟨?_, ?_, ?_⟩
  · rw [header, file.read_empty 0 headerSize empty]
    rfl
  · rw [created_byte]
    exact q.construction_initial queueStart _
  · intro later other length same
    have long : headerSize ≤ later.length := by
      rw [length, created_length, queueStart, headerSize]
      omega
    have accepted := (q.accepts_front q later.byte (same.trans (q.created_described file stack empty))).mpr rfl
    refine ⟨(q.attach_opens later later other long accepted).1, (q.attach_opens later later other long accepted).2.mpr rfl, ?_⟩
    intro reopened opens
    rw [(q.attach_opens later reopened other long accepted).2.mp opens]

-- A byte of the header after the first is never the first one, unless it comes from the stack.
theorem fields_differ (place : Nat) (positive : 0 < place) (below : place < q.fields.length) : q.fields[place]? ≠ some 0xDB := by
  have table : ∀ log < 32, ∀ place < 40, 0 < place →
      (split 4 0x0BADBADB ++ (split 4 headerSize ++ (split 8 queueStart ++ (split 8 (2 ^ log) ++ split 8 (128 * (2 ^ log + 2))))) ++
        (split 4 0 ++ split 4 0))[place]? ≠ some 0xDB := by decide +kernel
  obtain ⟨log, power⟩ := q.power
  have small := q.unsigned
  rw [power] at small
  rw [fields_length] at below
  rw [fields, described, size_slots, power]
  exact table log ((Nat.pow_lt_pow_iff_right (by decide)).mp small) place below positive

theorem short_loses_header (file : File) (positive : 0 < file.length) (short : file.length < headerSize) :
    ∃ stack final, q.Opens file (.reading stack) final ∧ ¬ q.RoundTrips file stack final := by
  have count : (file.read 0 headerSize).length = file.length := by
    rw [File.read_length]
    omega
  have length : (List.replicate headerSize (0 : Byte)).length = headerSize := List.length_replicate
  refine ⟨⟨List.replicate headerSize 0, length⟩, _, (q.create_opens file _ _ short).mpr rfl, fun trips => ?_⟩
  have header := trips.header
  rw [created_front q file _ 0 headerSize (by decide)] at header
  have here := congrArg (fun bytes => bytes[file.length]?) header
  have size := q.built_length _ (read_stack file ⟨List.replicate headerSize 0, length⟩)
  simp only [slice_get _ _ _ _ short, Nat.zero_add] at here
  rw [patch_inside _ _ _ _ (by omega) (by rw [size, count]; omega)] at here
  have first : (q.built (file.read 0 headerSize ++ (List.replicate headerSize 0).drop (file.read 0 headerSize).length))[
      file.length - (file.read 0 headerSize).length]? = some 0xDB := by
    rw [count, Nat.sub_self]
    rfl
  rw [← List.getElem?_eq_getElem, first] at here
  by_cases named : file.length < q.fields.length
  · rw [built, List.getElem?_append_left named] at here
    exact q.fields_differ file.length positive named here.symm
  · rw [built, List.getElem?_append_right (by omega), List.getElem?_drop, List.getElem?_append_right (by omega), List.getElem?_drop,
      List.getElem?_replicate] at here
    rw [if_pos (by omega)] at here
    exact absurd here (by decide)

-- Only an empty file gets its header where the next constructor looks for it: after a short read
-- the header is written behind the bytes that were read.
theorem create_round_trips_iff (file : File) (short : file.length < headerSize) :
    (∀ stack, ∃ final, q.Opens file (.reading stack) final ∧ q.RoundTrips file stack final) ↔ file.length = 0 := by
  constructor
  · intro trips
    by_contra filled
    obtain ⟨stack, final, opened, lost⟩ := q.short_loses_header file (Nat.pos_of_ne_zero filled) short
    obtain ⟨other, again, kept⟩ := trips stack
    rw [q.create_opens file _ stack short] at opened again
    rw [opened, ← again] at lost
    exact lost kept
  · intro empty stack
    exact ⟨q.created file stack, (q.create_opens file _ stack short).mpr rfl, q.empty_round_trips file stack empty⟩

end

end Instantiation

-- Two slots of four bytes of data and four of sequence.
def smallShared : Instantiation where
  dataSize := 4
  indexBytes := 4
  N := 2
  lazyPush := false
  lazyPop := false
  filled := by decide
  indexWidth := .inl rfl
  unitValue := .inl rfl
  power := smallQueue.power
  unsigned := by decide
  wideEnough := Nat.lt_of_le_of_lt ((bits_for_value_le _ 2).mpr (by decide)) (by decide)

def clearStack : Stack := ⟨List.replicate headerSize 0, List.length_replicate⟩

theorem create_round_trips_empty : ∃ final, smallShared.Opens File.created (.reading clearStack) final ∧
    smallShared.RoundTrips File.created clearStack final :=
  (smallShared.create_round_trips_iff File.created (by decide)).mpr rfl clearStack

def oneByte : File := File.created.write 0 [7]

-- The constructor returns, and every later one finds a file that is not compatible.
theorem one_byte_unreadable : oneByte.length = 1 ∧
    smallShared.Opens oneByte (.reading clearStack) (smallShared.created oneByte clearStack) ∧
    ¬ smallShared.RoundTrips oneByte clearStack (smallShared.created oneByte clearStack) ∧
    ∀ stack, smallShared.advance (smallShared.created oneByte clearStack) (.reading stack) = (smallShared.created oneByte clearStack, .failed) := by
  have rejected : ¬ smallShared.Accepts (slice (smallShared.created oneByte clearStack).byte 0 headerSize) := by decide +kernel
  have length := smallShared.created_length oneByte clearStack
  have moved : slice (smallShared.created oneByte clearStack).byte 0 headerSize ≠
      smallShared.built (oneByte.read 0 headerSize ++ clearStack.val.drop (oneByte.read 0 headerSize).length) := by decide +kernel
  refine ⟨rfl, (smallShared.create_opens oneByte _ clearStack (by decide)).mpr rfl, fun trips => moved trips.header, fun stack => ?_⟩
  rw [Instantiation.advance, File.read_all _ 0 headerSize (by rw [length, queueStart, headerSize]; omega)]
  exact (if_neg (fun missing => missing (slice_length _ _ _))).trans (if_neg rejected)

end LockfreeQueue
