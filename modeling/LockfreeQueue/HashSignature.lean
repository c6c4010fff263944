import LockfreeQueue.Library.Bytes
import LockfreeQueue.Library.Digest

set_option autoImplicit false

namespace LockfreeQueue

structure HashSignature where
  state : BitVec 64
  count : BitVec 64
  deriving DecidableEq

namespace HashSignature

def create (seed : BitVec 64) : HashSignature := ⟨seed + 0xA5A5A5A5A5A5A5A5, 0⟩

def equals (left right : HashSignature) : Bool := left.state == right.state && left.count == right.count

-- __builtin_popcount takes an unsigned int: the upper half of the value is not counted.
def popcount (v : BitVec 32) : Nat := v.cpop.toNat

def sparse (v : BitVec 64) : Bool := decide (popcount (v.setWidth 32) < 20)

def offset (v : BitVec 64) : BitVec 64 := if sparse v then v + 0xA500A500A5A5 else v

def mix (v state : BitVec 64) : BitVec 64 := (v + state) * ((v <<< 3) + (state <<< 1) + 1)

def add (signature : HashSignature) (v : BitVec 64) : HashSignature :=
  ⟨mix (offset v) signature.state, signature.count + 1⟩

-- The zeroed buffer after the memcpy, read as a little-endian word.
def load (sv : List Bytes.Byte) : BitVec 64 :=
  let copied := if 8 < sv.length then 8 else sv.length
  BitVec.ofNat 64 (Bytes.join (sv.take copied ++ List.replicate (8 - copied) 0))

def addLoop (signature : HashSignature) (sv : List Bytes.Byte) : HashSignature :=
  if 0 < sv.length then
    if 8 < sv.length then addLoop (signature.add (load sv)) (sv.drop 8) else signature.add (load sv)
  else signature
  termination_by sv.length
  decreasing_by rw [List.length_drop]; omega

def addString (signature : HashSignature) (sv : List Bytes.Byte) : HashSignature :=
  if sv.length = 0 then signature.add 0 else signature.addLoop sv

inductive Input where
  | value (v : BitVec 64)
  | text (sv : List Bytes.Byte)

def feed (signature : HashSignature) : Input → HashSignature
  | .value v => signature.add v
  | .text sv => signature.addString sv

def feeds (signature : HashSignature) (inputs : List Input) : HashSignature := inputs.foldl feed signature

theorem equals_iff (left right : HashSignature) : left.equals right = true ↔ left = right := by
  rw [equals, Bool.and_eq_true, beq_iff_eq, beq_iff_eq, HashSignature.mk.injEq]

theorem not_equals_iff (left right : HashSignature) : left.equals right = false ↔ left ≠ right := by
  rw [← Bool.not_eq_true, equals_iff]

-- Both factors are linear, with an even slope in either argument and an odd constant.
theorem mix_linear (v state : BitVec 64) : mix v state = (v + state) * (8 * v + 2 * state + 1) := by
  rw [mix, BitVec.shiftLeft_eq_mul_twoPow, BitVec.shiftLeft_eq_mul_twoPow, BitVec.mul_comm v, BitVec.mul_comm state]
  rfl

theorem mix_state_injective (v : BitVec 64) : Function.Injective fun state => mix v state := by
  intro left right same
  have mixed := Digest.mix_injective v 1 (4 * v)
  refine mixed ?_
  change mix v left = mix v right at same
  rw [mix_linear, mix_linear] at same
  calc (left + v) * (2 * 1 * left + (2 * (4 * v) + 1)) = (v + left) * (8 * v + 2 * left + 1) := by ring
    _ = (v + right) * (8 * v + 2 * right + 1) := same
    _ = (right + v) * (2 * 1 * right + (2 * (4 * v) + 1)) := by ring

theorem mix_value_injective (state : BitVec 64) : Function.Injective fun v => mix v state := by
  intro left right same
  have mixed := Digest.mix_injective state 4 state
  refine mixed ?_
  change mix left state = mix right state at same
  rw [mix_linear, mix_linear] at same
  calc (left + state) * (2 * 4 * left + (2 * state + 1)) = (left + state) * (8 * left + 2 * state + 1) := by ring
    _ = (right + state) * (8 * right + 2 * state + 1) := same
    _ = (right + state) * (2 * 4 * right + (2 * state + 1)) := by ring

theorem add_injective (v : BitVec 64) : Function.Injective fun signature : HashSignature => signature.add v := by
  intro left right same
  obtain ⟨states, counts⟩ := (HashSignature.mk.injEq _ _ _ _).mp same
  cases left
  cases right
  rw [HashSignature.mk.injEq]
  exact ⟨mix_state_injective (offset v) states, add_right_cancel counts⟩

-- What a string adds: one word for each block of eight bytes.
def words (sv : List Bytes.Byte) : List (BitVec 64) := (Digest.blocks 8 sv).map load

theorem load_take (sv : List Bytes.Byte) (long : 8 < sv.length) : load (sv.take 8) = load sv := by
  have short : (sv.take 8).length = 8 := by rw [List.length_take]; omega
  rw [load, load, short, if_neg (by omega), if_pos long, List.take_take, Nat.min_self]

theorem load_zeros (sv : List Bytes.Byte) (zeros : ∀ byte ∈ sv, byte = 0) : load sv = 0 := by
  refine congrArg (BitVec.ofNat 64) (Bytes.join_zeros _ fun byte member => ?_)
  rcases List.mem_append.mp member with copied | padded
  · exact zeros byte (List.mem_of_mem_take copied)
  · exact List.eq_of_mem_replicate padded

theorem add_loop_words (signature : HashSignature) (sv : List Bytes.Byte) (filled : 0 < sv.length) :
    signature.addLoop sv = (words sv).foldl add signature := by
  fun_induction addLoop signature sv with
  | case1 signature sv _ long ih =>
      rw [ih (by rw [List.length_drop]; omega), words, words, Digest.blocks_cons 8 sv (by decide) long, List.map_cons,
        List.foldl_cons, load_take sv long]
  | case2 signature sv _ short =>
      rw [words, Digest.blocks_last 8 sv filled (by omega)]
      rfl
  | case3 signature sv empty => exact absurd filled empty

theorem add_string_words (signature : HashSignature) (sv : List Bytes.Byte) (filled : 0 < sv.length) :
    signature.addString sv = (words sv).foldl add signature := by
  rw [addString, if_neg (by omega), add_loop_words signature sv filled]

theorem add_string_injective (sv : List Bytes.Byte) :
    Function.Injective fun signature : HashSignature => signature.addString sv := by
  intro left right same
  rcases Nat.eq_zero_or_pos sv.length with empty | filled
  · simp only [addString, if_pos empty] at same
    exact add_injective 0 same
  · simp only [add_string_words _ sv filled] at same
    exact Digest.foldl_injective add add_injective (words sv) same

theorem feed_injective (input : Input) : Function.Injective fun signature => feed signature input := by
  cases input with
  | value v => exact add_injective v
  | text sv => exact add_string_injective sv

theorem feeds_injective (inputs : List Input) : Function.Injective fun signature => feeds signature inputs :=
  Digest.foldl_injective feed feed_injective inputs

theorem divergence_stays (left right : HashSignature) (inputs : List Input) :
    (feeds left inputs).equals (feeds right inputs) = left.equals right := by
  rw [Bool.eq_iff_iff, equals_iff, equals_iff]
  exact ⟨fun same => feeds_injective inputs same, fun same => congrArg (feeds · inputs) same⟩

theorem divergence_never_heals (left right : HashSignature) (different : left.equals right = false) :
    (∀ inputs, (feeds left inputs).equals (feeds right inputs) = false) ∧
      ∀ v count, Function.Injective fun state => (add ⟨state, count⟩ v).state := by
  refine ⟨fun inputs => ?_, fun v _ => mix_state_injective (offset v)⟩
  rw [divergence_stays, different]

theorem divergence_example :
    (feeds (create 0) [.value 7, .text [0x61, 0x62]]).equals (feeds (create 1) [.value 7, .text [0x61, 0x62]]) = false :=
  (divergence_never_heals (create 0) (create 1) (by decide)).1 [.value 7, .text [0x61, 0x62]]

theorem offset_plain (v : BitVec 64) (dense : sparse v = false) : offset v = v := by
  rw [offset, dense]
  rfl

theorem offset_moved (v : BitVec 64) (few : sparse v = true) : offset v = v + 0xA500A500A5A5 := by
  rw [offset, few]
  rfl

-- One value is moved onto the other by the offset, which the other does not get.
def meets (u v : BitVec 64) : Bool :=
  sparse u && !sparse v && v == u + 0xA500A500A5A5 || sparse v && !sparse u && u == v + 0xA500A500A5A5

theorem meets_comm (u v : BitVec 64) : meets u v = meets v u := Bool.or_comm _ _

theorem meets_iff (u v : BitVec 64) (few : sparse u = true) (dense : sparse v = false) :
    meets u v = true ↔ u + 0xA500A500A5A5 = v := by
  rw [meets, few, dense]
  simpa using eq_comm

theorem meets_alike (u v : BitVec 64) (alike : sparse u = sparse v) : meets u v = false := by
  rw [meets, alike]
  cases sparse v <;> rfl

theorem offset_eq_iff (u v : BitVec 64) : offset u = offset v ↔ u = v ∨ meets u v = true := by
  have unequal : sparse u ≠ sparse v → u ≠ v := fun apart same => apart (congrArg sparse same)
  cases few : sparse u <;> cases other : sparse v
  · rw [offset_plain u few, offset_plain v other, meets_alike u v (few.trans other.symm)]
    simp
  · rw [offset_plain u few, offset_moved v other, meets_comm, meets_iff v u other few,
      or_iff_right (unequal (by rw [few, other]; decide)), eq_comm]
  · rw [offset_moved u few, offset_plain v other, meets_iff u v few other,
      or_iff_right (unequal (by rw [few, other]; decide))]
  · rw [offset_moved u few, offset_moved v other, meets_alike u v (few.trans other.symm)]
    simp

theorem add_eq_iff (signature : HashSignature) (u v : BitVec 64) : signature.add u = signature.add v ↔ offset u = offset v := by
  constructor
  · intro same
    exact mix_value_injective signature.state (congrArg HashSignature.state same)
  · intro same
    rw [add, add, same]

theorem corrupted_value (signature : HashSignature) (u v : BitVec 64) (later : List Input) (different : u ≠ v) :
    (feeds (signature.add u) later).equals (feeds (signature.add v) later) = meets u v := by
  rw [divergence_stays, Bool.eq_iff_iff, equals_iff, add_eq_iff, offset_eq_iff]
  exact ⟨fun same => same.resolve_left different, Or.inr⟩

theorem corrupted_value_example :
    (feeds ((create 0).add 1) [.value 3]).equals (feeds ((create 0).add 2) [.value 3]) = false :=
  (corrupted_value (create 0) 1 2 [.value 3] (by decide)).trans (by decide)

theorem corrupted_value_missed : ¬ ∀ (signature : HashSignature) (u v : BitVec 64) (later : List Input), u ≠ v →
    (feeds (signature.add u) later).equals (feeds (signature.add v) later) = false := by
  intro always
  have missed := always (create 0) 0xFF0000 0xA500A5FFA5A5 [] (by decide)
  exact absurd missed (by decide)

theorem words_length (sv : List Bytes.Byte) : (words sv).length = (sv.length + 7) / 8 := by
  rw [words, List.length_map, Digest.blocks_length]
  rfl

theorem words_append (first second : List Bytes.Byte) (whole : first.length % 8 = 0) (filled : 0 < second.length) :
    words (first ++ second) = words first ++ words second := by
  rw [words, Digest.blocks_append 8 first second (by decide) whole filled, List.map_append]
  rfl

theorem load_padded (sv : List Bytes.Byte) (n : Nat) (short : sv.length + n ≤ 8) : load (sv ++ List.replicate n 0) = load sv := by
  have length : (sv ++ List.replicate n (0 : Bytes.Byte)).length = sv.length + n := by
    rw [List.length_append, List.length_replicate]
  rw [load, load, length, if_neg (by omega), if_neg (by omega), List.take_of_length_le (by omega), List.take_of_length_le (by omega),
    List.append_assoc, List.replicate_append_replicate, show n + (8 - (sv.length + n)) = 8 - sv.length by omega]

theorem words_zeros (n : Nat) : words (List.replicate n 0) = List.replicate ((n + 7) / 8) 0 := by
  rw [List.eq_replicate_iff, words_length, List.length_replicate]
  refine ⟨rfl, fun word member => ?_⟩
  obtain ⟨block, cut, rfl⟩ := List.mem_map.mp member
  obtain ⟨place, _, rfl⟩ := List.mem_map.mp cut
  exact load_zeros _ fun byte member => List.eq_of_mem_replicate (List.mem_of_mem_drop (List.mem_of_mem_take member))

theorem words_short (sv : List Bytes.Byte) (filled : 0 < sv.length) (short : sv.length ≤ 8) : words sv = [load sv] := by
  rw [words, Digest.blocks_last 8 sv filled short]
  rfl

theorem blocks_split (sv : List Bytes.Byte) :
    ∃ front back, sv = front ++ back ∧ front.length % 8 = 0 ∧ back.length = sv.length % 8 := by
  refine ⟨sv.take (8 * (sv.length / 8)), sv.drop (8 * (sv.length / 8)), (List.take_append_drop _ sv).symm, ?_, ?_⟩
  · rw [List.length_take, Nat.min_eq_left (by omega), Nat.mul_mod_right]
  · rw [List.length_drop]
    omega

-- Zero bytes that stay in the last block of a string are not seen.
theorem words_filled (sv : List Bytes.Byte) (n : Nat) (partly : sv.length % 8 ≠ 0) (within : sv.length % 8 + n ≤ 8) :
    words (sv ++ List.replicate n 0) = words sv := by
  obtain ⟨front, back, rfl, whole, length⟩ := blocks_split sv
  have padded : (back ++ List.replicate n (0 : Bytes.Byte)).length = back.length + n := by
    rw [List.length_append, List.length_replicate]
  rw [List.append_assoc, words_append front _ whole (by omega), words_append front back whole (by omega),
    words_short (back ++ List.replicate n 0) (by omega) (by omega), words_short back (by omega) (by omega),
    load_padded back n (by omega)]

theorem words_zeros_after (sv : List Bytes.Byte) (n : Nat) (further : 8 < sv.length % 8 + ((n - 1) % 8 + 1)) :
    words (sv ++ List.replicate n 0) = words sv ++ words (List.replicate n 0) := by
  have filler : List.replicate n (0 : Bytes.Byte) =
      List.replicate (8 - sv.length % 8) 0 ++ List.replicate (n - (8 - sv.length % 8)) 0 := by
    rw [List.replicate_append_replicate, Nat.add_sub_cancel' (by omega)]
  have whole : (sv ++ List.replicate (8 - sv.length % 8) (0 : Bytes.Byte)).length % 8 = 0 := by
    rw [List.length_append, List.length_replicate]
    omega
  rw [filler, ← List.append_assoc, words_append _ _ whole (by rw [List.length_replicate]; omega),
    words_filled sv _ (by omega) (by omega), ← filler, words_zeros, words_zeros]
  congr 2
  omega

theorem add_count (signature : HashSignature) (values : List (BitVec 64)) :
    (values.foldl add signature).count = signature.count + BitVec.ofNat 64 values.length := by
  induction values generalizing signature with
  | nil => exact (BitVec.add_zero signature.count).symm
  | cons v rest ih =>
      rw [List.foldl_cons, ih, List.length_cons, add, Nat.add_comm, BitVec.ofNat_add, BitVec.add_assoc]
      rfl

theorem add_string_count (signature : HashSignature) (sv : List Bytes.Byte) (filled : 0 < sv.length) :
    (signature.addString sv).count = signature.count + BitVec.ofNat 64 ((sv.length + 7) / 8) := by
  rw [add_string_words signature sv filled, add_count, words_length]

theorem add_strings_equal (signature : HashSignature) (s t : List Bytes.Byte) (first : 0 < s.length) (second : 0 < t.length)
    (same : words (s ++ t) = words s ++ words t) : signature.addString (s ++ t) = (signature.addString s).addString t := by
  rw [add_string_words _ s first, add_string_words _ t second,
    add_string_words _ _ (by rw [List.length_append]; omega), same, List.foldl_append]

-- Both strings end inside one block: joined they make one block less.
theorem add_strings_apart (signature : HashSignature) (s t : List Bytes.Byte) (second : 0 < t.length)
    (partly : s.length % 8 ≠ 0) (within : s.length % 8 + ((t.length - 1) % 8 + 1) ≤ 8) :
    signature.addString (s ++ t) ≠ (signature.addString s).addString t := by
  intro same
  have counts := congrArg HashSignature.count same
  rw [add_string_count _ _ (by rw [List.length_append]; omega), add_string_count _ t second, add_string_count _ s (by omega),
    List.length_append, BitVec.add_assoc, ← BitVec.ofNat_add] at counts
  have blocks : (s.length + 7) / 8 + (t.length + 7) / 8 = (s.length + t.length + 7) / 8 + 1 := by omega
  rw [blocks, BitVec.ofNat_add] at counts
  have nothing := add_left_cancel counts
  exact absurd (left_eq_add.mp nothing) (by decide)

theorem string_boundary (signature : HashSignature) (s : List Bytes.Byte) (n : Nat) (first : 0 < s.length) (second : 0 < n) :
    (∀ t, t.length = n → (signature.addString (s ++ t)).equals ((signature.addString s).addString t) = false) ↔
      s.length % 8 ≠ 0 ∧ s.length % 8 + ((n - 1) % 8 + 1) ≤ 8 := by
  constructor
  · intro always
    have zeros := always (List.replicate n 0) List.length_replicate
    rw [not_equals_iff] at zeros
    have length : (List.replicate n (0 : Bytes.Byte)).length = n := List.length_replicate
    refine ⟨fun whole => zeros ?_, Nat.not_lt.mp fun further => zeros ?_⟩
    · exact add_strings_equal signature s _ first (by omega) (words_append s _ whole (by omega))
    · exact add_strings_equal signature s _ first (by omega) (words_zeros_after s n further)
  · rintro ⟨partly, within⟩ t rfl
    rw [not_equals_iff]
    exact add_strings_apart signature s t second partly within

theorem string_boundary_example :
    ((create 0).addString ([0x61] ++ [0x61])).equals (((create 0).addString [0x61]).addString [0x61]) = false :=
  (string_boundary (create 0) [0x61] 1 (by decide) (by decide)).mpr (by decide) [0x61] rfl

theorem string_boundary_lost : ¬ ∀ (signature : HashSignature) (s t : List Bytes.Byte), 0 < s.length → 0 < t.length →
    (signature.addString (s ++ t)).equals ((signature.addString s).addString t) = false := by
  intro always
  have lost := always (create 0) (List.replicate 8 0x61) [0x61] (by decide) (by decide)
  exact absurd lost (by decide +kernel)

end HashSignature

end LockfreeQueue
