import Mathlib.Data.Nat.Log
import LockfreeQueue.Memory

set_option autoImplicit false

namespace LockfreeQueue

-- bits_for_value. Its parameter is an unsigned of 32 bits, whatever the constructor was given.
def bitsLoop (n : BitVec 32) (b : Nat) : Nat := if n = 0 then b else bitsLoop (n >>> 1) (b + 1)
termination_by n.toNat
decreasing_by
  have positive : n.toNat ≠ 0 := fun zero => by simp_all [← BitVec.toNat_inj]
  simp only [BitVec.toNat_ushiftRight, Nat.shiftRight_eq_div_pow]
  omega

def bitsForValue (n : BitVec 32) : Nat := bitsLoop n 0

-- The check of the run-time-size constructor: it throws on these sizes.
def throws (bits : Nat) (n : BitVec 64) : Bool :=
  (n &&& (n - 1)) != 0 || decide (bits ≤ bitsForValue (n.setWidth 32))

structure Slot (bits : Nat) (Data : Type) where
  data : Data
  seq : BitVec bits

-- What new T[n] has allocated and the constructor initialises: one slot for each number below n.
structure Built (bits : Nat) (n : BitVec 64) (Data : Type) where
  writeIndex : BitVec bits
  readIndex : BitVec bits
  array : Fin n.toNat → Slot bits Data

-- operator[] of array_runtime reaches the slot of this number, if there is one.
def masked {bits : Nat} (n : BitVec 64) (index : BitVec bits) : Nat := index.toNat &&& (n - 1).toNat

section

variable {bits : Nat} {n : BitVec 64} {Data : Type} [Zero Data]

def Built.setSeq (built : Built bits n Data) (index : BitVec bits) : Built bits n Data :=
  { built with array := fun slot => if slot.val = masked n index then ⟨0, index <<< 1⟩ else built.array slot }

-- The loop of the constructor from a value of its counter on: i is an index_type and is compared
-- as a size_t.
inductive Initialised : BitVec bits → Built bits n Data → Built bits n Data → Prop where
  | done (i : BitVec bits) (built : Built bits n Data) (ended : ¬ i.toNat < n.toNat) : Initialised i built built
  | next (i : BitVec bits) (built final : Built bits n Data) (inside : i.toNat < n.toNat)
      (later : Initialised (i + 1) (built.setSeq i) final) : Initialised i built final

def Constructed (final : Built bits n Data) : Prop := Initialised 0 ⟨0, 0, fun _ => ⟨0, 0⟩⟩ final

-- A size that the queue can work with: four laps to a word of the index.
def Usable (bits : Nat) (n : BitVec 64) : Prop := 1 ≤ n.toNat ∧ (∃ log, n.toNat = 2 ^ log) ∧ 4 * n.toNat ≤ 2 ^ bits

structure Built.Ready (built : Built bits n Data) : Prop where
  write : built.writeIndex = 0
  read : built.readIndex = 0
  slots : ∀ slot, built.array slot = ⟨0, BitVec.ofNat bits (2 * slot.val)⟩
  distinct : ∀ a b, (built.array a).seq = (built.array b).seq → a = b
  access : ∀ index : BitVec bits, masked n index < n.toNat

end

theorem bits_loop_lower (n : BitVec 32) (b : Nat) : b ≤ bitsLoop n b := by
  induction n, b using bitsLoop.induct with
  | case1 b =>
      rw [bitsLoop, if_pos rfl]
  | case2 n b more ih =>
      rw [bitsLoop, if_neg more]
      omega

theorem bits_loop_upper (n : BitVec 32) (b c : Nat) : bitsLoop n b ≤ b + c ↔ n.toNat < 2 ^ c := by
  induction c generalizing n b with
  | zero =>
      rw [bitsLoop]
      by_cases zero : n = 0
      · rw [if_pos zero, zero]
        exact ⟨fun _ => Nat.two_pow_pos 0, fun _ => Nat.le_add_right b 0⟩
      · have lower := bits_loop_lower (n >>> 1) (b + 1)
        have positive : n.toNat ≠ 0 := fun none => zero (BitVec.eq_of_toNat_eq none)
        rw [if_neg zero]
        omega
  | succ c ih =>
      rw [bitsLoop]
      by_cases zero : n = 0
      · rw [if_pos zero, zero]
        exact ⟨fun _ => Nat.two_pow_pos (c + 1), fun _ => Nat.le_add_right b (c + 1)⟩
      · have half := ih (n >>> 1) (b + 1)
        rw [BitVec.toNat_ushiftRight, Nat.shiftRight_eq_div_pow] at half
        rw [if_neg zero, Nat.pow_succ]
        omega

theorem bits_for_value_le (n : BitVec 32) (c : Nat) : bitsForValue n ≤ c ↔ n.toNat < 2 ^ c := by
  have bound := bits_loop_upper n 0 c
  rwa [Nat.zero_add] at bound

theorem power_check (n : BitVec 64) : n &&& (n - 1) = 0 ↔ n = 0 ∨ ∃ log, n.toNat = 2 ^ log := by
  by_cases zero : n = 0
  · rw [zero]
    exact ⟨fun _ => .inl rfl, fun _ => rfl⟩
  · have positive : n.toNat ≠ 0 := fun none => zero (BitVec.eq_of_toNat_eq none)
    have less : (n - 1).toNat = n.toNat - 1 := by
      rw [BitVec.toNat_sub_of_le (by rw [BitVec.le_def]; change 1 ≤ n.toNat; omega)]
      rfl
    have power := Nat.and_sub_one_eq_zero_iff_isPowerOfTwo positive
    rw [← BitVec.toNat_inj, BitVec.toNat_and, less]
    exact power.trans (or_iff_right zero).symm

theorem throws_power (bits log : Nat) (n : BitVec 64) (positive : 0 < bits) (power : n.toNat = 2 ^ log) :
    throws bits n = true ↔ log < 32 ∧ bits ≤ log + 1 := by
  have passes : n &&& (n - 1) = 0 := (power_check n).mpr (.inr ⟨log, power⟩)
  have count := bits_for_value_le (n.setWidth 32) (bits - 1)
  have narrow : (n.setWidth 32).toNat = 2 ^ log % 2 ^ 32 := by rw [BitVec.toNat_setWidth, power]
  rw [throws, passes]
  simp only [bne_self_eq_false, Bool.false_or, decide_eq_true_eq]
  by_cases low : log < 32
  · rw [narrow, Nat.mod_eq_of_lt (Nat.pow_lt_pow_right (by decide) low), Nat.pow_lt_pow_iff_right (by decide)] at count
    omega
  · rw [narrow, Nat.mod_eq_zero_of_dvd (Nat.pow_dvd_pow 2 (by omega))] at count
    have none := count.mpr (Nat.two_pow_pos _)
    omega

theorem usable_power (bits log : Nat) (n : BitVec 64) (power : n.toNat = 2 ^ log) : Usable bits n ↔ log + 2 ≤ bits := by
  have laps : 4 * 2 ^ log = 2 ^ (log + 2) := by rw [Nat.pow_add]; omega
  rw [Usable, power, laps, Nat.pow_le_pow_iff_right (by decide)]
  exact ⟨fun usable => usable.2.2, fun fits => ⟨Nat.two_pow_pos log, ⟨log, rfl⟩, fits⟩⟩

section

variable {bits : Nat} {n : BitVec 64} {Data : Type}

theorem masked_power (log : Nat) (index : BitVec bits) (power : n.toNat = 2 ^ log) : masked n index = index.toNat % n.toNat := by
  have positive := Nat.two_pow_pos log
  rw [masked, BitVec.toNat_sub_of_le (by rw [BitVec.le_def, power]; exact positive), power]
  exact Nat.and_two_pow_sub_one_eq_mod _ _

variable [Zero Data]

theorem initialises (log k left : Nat) (built : Built bits n Data) (power : n.toNat = 2 ^ log) (fits : n.toNat < 2 ^ bits)
    (sum : k + left = n.toNat) :
    ∃ final, Initialised (BitVec.ofNat bits k) built final ∧ final.writeIndex = built.writeIndex ∧
      final.readIndex = built.readIndex ∧
      ∀ slot, final.array slot = if slot.val < k then built.array slot else ⟨0, BitVec.ofNat bits (2 * slot.val)⟩ := by
  have index : (BitVec.ofNat bits k).toNat = k := by rw [BitVec.toNat_ofNat, Nat.mod_eq_of_lt (by omega)]
  induction left generalizing k built with
  | zero =>
      refine ⟨built, .done _ built (by omega), rfl, rfl, fun slot => ?_⟩
      rw [if_pos (by have inside := slot.isLt; omega)]
  | succ left ih =>
      have next : BitVec.ofNat bits k + 1 = BitVec.ofNat bits (k + 1) := by rw [BitVec.ofNat_add]; rfl
      have here : masked n (BitVec.ofNat bits k) = k := by
        rw [masked_power log _ power, index, Nat.mod_eq_of_lt (by omega)]
      obtain ⟨final, run, write, read, slots⟩ := ih (k + 1) (built.setSeq (BitVec.ofNat bits k)) (by omega)
        (by rw [BitVec.toNat_ofNat, Nat.mod_eq_of_lt (by omega)])
      rw [← next] at run
      refine ⟨final, .next _ built final (by omega) run, write, read, fun slot => ?_⟩
      rw [slots slot, Built.setSeq, here]
      by_cases before : slot.val < k
      · rw [if_pos before, if_pos (by omega)]
        exact if_neg (by omega)
      · rw [if_neg before]
        by_cases this : slot.val = k
        · rw [if_pos (by omega)]
          simp only [this, if_true, Word.of_nat_shift]
        · rw [if_neg (by omega)]

theorem usable_ready (usable : Usable bits n) : ∃ built : Built bits n Data, Constructed built ∧ built.Ready := by
  obtain ⟨positive, ⟨log, power⟩, laps⟩ := usable
  obtain ⟨built, run, write, read, slots⟩ := initialises log 0 n.toNat (⟨0, 0, fun _ => ⟨0, 0⟩⟩ : Built bits n Data) power
    (by omega) (Nat.zero_add _)
  have numbered : ∀ slot, built.array slot = ⟨0, BitVec.ofNat bits (2 * slot.val)⟩ := by
    intro slot
    rw [slots slot, if_neg (Nat.not_lt_zero _)]
  refine ⟨built, run, write, read, numbered, ?_, ?_⟩
  · intro a b same
    have low := a.isLt
    have high := b.isLt
    rw [numbered a, numbered b] at same
    have equal := (Word.of_nat_eq_iff bits _ _).mp same
    rw [Nat.mod_eq_of_lt (by omega), Nat.mod_eq_of_lt (by omega)] at equal
    exact Fin.ext (by omega)
  · intro index
    rw [masked_power log index power]
    exact Nat.mod_lt _ positive

end

-- The constructor throws just where the size is unusable, and otherwise leaves a ready queue.
def AcceptsUsable (bits : Nat) (n : BitVec 64) (Data : Type) [Zero Data] : Prop :=
  (throws bits n = true ↔ ¬ Usable bits n) ∧
    (throws bits n = false → ∃ built : Built bits n Data, Constructed built ∧ built.Ready)

-- The sizes that pass the check although they are unusable: zero, and the powers that the
-- 32-bit parameter of bits_for_value has lost.
def SlipsThrough (bits : Nat) (n : BitVec 64) : Prop := n = 0 ∨ ∃ log, 32 ≤ log ∧ bits < log + 2 ∧ n.toNat = 2 ^ log

theorem slips_unusable (bits : Nat) (n : BitVec 64) (positive : 0 < bits) (slips : SlipsThrough bits n) :
    throws bits n = false ∧ ¬ Usable bits n := by
  rcases slips with zero | ⟨log, large, narrow, power⟩
  · refine ⟨?_, fun usable => ?_⟩
    · have none : bitsForValue ((0 : BitVec 64).setWidth 32) ≤ 0 := (bits_for_value_le _ 0).mpr (by decide)
      rw [zero, throws, decide_eq_false (by omega)]
      rfl
    · have one := usable.1
      rw [zero] at one
      exact absurd one (by decide)
  · have accepted := throws_power bits log n positive power
    have unusable := usable_power bits log n power
    rw [← Bool.not_eq_true, accepted, unusable]
    omega

theorem endless (bits : Nat) (n : BitVec 64) (Data : Type) [Zero Data] (long : 2 ^ bits ≤ n.toNat) (i : BitVec bits)
    (built final : Built bits n Data) : ¬ Initialised i built final := by
  intro run
  induction run with
  | done i built ended => exact ended (Nat.lt_of_lt_of_le i.isLt long)
  | next i built final inside later ih => exact ih

-- The sizes of the queues in the rest of this development are those the constructor works for,
-- and it leaves their initial memory.
theorem config_constructed (config : Config) (n : BitVec 64) (Data : Type) [Zero Data] (size : n.toNat = config.size) :
    throws config.bits n = false ∧ ∃ built : Built config.bits n Data, Constructed built ∧
      built.writeIndex = (Memory.initial config Data).writeIndex ∧ built.readIndex = (Memory.initial config Data).readIndex ∧
      ∀ slot : Fin n.toNat, (Memory.initial config Data).array (slot.cast size) = ⟨(built.array slot).data, (built.array slot).seq⟩ := by
  obtain ⟨log, power⟩ := config.power
  have positive := config.bits_positive
  have usable : Usable config.bits n := ⟨size ▸ config.size_positive, ⟨log, size.trans power⟩, size ▸ config.wide⟩
  obtain ⟨built, run, ready⟩ : ∃ built : Built config.bits n Data, Constructed built ∧ built.Ready := usable_ready usable
  have passes := throws_power config.bits log n (by omega) (size.trans power)
  have fits := (usable_power config.bits log n (size.trans power)).mp usable
  refine ⟨?_, built, run, ready.write, ready.read, fun slot => ?_⟩
  · rw [← Bool.not_eq_true, passes]
    omega
  · rw [ready.slots slot, ← Word.of_nat_shift]
    rfl

theorem constructor_accepts_iff (bits : Nat) (n : BitVec 64) (Data : Type) [Zero Data] (width : bits = 32 ∨ bits = 64) :
    AcceptsUsable bits n Data ↔ ¬ SlipsThrough bits n := by
  have positive : 0 < bits := by omega
  constructor
  · intro ⟨exact, _⟩ slips
    obtain ⟨accepted, unusable⟩ := slips_unusable bits n positive slips
    rw [exact.mpr unusable] at accepted
    cases accepted
  · intro sound
    have exact : throws bits n = true ↔ ¬ Usable bits n := by
      by_cases power : ∃ log, n.toNat = 2 ^ log
      · obtain ⟨log, power⟩ := power
        have kept : ¬ (32 ≤ log ∧ bits < log + 2) := fun narrow => sound (.inr ⟨log, narrow.1, narrow.2, power⟩)
        rw [throws_power bits log n positive power, usable_power bits log n power]
        omega
      · refine ⟨fun _ usable => power usable.2.1, fun _ => ?_⟩
        have rejected : n &&& (n - 1) ≠ 0 := fun passes => by
          rcases (power_check n).mp passes with zero | found
          · exact sound (.inl zero)
          · exact power found
        rw [throws, bne_iff_ne.mpr rejected, Bool.true_or]
    refine ⟨exact, fun accepted => usable_ready ?_⟩
    by_contra unusable
    rw [exact.mpr unusable] at accepted
    cases accepted

theorem constructor_accepts_two : AcceptsUsable 32 2 Nat := by
  refine (constructor_accepts_iff 32 2 Nat (.inl rfl)).mpr ?_
  rintro (zero | ⟨log, large, _, power⟩)
  · exact absurd zero (by decide)
  · have grown := Nat.pow_le_pow_right (show 0 < 2 by decide) large
    rw [← power] at grown
    exact absurd grown (by decide)

-- Zero slots pass the check, and so does a size for which the 32-bit loop counter never ends.
theorem constructor_accepts_zero : throws 32 0 = false ∧ ¬ AcceptsUsable 32 0 Nat ∧
    throws 32 4294967296 = false ∧ ∀ built : Built 32 4294967296 Nat, ¬ Constructed built := by
  obtain ⟨accepted, unusable⟩ := slips_unusable 32 0 (by decide) (.inl rfl)
  obtain ⟨large, _⟩ := slips_unusable 32 4294967296 (by decide) (.inr ⟨32, by decide, by decide, by decide⟩)
  refine ⟨accepted, fun exact => ?_, large, fun built => endless 32 4294967296 Nat (by decide) 0 _ built⟩
  rw [exact.1.mpr unusable] at accepted
  cases accepted

end LockfreeQueue
