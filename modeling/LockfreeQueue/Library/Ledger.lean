import Mathlib.Data.List.Nodup
import Mathlib.Logic.Function.Basic

set_option autoImplicit false

-- Objects are numbered as they are made. A place owns at most one object, and an object is passed
-- from place to place until the place it has come to discards it.
@[ext]
structure Ledger (Place : Type) where
  holds : Place → Option Nat
  made : Nat
  deleted : List Nat

namespace Ledger

section

variable {Place : Type}

def empty : Ledger Place := ⟨fun _ => none, 0, []⟩

-- Every object is deleted, once, or owned, by one place.
structure Linear (ledger : Ledger Place) : Prop where
  live : ∀ place object, ledger.holds place = some object → object < ledger.made ∧ object ∉ ledger.deleted
  single : ∀ place other object, ledger.holds place = some object → ledger.holds other = some object → place = other
  owned : ∀ object, object < ledger.made → object ∉ ledger.deleted → ∃ place, ledger.holds place = some object
  known : ∀ object ∈ ledger.deleted, object < ledger.made
  once : ledger.deleted.Nodup

theorem empty_linear : (empty : Ledger Place).Linear where
  live := fun _ _ none => by cases none
  single := fun _ _ _ none => by cases none
  owned := fun _ less => absurd less (Nat.not_lt_zero _)
  known := fun _ member => absurd member List.not_mem_nil
  once := List.nodup_nil

theorem owner_unique (ledger : Ledger Place) (linear : ledger.Linear) (object : Nat) (made : object < ledger.made)
    (live : object ∉ ledger.deleted) : ∃! place, ledger.holds place = some object := by
  obtain ⟨place, holds⟩ := linear.owned object made live
  exact ⟨place, holds, fun other also => linear.single other place object also holds⟩

theorem unowned_count (ledger : Ledger Place) (linear : ledger.Linear) (object : Nat) (made : object < ledger.made)
    (unowned : ∀ place, ledger.holds place ≠ some object) : ledger.deleted.count object = 1 := by
  refine List.count_eq_one_of_mem linear.once ?_
  by_contra live
  obtain ⟨place, holds⟩ := linear.owned object made live
  exact unowned place holds

variable [DecidableEq Place]

def create (ledger : Ledger Place) (place : Place) : Ledger Place :=
  { ledger with holds := Function.update ledger.holds place (some ledger.made), made := ledger.made + 1 }

def transfer (ledger : Ledger Place) (source target : Place) : Ledger Place :=
  { ledger with holds := Function.update (Function.update ledger.holds source none) target (ledger.holds source) }

def discard (ledger : Ledger Place) (place : Place) : Ledger Place :=
  { ledger with holds := Function.update ledger.holds place none, deleted := ledger.deleted ++ (ledger.holds place).toList }

theorem create_holds (ledger : Ledger Place) (place other : Place) :
    (ledger.create place).holds other = if other = place then some ledger.made else ledger.holds other :=
  Function.update_apply _ _ _ _

theorem transfer_holds (ledger : Ledger Place) (source target other : Place) :
    (ledger.transfer source target).holds other =
      if other = target then ledger.holds source else if other = source then none else ledger.holds other := by
  rw [← Function.update_apply ledger.holds]
  exact Function.update_apply _ _ _ _

theorem discard_holds (ledger : Ledger Place) (place other : Place) :
    (ledger.discard place).holds other = if other = place then none else ledger.holds other :=
  Function.update_apply _ _ _ _

theorem discard_deleted (ledger : Ledger Place) (place : Place) (object : Nat) :
    object ∈ (ledger.discard place).deleted ↔ object ∈ ledger.deleted ∨ ledger.holds place = some object := by
  change object ∈ ledger.deleted ++ (ledger.holds place).toList ↔ _
  rw [List.mem_append, Option.mem_toList]

theorem create_linear (ledger : Ledger Place) (linear : ledger.Linear) (place : Place) (free : ledger.holds place = none) :
    (ledger.create place).Linear := by
  have later (other : Place) (object : Nat) (holds : (ledger.create place).holds other = some object) :
      other = place ∧ object = ledger.made ∨ other ≠ place ∧ ledger.holds other = some object := by
    by_cases same : other = place
    · subst same
      rw [create_holds, if_pos rfl] at holds
      exact .inl ⟨rfl, (Option.some.inj holds).symm⟩
    · rw [create_holds, if_neg same] at holds
      exact .inr ⟨same, holds⟩
  refine ⟨?_, ?_, ?_, fun object member => Nat.lt_succ_of_lt (linear.known object member), linear.once⟩
  · intro other object holds
    rcases later other object holds with ⟨_, rfl⟩ | ⟨_, old⟩
    · exact ⟨Nat.lt_succ_self _, fun member => Nat.lt_irrefl _ (linear.known _ member)⟩
    · exact ⟨Nat.lt_succ_of_lt (linear.live other object old).1, (linear.live other object old).2⟩
  · intro first second object one two
    rcases later first object one with ⟨firstly, new⟩ | ⟨_, old⟩ <;> rcases later second object two with ⟨secondly, fresh⟩ | ⟨_, also⟩
    · rw [firstly, secondly]
    · exact absurd (linear.live second object also).1 (by rw [new]; exact Nat.lt_irrefl _)
    · exact absurd (linear.live first object old).1 (by rw [fresh]; exact Nat.lt_irrefl _)
    · exact linear.single first second object old also
  · intro object less live
    rcases Nat.lt_succ_iff_lt_or_eq.mp less with old | rfl
    · obtain ⟨other, holds⟩ := linear.owned object old live
      have different : other ≠ place := by
        rintro rfl
        rw [free] at holds
        cases holds
      exact ⟨other, by rw [create_holds, if_neg different, holds]⟩
    · exact ⟨place, by rw [create_holds, if_pos rfl]⟩

theorem transfer_self (ledger : Ledger Place) (place : Place) : ledger.transfer place place = ledger := by
  rw [transfer, Function.update_idem, Function.update_eq_self]

theorem transfer_linear (ledger : Ledger Place) (linear : ledger.Linear) (source target : Place) (free : ledger.holds target = none) :
    (ledger.transfer source target).Linear := by
  by_cases trivially : source = target
  · subst trivially
    rwa [transfer_self]
  have later (other : Place) (object : Nat) (holds : (ledger.transfer source target).holds other = some object) :
      other = target ∧ ledger.holds source = some object ∨ other ≠ source ∧ ledger.holds other = some object := by
    by_cases same : other = target
    · subst same
      rw [transfer_holds, if_pos rfl] at holds
      exact .inl ⟨rfl, holds⟩
    · rw [transfer_holds, if_neg same] at holds
      by_cases left : other = source
      · rw [if_pos left] at holds
        cases holds
      · rw [if_neg left] at holds
        exact .inr ⟨left, holds⟩
  refine ⟨?_, ?_, ?_, linear.known, linear.once⟩
  · intro other object holds
    rcases later other object holds with ⟨_, old⟩ | ⟨_, old⟩ <;> exact linear.live _ object old
  · intro first second object one two
    rcases later first object one with ⟨firstly, here⟩ | ⟨away, old⟩ <;> rcases later second object two with ⟨secondly, there⟩ | ⟨apart, also⟩
    · rw [firstly, secondly]
    · exact absurd (linear.single second source object also here) apart
    · exact absurd (linear.single first source object old there) away
    · exact linear.single first second object old also
  · intro object less live
    obtain ⟨other, holds⟩ := linear.owned object less live
    by_cases left : other = source
    · subst left
      exact ⟨target, by rw [transfer_holds, if_pos rfl, holds]⟩
    · have different : other ≠ target := by
        rintro rfl
        rw [free] at holds
        cases holds
      exact ⟨other, by rw [transfer_holds, if_neg different, if_neg left, holds]⟩

theorem discard_linear (ledger : Ledger Place) (linear : ledger.Linear) (place : Place) : (ledger.discard place).Linear := by
  have later (other : Place) (object : Nat) (holds : (ledger.discard place).holds other = some object) :
      other ≠ place ∧ ledger.holds other = some object := by
    by_cases same : other = place
    · rw [discard_holds, if_pos same] at holds
      cases holds
    · rw [discard_holds, if_neg same] at holds
      exact ⟨same, holds⟩
  refine ⟨?_, ?_, ?_, ?_, ?_⟩
  · intro other object holds
    obtain ⟨different, old⟩ := later other object holds
    refine ⟨(linear.live other object old).1, fun member => ?_⟩
    rcases (ledger.discard_deleted place object).mp member with already | here
    · exact (linear.live other object old).2 already
    · exact different (linear.single other place object old here)
  · intro first second object one two
    exact linear.single first second object (later first object one).2 (later second object two).2
  · intro object less live
    rw [discard_deleted, not_or] at live
    obtain ⟨other, holds⟩ := linear.owned object less live.1
    have different : other ≠ place := by
      rintro rfl
      exact live.2 holds
    exact ⟨other, by rw [discard_holds, if_neg different, holds]⟩
  · intro object member
    rcases (ledger.discard_deleted place object).mp member with already | here
    · exact linear.known object already
    · exact (linear.live place object here).1
  · refine List.nodup_append.mpr ⟨linear.once, Option.toList_nodup _, ?_⟩
    intro object already other here same
    exact (linear.live place other (Option.mem_toList.mp here)).2 (same ▸ already)

end

end Ledger
