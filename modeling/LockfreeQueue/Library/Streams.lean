import Mathlib.Data.List.Range
import Mathlib.Logic.Function.Basic

set_option autoImplicit false

namespace Streams

section

variable {α Key : Type} [DecidableEq Key] (key : α → Key) (element : Key → Nat → α)

-- A list in which several numbered streams run together: of each stream it holds, in its order,
-- the elements from the first that has not been taken to the last that has been put.
def Merged (items : List α) (taken put : Key → Nat) : Prop :=
  ∀ stream, taken stream ≤ put stream ∧ items.filter (fun item => key item = stream) =
    (List.range' (taken stream) (put stream - taken stream)).map (element stream)

theorem merged_nil : Merged key element [] (fun _ => 0) (fun _ => 0) := fun _ => ⟨Nat.le_refl 0, rfl⟩

variable (items : List α) (taken put : Key → Nat) (stream : Key)

theorem merged_put (merged : Merged key element items taken put) (own : key (element stream (put stream)) = stream) :
    Merged key element (items ++ [element stream (put stream)]) taken (Function.update put stream (put stream + 1)) := by
  intro other
  obtain ⟨bound, order⟩ := merged other
  rw [List.filter_append, order]
  by_cases same : other = stream
  · subst same
    have more : put other + 1 - taken other = put other - taken other + 1 := by omega
    have last : taken other + (put other - taken other) = put other := by omega
    refine ⟨by rw [Function.update_self]; omega, ?_⟩
    rw [Function.update_self, more, List.range'_concat, List.map_append, Nat.one_mul, last,
      List.filter_singleton, decide_eq_true own]
    rfl
  · refine ⟨by rw [Function.update_of_ne same]; exact bound, ?_⟩
    rw [Function.update_of_ne same, List.filter_singleton, own, decide_eq_false (Ne.symm same)]
    exact List.append_nil _

theorem merged_take (first : α) (merged : Merged key element (first :: items) taken put) :
    first = element (key first) (taken (key first)) ∧ taken (key first) < put (key first) ∧
      Merged key element items (Function.update taken (key first) (taken (key first) + 1)) put := by
  obtain ⟨bound, order⟩ := merged (key first)
  rw [List.filter_cons_of_pos (by simp)] at order
  have less : taken (key first) < put (key first) := by
    by_contra none
    rw [Nat.sub_eq_zero_of_le (Nat.le_of_not_lt none)] at order
    cases order
  have fewer : put (key first) - taken (key first) = put (key first) - (taken (key first) + 1) + 1 := by omega
  rw [fewer, List.range'_succ, List.map_cons] at order
  obtain ⟨head, rest⟩ := List.cons.inj order
  refine ⟨head, less, fun other => ?_⟩
  by_cases same : other = key first
  · subst same
    rw [Function.update_self]
    exact ⟨less, rest⟩
  · obtain ⟨bound, order⟩ := merged other
    rw [List.filter_cons_of_neg (by simpa using Ne.symm same)] at order
    rw [Function.update_of_ne same]
    exact ⟨bound, order⟩

theorem merged_done (merged : Merged key element items taken put) : items = [] ↔ ∀ stream, taken stream = put stream := by
  constructor
  · rintro rfl stream
    obtain ⟨bound, order⟩ := merged stream
    have length := congrArg List.length order
    rw [List.filter_nil, List.length_nil, List.length_map, List.length_range'] at length
    omega
  · intro all
    cases items with
    | nil => rfl
    | cons first rest =>
        have less := (merged_take key element rest taken put first merged).2.1
        have done := all (key first)
        omega

end

-- Elements that have been taken, each held by one thread until it is served in its turn.
structure Turns {Key : Type} (served taken : Key → Nat) (holds : Nat → Option (Key × Nat)) : Prop where
  once : ∀ thread other ticket, holds thread = some ticket → holds other = some ticket → thread = other
  waits : ∀ thread stream number, holds thread = some (stream, number) → served stream ≤ number ∧ number < taken stream
  every : ∀ stream number, served stream ≤ number → number < taken stream → ∃ thread, holds thread = some (stream, number)
  behind : ∀ stream, served stream ≤ taken stream

section

variable {Key : Type} (served taken : Key → Nat) (holds : Nat → Option (Key × Nat)) (thread : Nat) (stream : Key)

theorem turns_start : Turns (fun _ : Key => 0) (fun _ => 0) (fun _ => none) where
  once := fun _ _ _ nothing => nomatch nothing
  waits := fun _ _ _ nothing => nomatch nothing
  every := fun _ number _ none => absurd none (Nat.not_lt_zero number)
  behind := fun _ => Nat.le_refl 0

-- A thread that is the only one to hold anything holds what comes next.
theorem turns_single (turns : Turns served taken holds) (alone : ∀ other, other ≠ thread → holds other = none) (number : Nat)
    (held : holds thread = some (stream, number)) : number = served stream := by
  obtain ⟨late, early⟩ := turns.waits thread stream number held
  obtain ⟨holder, next⟩ := turns.every stream (served stream) (Nat.le_refl _) (Nat.lt_of_le_of_lt late early)
  have same : holder = thread := by
    by_contra apart
    rw [alone holder apart] at next
    cases next
  rw [same, held] at next
  exact (Prod.mk.inj (Option.some.inj next)).2

-- While anything of a stream is held, so is the element whose turn it is.
theorem turns_next (turns : Turns served taken holds) (number : Nat) (held : holds thread = some (stream, number)) :
    ∃ holder, holds holder = some (stream, served stream) := by
  obtain ⟨late, early⟩ := turns.waits thread stream number held
  exact turns.every stream (served stream) (Nat.le_refl _) (Nat.lt_of_le_of_lt late early)

theorem turns_done (turns : Turns served taken holds) (none : ∀ thread, holds thread = none) : served stream = taken stream := by
  by_contra apart
  have bound := turns.behind stream
  obtain ⟨holder, held⟩ := turns.every stream (served stream) (Nat.le_refl _) (by omega)
  rw [none holder] at held
  cases held

variable [DecidableEq Key]

theorem turns_take (turns : Turns served taken holds) (free : holds thread = none) :
    Turns served (Function.update taken stream (taken stream + 1)) (Function.update holds thread (some (stream, taken stream))) where
  once := by
    intro left right ticket first second
    by_cases mine : left = thread <;> by_cases yours : right = thread
    · rw [mine, yours]
    · rw [mine, Function.update_self] at first
      rw [Function.update_of_ne yours, ← first] at second
      exact absurd (turns.waits right stream _ second).2 (Nat.lt_irrefl _)
    · rw [yours, Function.update_self] at second
      rw [Function.update_of_ne mine, ← second] at first
      exact absurd (turns.waits left stream _ first).2 (Nat.lt_irrefl _)
    · rw [Function.update_of_ne mine] at first
      rw [Function.update_of_ne yours] at second
      exact turns.once left right ticket first second
  waits := by
    intro other key number held
    by_cases mine : other = thread
    · rw [mine, Function.update_self] at held
      cases held
      rw [Function.update_self]
      exact ⟨turns.behind stream, Nat.lt_succ_self _⟩
    · rw [Function.update_of_ne mine] at held
      obtain ⟨late, early⟩ := turns.waits other key number held
      refine ⟨late, ?_⟩
      by_cases same : key = stream
      · rw [same] at early ⊢
        rw [Function.update_self]
        omega
      · rwa [Function.update_of_ne same]
  every := by
    intro key number late early
    by_cases last : key = stream ∧ number = taken stream
    · obtain ⟨rfl, rfl⟩ := last
      exact ⟨thread, Function.update_self ..⟩
    · have before : number < taken key := by
        by_cases same : key = stream
        · subst same
          rw [Function.update_self] at early
          have apart : number ≠ taken key := fun same => last ⟨rfl, same⟩
          omega
        · rwa [Function.update_of_ne same] at early
      obtain ⟨holder, held⟩ := turns.every key number late before
      refine ⟨holder, ?_⟩
      rw [Function.update_of_ne (fun same => ?_)]
      · exact held
      · rw [same, free] at held
        cases held
  behind := by
    intro key
    have bound := turns.behind key
    by_cases same : key = stream
    · rw [same] at bound ⊢
      rw [Function.update_self]
      omega
    · rwa [Function.update_of_ne same]

theorem turns_serve (turns : Turns served taken holds) (held : holds thread = some (stream, served stream)) :
    Turns (Function.update served stream (served stream + 1)) taken (Function.update holds thread none) where
  once := by
    intro left right ticket first second
    have mine : left ≠ thread := fun same => by rw [same, Function.update_self] at first; cases first
    have yours : right ≠ thread := fun same => by rw [same, Function.update_self] at second; cases second
    rw [Function.update_of_ne mine] at first
    rw [Function.update_of_ne yours] at second
    exact turns.once left right ticket first second
  waits := by
    intro other key number waiting
    have apart : other ≠ thread := fun same => by rw [same, Function.update_self] at waiting; cases waiting
    rw [Function.update_of_ne apart] at waiting
    obtain ⟨late, early⟩ := turns.waits other key number waiting
    refine ⟨?_, early⟩
    by_cases same : key = stream
    · subst same
      rw [Function.update_self]
      have another : number ≠ served key := fun same => apart (turns.once other thread (key, number) waiting (by rw [held, same]))
      omega
    · rwa [Function.update_of_ne same]
  every := by
    intro key number late early
    have further : served key ≤ number ∧ (key, number) ≠ (stream, served stream) := by
      by_cases same : key = stream
      · subst same
        rw [Function.update_self] at late
        exact ⟨by omega, fun same => by cases same; omega⟩
      · rw [Function.update_of_ne same] at late
        exact ⟨late, fun pair => same (Prod.mk.inj pair).1⟩
    obtain ⟨holder, waiting⟩ := turns.every key number further.1 early
    refine ⟨holder, ?_⟩
    rw [Function.update_of_ne (fun same => ?_)]
    · exact waiting
    · rw [same, held] at waiting
      exact further.2 (Option.some.inj waiting).symm
  behind := by
    intro key
    by_cases same : key = stream
    · subst same
      rw [Function.update_self]
      exact (turns.waits thread key _ held).2
    · rw [Function.update_of_ne same]
      exact turns.behind key

end

end Streams
