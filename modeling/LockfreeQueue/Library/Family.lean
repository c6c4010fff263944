import LockfreeQueue.Library.Service

set_option autoImplicit false

namespace Service

-- Several objects of one kind, and on which of them each thread has its call.
structure Family (Index State : Type) where
  members : Index → State
  busy : Nat → Option Index

section

variable {Index State Move Value Stage Call Reply Choice : Type}

def released (busy : Nat → Option Index) : List (Interaction Call Reply) → Nat → Option Index
  | [] => busy
  | .invoked _ _ :: history => released busy history
  | .replied thread _ :: history => released (Function.update busy thread none) history

def family (Index : Type) [DecidableEq Index] (object : Object State Move Call Reply) :
    Object (Family Index State) (Index × Move) (Index × Call) Reply where
  start := ⟨fun _ => object.start, fun _ => none⟩
  invoke state thread call :=
    match state.busy thread with
    | none => (object.invoke (state.members call.1) thread call.2).map fun entered =>
        ⟨Function.update state.members call.1 entered, Function.update state.busy thread (some call.1)⟩
    | some _ => none
  move state move := (object.move (state.members move.1) move.2).map fun moved =>
    (⟨Function.update state.members move.1 moved.1, released state.busy (answers moved.2 : List (Interaction Call Reply))⟩, moved.2)

def Progress.tagged (j : Index) : Progress Stage Reply → Progress (Index × Stage) Reply
  | .active stage => .active (j, stage)
  | .decided reply => .decided reply

def familySpec (Index : Type) [DecidableEq Index] (spec : Spec Value Stage Call Reply Choice) :
    Spec (Index → Value) (Index × Stage) (Index × Call) Reply Choice where
  start := fun _ => spec.start
  enter call := (call.1, spec.enter call.2)
  commit values stage choice :=
    let committed := spec.commit (values stage.1) stage.2 choice
    (Function.update values stage.1 committed.1, committed.2.tagged stage.1)

def Interaction.tagged (j : Index) : Interaction Call Reply → Interaction (Index × Call) Reply
  | .invoked thread call => .invoked thread (j, call)
  | .replied thread reply => .replied thread reply

-- The atomic family that a family of atomic objects is, when no thread has calls on two members.
def combined (atomics : Index → Atomic Value Stage Reply) (busy : Nat → Option Index) :
    Atomic (Index → Value) (Index × Stage) Reply :=
  ⟨fun j => (atomics j).value, fun thread => (busy thread).bind fun j => ((atomics j).pending thread).map (Progress.tagged j)⟩

def Apart (atomics : Index → Atomic Value Stage Reply) (busy : Nat → Option Index) : Prop :=
  ∀ thread j, busy thread ≠ some j → (atomics j).pending thread = none

theorem apart_busy (atomics : Index → Atomic Value Stage Reply) (busy : Nat → Option Index) (apart : Apart atomics busy)
    (thread : Nat) (j : Index) (progress : Progress Stage Reply) (pending : (atomics j).pending thread = some progress) :
    busy thread = some j := by
  by_contra other
  rw [apart thread j other] at pending
  cases pending

theorem combined_pending (atomics : Index → Atomic Value Stage Reply) (busy : Nat → Option Index) (thread : Nat) (j : Index)
    (here : busy thread = some j) : (combined atomics busy).pending thread = ((atomics j).pending thread).map (Progress.tagged j) := by
  simp only [combined, here, Option.bind_some]

theorem tagged_answers (j : Index) (reply : Option (Nat × Reply)) :
    (answers reply : List (Interaction Call Reply)).map (Interaction.tagged j) = answers reply := by
  cases reply <;> rfl

variable [DecidableEq Index] (atomics : Index → Atomic Value Stage Reply) (busy : Nat → Option Index) (thread : Nat) (j : Index)
variable (value : Value) (progress : Option (Progress Stage Reply)) (place : Option Index)

def placed : Index → Atomic Value Stage Reply :=
  Function.update atomics j ⟨value, Function.update (atomics j).pending thread progress⟩

theorem combined_placed (named : place = some j ∨ place = none ∧ progress = none) :
    combined (placed atomics thread j value progress) (Function.update busy thread place) =
      ⟨Function.update (combined atomics busy).value j value,
        Function.update (combined atomics busy).pending thread (progress.map (Progress.tagged j))⟩ := by
  rw [combined, Atomic.mk.injEq]
  constructor
  · funext i
    by_cases same : i = j
    · subst same
      simp only [placed, Function.update_self]
    · simp only [placed, combined, Function.update_of_ne same]
  · funext other
    by_cases same : other = thread
    · subst same
      rcases named with rfl | ⟨rfl, rfl⟩ <;> simp only [placed, Function.update_self, Option.bind_some, Option.bind_none, Option.map_none]
    · simp only [combined, Function.update_of_ne same]
      cases busy other with
      | none => rfl
      | some i =>
          by_cases here : i = j
          · subst here
            simp only [placed, Function.update_self, Function.update_of_ne same, Option.bind_some]
          · simp only [placed, Function.update_of_ne here, Option.bind_some]

theorem apart_placed (apart : Apart atomics busy) (before : busy thread = none ∨ busy thread = some j)
    (named : place = some j ∨ place = none ∧ progress = none) :
    Apart (placed atomics thread j value progress) (Function.update busy thread place) := by
  intro other i elsewhere
  by_cases member : i = j
  · subst member
    by_cases same : other = thread
    · subst same
      rw [Function.update_self] at elsewhere
      rcases named with here | ⟨_, nothing⟩
      · exact absurd here elsewhere
      · simp only [placed, Function.update_self, nothing]
    · rw [Function.update_of_ne same] at elsewhere
      simp only [placed, Function.update_self, Function.update_of_ne same]
      exact apart other i elsewhere
  · simp only [placed, Function.update_of_ne member]
    by_cases same : other = thread
    · subst same
      refine apart other i fun here => ?_
      rcases before with idle | mine
      · rw [idle] at here
        cases here
      · rw [mine] at here
        exact member (Option.some.inj here).symm
    · rw [Function.update_of_ne same] at elsewhere
      exact apart other i elsewhere

variable (spec : Spec Value Stage Call Reply Choice)

-- A run of one member in which no call is invoked is a run of the family.
theorem member_runs (atomic after : Atomic Value Stage Reply) (history : List (Interaction Call Reply))
    (run : Runs (Service.atomic spec) Free atomic history after)
    (replies : ∀ thread call, Interaction.invoked thread call ∉ history) (same : atomics j = atomic) (apart : Apart atomics busy) :
    Runs (Service.atomic (familySpec Index spec)) Free (combined atomics busy) (history.map (Interaction.tagged j))
        (combined (Function.update atomics j after) (released busy history)) ∧
      Apart (Function.update atomics j after) (released busy history) := by
  induction run generalizing atomics busy with
  | done atomic =>
      rw [← same, Function.update_eq_self]
      exact ⟨.done _, apart⟩
  | invoke atomic middle final thread call history entered later ih => exact absurd (List.mem_cons_self ..) (replies thread call)
  | move atomic middle final move reply history permitted moved later ih =>
      subst same
      have rest (thread : Nat) (call : Call) : Interaction.invoked thread call ∉ history :=
        fun member => replies thread call (List.mem_append_right _ member)
      cases move with
      | commit thread choice =>
          cases pending : (atomics j).pending thread with
          | none => simp [Service.atomic, pending] at moved
          | some progress =>
              cases progress with
              | decided answer => simp [Service.atomic, pending] at moved
              | active stage =>
                  rw [atomic_commit spec (atomics j) thread stage choice pending] at moved
                  cases moved
                  have here := apart_busy atomics busy apart thread j _ pending
                  have active : (combined atomics busy).pending thread = some (.active (j, stage)) := by
                    rw [combined_pending atomics busy thread j here, pending]
                    rfl
                  have commit := runs_move _ Free _ _ _ _ trivial
                    (atomic_commit (familySpec Index spec) (combined atomics busy) thread (j, stage) choice active)
                  have kept := apart_placed atomics busy thread j (spec.commit (atomics j).value stage choice).1
                    (some (spec.commit (atomics j).value stage choice).2) (some j) apart (.inr here) (.inl rfl)
                  have result := combined_placed atomics busy thread j (spec.commit (atomics j).value stage choice).1
                    (some (spec.commit (atomics j).value stage choice).2) (some j) (.inl rfl)
                  rw [← here, Function.update_eq_self] at kept result
                  obtain ⟨ran, last⟩ := ih (placed atomics thread j _ _) busy rest (Function.update_self _ _ _) kept
                  rw [placed, Function.update_idem] at ran last
                  rw [← placed, result] at ran
                  exact ⟨runs_append _ _ _ _ _ _ _ commit ran, last⟩
      | finish thread =>
          cases pending : (atomics j).pending thread with
          | none => simp [Service.atomic, pending] at moved
          | some progress =>
              cases progress with
              | active stage => simp [Service.atomic, pending] at moved
              | decided answer =>
                  rw [atomic_finish spec (atomics j) thread answer pending] at moved
                  cases moved
                  have here := apart_busy atomics busy apart thread j _ pending
                  have decided : (combined atomics busy).pending thread = some (.decided answer) := by
                    rw [combined_pending atomics busy thread j here, pending]
                    rfl
                  have finish := runs_move _ Free _ _ _ _ trivial
                    (atomic_finish (familySpec Index spec) (combined atomics busy) thread answer decided)
                  have kept := apart_placed atomics busy thread j (atomics j).value none none apart (.inr here) (.inr ⟨rfl, rfl⟩)
                  have result := combined_placed atomics busy thread j (atomics j).value none none (.inr ⟨rfl, rfl⟩)
                  obtain ⟨ran, last⟩ := ih (placed atomics thread j _ none) (Function.update busy thread none) rest
                    (Function.update_self _ _ _) kept
                  rw [placed, Function.update_idem] at ran last
                  have values : Function.update (combined atomics busy).value j (atomics j).value = (combined atomics busy).value :=
                    Function.update_eq_self j (combined atomics busy).value
                  rw [← placed, result, values] at ran
                  exact ⟨runs_append _ _ _ _ _ _ _ finish ran, last⟩

end

section

variable {Index State Move Value Stage Call Reply Choice : Type} [DecidableEq Index]
variable (object : Object State Move Call Reply) (spec : Spec Value Stage Call Reply Choice)
variable (allowed : State → Move → Prop) (Related : State → Atomic Value Stage Reply → Prop)

def MemberAllowed (family : Family Index State) (move : Index × Move) : Prop := allowed (family.members move.1) move.2

def MembersRelated (family : Family Index State) (atomic : Atomic (Index → Value) (Index × Stage) Reply) : Prop :=
  ∃ atomics, (∀ j, Related (family.members j) (atomics j)) ∧ Apart atomics family.busy ∧ atomic = combined atomics family.busy

theorem related_update (members : Index → State) (atomics : Index → Atomic Value Stage Reply) (j : Index) (state : State)
    (atomic : Atomic Value Stage Reply) (related : ∀ i, Related (members i) (atomics i)) (here : Related state atomic) (i : Index) :
    Related (Function.update members j state i) (Function.update atomics j atomic i) := by
  by_cases same : i = j
  · subst same
    simpa only [Function.update_self] using here
  · simpa only [Function.update_of_ne same] using related i

-- A family of objects that each simulate a specification simulates the family of specifications.
theorem family_simulates (simulates : Simulates object (Service.atomic spec) allowed Related) :
    Simulates (family Index object) (Service.atomic (familySpec Index spec)) (MemberAllowed allowed) (MembersRelated Related) where
  start := ⟨fun _ => (Service.atomic spec).start, fun _ => simulates.start, fun _ _ _ => rfl, rfl⟩
  invoke state atomic thread call next related moved := by
    obtain ⟨atomics, each, apart, rfl⟩ := related
    cases idle : state.busy thread with
    | some i => simp [family, idle] at moved
    | none =>
        simp only [family, idle] at moved
        obtain ⟨entered, accepted, rfl⟩ := Option.map_eq_some_iff.mp moved
        obtain ⟨after, matching, kept⟩ := simulates.invoke _ (atomics call.1) thread call.2 entered (each call.1) accepted
        have free : (atomics call.1).pending thread = none := apart thread call.1 (by rw [idle]; simp)
        rw [atomic_invoke spec _ thread call.2 free] at matching
        cases matching
        have open_ : (combined atomics state.busy).pending thread = none := by simp only [combined, idle, Option.bind_none]
        refine ⟨_, atomic_invoke (familySpec Index spec) _ thread call open_, placed atomics thread call.1 (atomics call.1).value
          (some (.active (spec.enter call.2))), related_update Related state.members atomics call.1 entered _ each kept,
          apart_placed atomics state.busy thread call.1 _ _ _ apart (.inl idle) (.inl rfl), ?_⟩
        rw [combined_placed atomics state.busy thread call.1 _ _ _ (.inl rfl)]
        have values : Function.update (combined atomics state.busy).value call.1 (atomics call.1).value =
            (combined atomics state.busy).value := Function.update_eq_self call.1 (combined atomics state.busy).value
        rw [values]
        rfl
  move state atomic move next reply related permitted moved := by
    obtain ⟨atomics, each, apart, rfl⟩ := related
    obtain ⟨⟨member, answer⟩, stepped, result⟩ := Option.map_eq_some_iff.mp moved
    cases result
    obtain ⟨after, run, kept⟩ := simulates.move _ (atomics move.1) move.2 member answer (each move.1) permitted stepped
    have replies (thread : Nat) (call : Call) : Interaction.invoked thread call ∉ (answers answer : List (Interaction Call Reply)) := by
      cases answer <;> simp [answers]
    obtain ⟨ran, last⟩ := member_runs atomics state.busy move.1 spec (atomics move.1) after _ run replies rfl apart
    rw [tagged_answers] at ran
    exact ⟨_, ran, _, related_update Related state.members atomics move.1 member after each kept, last, rfl⟩

end

end Service
