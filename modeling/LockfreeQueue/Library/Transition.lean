import Mathlib.Data.List.Basic

set_option autoImplicit false

namespace Transition

-- A machine runs under a schedule: a list of actions, each of which either moves the state or
-- is refused. `allowed` is the promise the environment makes about the schedule.
structure Machine (State Action : Type) where
  start : State
  next : State → Action → Option State

inductive Path {State Action : Type} (machine : Machine State Action) (allowed : State → Action → Prop) :
    State → List Action → State → Prop where
  | done (state : State) : Path machine allowed state [] state
  | step (state middle final : State) (action : Action) (rest : List Action) (permitted : allowed state action)
      (moved : machine.next state action = some middle) (later : Path machine allowed middle rest final) :
      Path machine allowed state (action :: rest) final

def Reachable {State Action : Type} (machine : Machine State Action) (allowed : State → Action → Prop)
    (state : State) : Prop := ∃ actions, Path machine allowed machine.start actions state

def run {State Action : Type} (machine : Machine State Action) : List Action → State → Option State
  | [], state => some state
  | action :: rest, state => (machine.next state action).bind (run machine rest)

-- The checked run refuses an action that breaks the promise, so a computed run is a path.
def checkedRun {State Action : Type} (machine : Machine State Action) (allowed : State → Action → Prop)
    [∀ state action, Decidable (allowed state action)] : List Action → State → Option State
  | [], state => some state
  | action :: rest, state =>
      if allowed state action then (machine.next state action).bind (checkedRun machine allowed rest) else none

section

variable {State Action : Type} (machine : Machine State Action) (allowed : State → Action → Prop)

theorem path_invariant (Inv : State → Prop)
    (preserved : ∀ state action next, Inv state → allowed state action →
      machine.next state action = some next → Inv next)
    (state final : State) (actions : List Action) (path : Path machine allowed state actions final)
    (holds : Inv state) : Inv final := by
  induction path with
  | done state => exact holds
  | step state middle final action rest permitted moved later ih =>
      exact ih (preserved state action middle holds permitted moved)

theorem reachable_invariant (Inv : State → Prop) (initial : Inv machine.start)
    (preserved : ∀ state action next, Inv state → allowed state action →
      machine.next state action = some next → Inv next)
    (state : State) (reached : Reachable machine allowed state) : Inv state := by
  obtain ⟨actions, path⟩ := reached
  exact path_invariant machine allowed Inv preserved machine.start state actions path initial

theorem path_append (state middle final : State) (first second : List Action)
    (early : Path machine allowed state first middle) (late : Path machine allowed middle second final) :
    Path machine allowed state (first ++ second) final := by
  induction early with
  | done state => exact late
  | step state middle _ action rest permitted moved later ih =>
      exact .step state middle final action (rest ++ second) permitted moved (ih late)

theorem reachable_start : Reachable machine allowed machine.start := ⟨[], .done machine.start⟩

theorem reachable_step (state next : State) (action : Action) (reached : Reachable machine allowed state)
    (permitted : allowed state action) (moved : machine.next state action = some next) :
    Reachable machine allowed next := by
  obtain ⟨actions, path⟩ := reached
  exact ⟨actions ++ [action], path_append machine allowed _ state next actions [action] path
    (.step state next next action [] permitted moved (.done next))⟩

theorem reachable_path (state final : State) (actions : List Action) (reached : Reachable machine allowed state)
    (path : Path machine allowed state actions final) : Reachable machine allowed final := by
  obtain ⟨before, early⟩ := reached
  exact ⟨before ++ actions, path_append machine allowed _ state final before actions early path⟩

-- An invariant that also speaks of the actions taken so far.
theorem path_history (Inv : List Action → State → Prop)
    (preserved : ∀ taken state action next, Inv taken state → allowed state action → machine.next state action = some next →
      Inv (taken ++ [action]) next)
    (state final : State) (taken actions : List Action) (path : Path machine allowed state actions final) (holds : Inv taken state) :
    Inv (taken ++ actions) final := by
  induction path generalizing taken with
  | done state =>
      rw [List.append_nil]
      exact holds
  | step state middle final action rest permitted moved later ih =>
      rw [List.append_cons]
      exact ih (taken ++ [action]) (preserved taken state action middle holds permitted moved)

-- A promise that follows from a stronger one.
theorem path_weaken (weaker : State → Action → Prop)
    (implied : ∀ state action, allowed state action → weaker state action)
    (state final : State) (actions : List Action) (path : Path machine allowed state actions final) :
    Path machine weaker state actions final := by
  induction path with
  | done state => exact .done state
  | step state middle final action rest permitted moved later ih =>
      exact .step state middle final action rest (implied state action permitted) moved ih

theorem reachable_weaken (weaker : State → Action → Prop)
    (implied : ∀ state action, allowed state action → weaker state action)
    (state : State) (reached : Reachable machine allowed state) : Reachable machine weaker state := by
  obtain ⟨actions, path⟩ := reached
  exact ⟨actions, path_weaken machine allowed weaker implied machine.start state actions path⟩

theorem run_append (first second : List Action) (state : State) :
    run machine (first ++ second) state = (run machine first state).bind (run machine second) := by
  induction first generalizing state with
  | nil => rfl
  | cons action rest ih =>
      simp only [List.cons_append, run]
      cases machine.next state action with
      | none => rfl
      | some middle => exact ih middle

theorem checked_run_path [∀ state action, Decidable (allowed state action)] (actions : List Action)
    (state final : State) (completed : checkedRun machine allowed actions state = some final) :
    Path machine allowed state actions final := by
  induction actions generalizing state with
  | nil =>
      have same : state = final := Option.some.inj completed
      subst same
      exact .done state
  | cons action rest ih =>
      by_cases permitted : allowed state action
      · rw [checkedRun, if_pos permitted] at completed
        obtain ⟨middle, moved, later⟩ := Option.bind_eq_some_iff.mp completed
        exact .step state middle final action rest permitted moved (ih middle later)
      · simp [checkedRun, permitted] at completed

-- A property of the end of a run that each step keeps exactly when the step meets a condition
-- holds after a run exactly when all its steps meet it.
theorem path_condition_iff (Inv Good : State → Prop) (condition : State → Action → Prop)
    (preserved : ∀ state action next, Inv state → machine.next state action = some next → Inv next)
    (exact : ∀ state action next, Inv state → machine.next state action = some next → (Good next ↔ Good state ∧ condition state action))
    (state final : State) (actions : List Action) (path : Path machine allowed state actions final) (holds : Inv state) :
    Good final ↔ Good state ∧ Path machine (fun state action => allowed state action ∧ condition state action) state actions final := by
  induction path with
  | done state => exact ⟨fun good => ⟨good, .done state⟩, fun good => good.1⟩
  | step state middle final action rest permitted moved later ih =>
      have stepped := exact state action middle holds moved
      have ran := ih (preserved state action middle holds moved)
      constructor
      · intro good
        obtain ⟨middleGood, conditioned⟩ := ran.mp good
        obtain ⟨stateGood, met⟩ := stepped.mp middleGood
        exact ⟨stateGood, .step state middle final action rest ⟨permitted, met⟩ moved conditioned⟩
      · rintro ⟨stateGood, conditioned⟩
        cases conditioned with
        | step _ other _ _ _ met again conditioned =>
            have same : other = middle := Option.some.inj (again.symm.trans moved)
            subst same
            exact ran.mpr ⟨stepped.mpr ⟨stateGood, met.2⟩, conditioned⟩

-- Where each own action uses up one of the steps left and no other action adds to them, that many
-- own actions are enough to be done.
theorem path_ends (own : Action → Bool) (Left : State → Nat → Prop) (Done : State → Prop)
    (others : ∀ state action next rank, Left state rank → ¬ Done state → allowed state action →
      machine.next state action = some next → own action = false → Left next rank)
    (owned : ∀ state action next rank, Left state (rank + 1) → ¬ Done state → allowed state action →
      machine.next state action = some next → own action = true → Left next rank)
    (ended : ∀ state, Left state 0 → Done state)
    (state final : State) (actions : List Action) (rank : Nat) (path : Path machine allowed state actions final)
    (left : Left state rank) (enough : rank ≤ actions.countP own) :
    ∃ earlier later middle, actions = earlier ++ later ∧ Path machine allowed state earlier middle ∧ Done middle ∧
      earlier.countP own ≤ rank := by
  induction path generalizing rank with
  | done state =>
      have none : rank = 0 := by simpa using enough
      subst none
      exact ⟨[], [], state, rfl, .done state, ended state left, Nat.zero_le _⟩
  | step state next final action rest permitted moved later ih =>
      by_cases finished : Done state
      · exact ⟨[], action :: rest, state, rfl, .done state, finished, Nat.zero_le _⟩
      rw [List.countP_cons] at enough
      cases mine : own action with
      | false =>
          obtain ⟨earlier, more, middle, split, early, ends, count⟩ := ih rank
            (others state action next rank left finished permitted moved mine) (by simpa [mine] using enough)
          refine ⟨action :: earlier, more, middle, by rw [split]; rfl, .step state next middle action earlier permitted moved early,
            ends, ?_⟩
          rw [List.countP_cons, mine]
          simpa using count
      | true =>
          cases rank with
          | zero => exact absurd (ended state left) finished
          | succ rank =>
              obtain ⟨earlier, more, middle, split, early, ends, count⟩ := ih rank
                (owned state action next rank left finished permitted moved mine) (by simpa [mine] using enough)
              refine ⟨action :: earlier, more, middle, by rw [split]; rfl, .step state next middle action earlier permitted moved early,
                ends, ?_⟩
              rw [List.countP_cons, mine]
              simpa using count

-- A machine whose actions are those of another one, or none of its concern, runs as that one does.
theorem run_simulates {Abstract Other : Type} (other : Machine Abstract Other) (translate : Action → Option Other)
    (Related : State → Abstract → Prop)
    (silent : ∀ state abstract action next, Related state abstract → translate action = none →
      machine.next state action = some next → Related next abstract)
    (follows : ∀ state abstract action move next, Related state abstract → translate action = some move →
      machine.next state action = some next → ∃ after, other.next abstract move = some after ∧ Related next after)
    (actions : List Action) (state final : State) (abstract : Abstract) (related : Related state abstract)
    (ran : run machine actions state = some final) :
    ∃ last, run other (actions.filterMap translate) abstract = some last ∧ Related final last := by
  induction actions generalizing state abstract with
  | nil =>
      have same : state = final := Option.some.inj ran
      exact ⟨abstract, rfl, same ▸ related⟩
  | cons action rest ih =>
      obtain ⟨middle, moved, later⟩ := Option.bind_eq_some_iff.mp ran
      cases translated : translate action with
      | none =>
          rw [List.filterMap_cons_none translated]
          exact ih middle abstract (silent state abstract action middle related translated moved) later
      | some move =>
          obtain ⟨after, stepped, kept⟩ := follows state abstract action move middle related translated moved
          obtain ⟨last, ended, matched⟩ := ih middle after kept later
          rw [List.filterMap_cons_some translated, run, stepped]
          exact ⟨last, ended, matched⟩

end

end Transition
