import Mathlib.Algebra.BigOperators.Group.Finset.Piecewise
import LockfreeQueue.Library.Service

set_option autoImplicit false

namespace Service

-- A multithreaded program over one shared object: threads with variables of their own, the
-- program's shared variables, and the calls that each thread makes where its variables say so.
-- `Choice` is what the program cannot know, a clock or the outcome of a race outside the object.
structure Program (Private Shared Choice Call Reply : Type) where
  shared : Shared
  privates : Nat → Private
  step : Nat → Shared → Private → Choice → Option (Shared × Private)
  call : Nat → Private → Option Call
  reply : Nat → Private → Reply → Private

inductive Thread (Private : Type) where
  | own (locals : Private)
  | waiting (locals : Private)
deriving DecidableEq

structure Hosted (Private Shared State : Type) where
  shared : Shared
  threads : Nat → Thread Private
  object : State

inductive HostedAction (Choice Move : Type) where
  | own (thread : Nat) (choice : Choice)
  | invoke (thread : Nat)
  | move (move : Move)

-- A schedule in which each action stands with the number of times it is taken in a row.
def repeated {Action : Type} (schedule : List (Nat × Action)) : List Action :=
  schedule.flatMap fun entry => List.replicate entry.1 entry.2

section

variable {Private Shared Choice Call Reply State Move : Type} (program : Program Private Shared Choice Call Reply)
variable (object : Object State Move Call Reply)

def deliver (threads : Nat → Thread Private) (thread : Nat) (reply : Reply) : Nat → Thread Private :=
  match threads thread with
  | .waiting locals => Function.update threads thread (.own (program.reply thread locals reply))
  | .own _ => threads

def delivered (threads : Nat → Thread Private) : List (Interaction Call Reply) → Nat → Thread Private
  | [] => threads
  | .invoked _ _ :: history => delivered threads history
  | .replied thread reply :: history => delivered (deliver program threads thread reply) history

def Hosted.next (state : Hosted Private Shared State) : HostedAction Choice Move → Option (Hosted Private Shared State)
  | .own thread choice =>
      match state.threads thread with
      | .own locals => (program.step thread state.shared locals choice).map fun stepped =>
          { state with shared := stepped.1, threads := Function.update state.threads thread (.own stepped.2) }
      | .waiting _ => none
  | .invoke thread =>
      match state.threads thread with
      | .own locals => (program.call thread locals).bind fun call => (object.invoke state.object thread call).map fun entered =>
          { state with threads := Function.update state.threads thread (.waiting locals), object := entered }
      | .waiting _ => none
  | .move move => (object.move state.object move).map fun moved =>
      { state with threads := delivered program state.threads (answers moved.2), object := moved.1 }

def hosted : Transition.Machine (Hosted Private Shared State) (HostedAction Choice Move) :=
  ⟨⟨program.shared, fun thread => .own (program.privates thread), object.start⟩, Hosted.next program object⟩

def Permits (allowed : State → Move → Prop) (state : Hosted Private Shared State) : HostedAction Choice Move → Prop
  | .move move => allowed state.object move
  | .own _ _ | .invoke _ => True

instance (allowed : State → Move → Prop) [∀ state move, Decidable (allowed state move)] (state : Hosted Private Shared State)
    (action : HostedAction Choice Move) : Decidable (Permits allowed state action) :=
  match action with
  | .move move => inferInstanceAs (Decidable (allowed state.object move))
  | .own _ _ => isTrue trivial
  | .invoke _ => isTrue trivial

end

-- A sum over the threads when one of them takes a step.
theorem total_update {Private Weight : Type} [AddCommMonoid Weight] (threads : Finset Nat) (weigh : Private → Weight)
    (privates : Nat → Private) (thread : Nat) (after : Private) (member : thread ∈ threads) :
    ∑ other ∈ threads, weigh (Function.update privates thread after other) + weigh (privates thread) =
      ∑ other ∈ threads, weigh (privates other) + weigh after := by
  have others : ∀ other ∈ threads.erase thread, weigh (Function.update privates thread after other) = weigh (privates other) :=
    fun other there => by rw [Function.update_of_ne (Finset.ne_of_mem_erase there)]
  rw [← Finset.add_sum_erase threads _ member, ← Finset.add_sum_erase threads (fun other => weigh (privates other)) member,
    Finset.sum_congr rfl others, Function.update_self, add_right_comm, add_comm (weigh after), add_right_comm]

-- The elements of a list counted thread by thread.
theorem total_counts {Item : Type} (threads : Finset Nat) (owner : Item → Nat) (counted : Item → Bool) (items : List Item)
    (owned : ∀ item ∈ items, owner item ∈ threads) :
    ∑ thread ∈ threads, items.countP (fun item => counted item && owner item == thread) = items.countP counted := by
  induction items with
  | nil => exact Finset.sum_const_zero
  | cons item rest ih =>
      have first : ∑ thread ∈ threads, (if (counted item && owner item == thread) = true then 1 else 0) =
          if counted item = true then 1 else 0 := by
        cases counted item with
        | false => exact Finset.sum_const_zero
        | true =>
            simp only [Bool.true_and, beq_iff_eq, if_true]
            rw [Finset.sum_ite_eq, if_pos (owned item (List.mem_cons_self ..))]
      simp only [List.countP_cons]
      rw [Finset.sum_add_distrib, ih fun other member => owned other (List.mem_cons_of_mem item member), first]

section

variable {Private Shared Choice Call Reply State Move Value Stage Freedom : Type}
variable (program : Program Private Shared Choice Call Reply) (spec : Spec Value Stage Call Reply Freedom)

-- A call that has taken effect counts as answered, whether the thread has its reply yet or not.
def Agrees (thread : Nat) : Thread Private → Option (Progress Stage Reply) → Private → Prop
  | .own own, none, locals => locals = own
  | .waiting own, some (.active stage), locals => locals = own ∧ ∃ call, program.call thread own = some call ∧ stage = spec.enter call
  | .waiting own, some (.decided reply), locals => locals = program.reply thread own reply ∧ ∃ call, program.call thread own = some call
  | _, _, _ => False

theorem agrees_own (thread : Nat) (own locals : Private) (progress : Option (Progress Stage Reply))
    (agree : Agrees program spec thread (.own own) progress locals) : locals = own := by
  cases progress with
  | none => exact agree
  | some progress => cases progress <;> exact agree.elim

-- The calls that the program makes are single operations on the object.
def Single : Prop := ∀ thread locals call value freedom, program.call thread locals = some call →
  ∃ reply, (spec.commit value (spec.enter call) freedom).2 = .decided reply

-- An invariant of the program in which a call is one step: the threads' own steps keep it, and so
-- does an operation together with what the thread makes of its reply.
structure Keeps (Inv : Shared → (Nat → Private) → Value → Prop) : Prop where
  initial : Inv program.shared program.privates spec.start
  own : ∀ shared privates value thread choice next after, Inv shared privates value →
    program.step thread shared (privates thread) choice = some (next, after) →
    Inv next (Function.update privates thread after) value
  call : ∀ shared privates value thread call freedom reply, Inv shared privates value →
    program.call thread (privates thread) = some call →
    (spec.commit value (spec.enter call) freedom).2 = .decided reply →
    Inv shared (Function.update privates thread (program.reply thread (privates thread) reply))
      (spec.commit value (spec.enter call) freedom).1

variable (Inv : Shared → (Nat → Private) → Value → Prop) (shared : Shared) (threads : Nat → Thread Private)

def Matches (atomic : Atomic Value Stage Reply) : Prop :=
  ∃ privates, Inv shared privates atomic.value ∧ ∀ thread, Agrees program spec thread (threads thread) (atomic.pending thread) (privates thread)

theorem agrees_update (pending : Nat → Option (Progress Stage Reply)) (privates : Nat → Private) (thread : Nat)
    (running : Thread Private) (progress : Option (Progress Stage Reply)) (locals : Private)
    (agree : ∀ other, Agrees program spec other (threads other) (pending other) (privates other))
    (here : Agrees program spec thread running progress locals) (other : Nat) :
    Agrees program spec other (Function.update threads thread running other) (Function.update pending thread progress other)
      (Function.update privates thread locals other) := by
  by_cases same : other = thread
  · subst same
    simpa only [Function.update_self] using here
  · simpa only [Function.update_of_ne same] using agree other

theorem matches_commit (single : Single program spec) (keeps : Keeps program spec Inv) (atomic : Atomic Value Stage Reply)
    (thread : Nat) (stage : Stage) (freedom : Freedom) (active : atomic.pending thread = some (.active stage))
    (matched : Matches program spec Inv shared threads atomic) :
    Matches program spec Inv shared threads ⟨(spec.commit atomic.value stage freedom).1,
      Function.update atomic.pending thread (some (spec.commit atomic.value stage freedom).2)⟩ := by
  obtain ⟨privates, holds, agree⟩ := matched
  have here := agree thread
  rw [active] at here
  cases waiting : threads thread with
  | own locals => rw [waiting] at here; exact here.elim
  | waiting locals =>
      rw [waiting] at here
      obtain ⟨same, call, calls, rfl⟩ := here
      rw [← same] at calls
      obtain ⟨reply, decided⟩ := single thread (privates thread) call atomic.value freedom calls
      refine ⟨_, keeps.call shared privates atomic.value thread call freedom reply holds calls decided, ?_⟩
      rw [decided, ← Function.update_eq_self thread threads, waiting]
      refine agrees_update program spec threads atomic.pending privates thread _ _ _ agree ?_
      rw [same] at calls ⊢
      exact ⟨rfl, call, calls⟩

theorem matches_finish (atomic : Atomic Value Stage Reply) (thread : Nat) (reply : Reply)
    (decided : atomic.pending thread = some (.decided reply)) (matched : Matches program spec Inv shared threads atomic) :
    Matches program spec Inv shared (deliver program threads thread reply)
      { atomic with pending := Function.update atomic.pending thread none } := by
  obtain ⟨privates, holds, agree⟩ := matched
  have here := agree thread
  rw [decided] at here
  cases waiting : threads thread with
  | own locals => rw [waiting] at here; exact here.elim
  | waiting locals =>
      rw [waiting] at here
      refine ⟨privates, holds, ?_⟩
      rw [deliver, waiting, ← Function.update_eq_self thread privates]
      exact agrees_update program spec threads atomic.pending privates thread _ _ _ agree here.1

-- The induction is on the moves of the specification that answer one move of the object.
theorem matches_runs (single : Single program spec) (keeps : Keeps program spec Inv) (atomic after : Atomic Value Stage Reply)
    (history : List (Interaction Call Reply)) (run : Runs (Service.atomic spec) Free atomic history after)
    (replies : ∀ thread call, Interaction.invoked thread call ∉ history) (matched : Matches program spec Inv shared threads atomic) :
    Matches program spec Inv shared (delivered program threads history) after := by
  induction run generalizing threads with
  | done atomic => exact matched
  | invoke atomic middle final thread call history entered later ih => exact absurd (List.mem_cons_self ..) (replies thread call)
  | move atomic middle final move reply history permitted moved later ih =>
      have rest (thread : Nat) (call : Call) : Interaction.invoked thread call ∉ history :=
        fun member => replies thread call (List.mem_append_right _ member)
      cases move with
      | commit thread freedom =>
          cases pending : atomic.pending thread with
          | none => simp [Service.atomic, pending] at moved
          | some progress =>
              cases progress with
              | decided answer => simp [Service.atomic, pending] at moved
              | active stage =>
                  rw [atomic_commit spec atomic thread stage freedom pending] at moved
                  cases moved
                  exact ih threads rest (matches_commit program spec Inv shared threads single keeps atomic thread stage freedom pending matched)
      | finish thread =>
          cases pending : atomic.pending thread with
          | none => simp [Service.atomic, pending] at moved
          | some progress =>
              cases progress with
              | active stage => simp [Service.atomic, pending] at moved
              | decided answer =>
                  rw [atomic_finish spec atomic thread answer pending] at moved
                  cases moved
                  exact ih _ rest (matches_finish program spec Inv shared threads atomic thread answer pending matched)

theorem answers_replies (reply : Option (Nat × Reply)) (thread : Nat) (call : Call) :
    Interaction.invoked thread call ∉ (answers reply : List (Interaction Call Reply)) := by
  cases reply <;> simp [answers]

variable (object : Object State Move Call Reply) (allowed : State → Move → Prop) (Related : State → Atomic Value Stage Reply → Prop)

-- Whatever the program keeps while every call is one step, it keeps on an object that simulates
-- the specification, at any interleaving of the moves inside the calls.
theorem hosted_keeps (simulates : Simulates object (Service.atomic spec) allowed Related) (single : Single program spec)
    (keeps : Keeps program spec Inv) (state : Hosted Private Shared State)
    (reached : Transition.Reachable (hosted program object : Transition.Machine (Hosted Private Shared State) (HostedAction Choice Move)) (Permits allowed) state) :
    ∃ atomic, Related state.object atomic ∧ Matches program spec Inv state.shared state.threads atomic := by
  refine Transition.reachable_invariant _ _ (fun state => ∃ atomic, Related state.object atomic ∧
    Matches program spec Inv state.shared state.threads atomic) ?_ ?_ state reached
  · exact ⟨_, simulates.start, program.privates, keeps.initial, fun _ => rfl⟩
  · rintro before action next ⟨atomic, related, matched⟩ permitted moved
    cases action with
    | own thread choice =>
        simp only [hosted, Hosted.next] at moved
        cases running : before.threads thread with
        | waiting locals => rw [running] at moved; cases moved
        | own locals =>
            rw [running] at moved
            obtain ⟨⟨shared, after⟩, stepped, rfl⟩ := Option.map_eq_some_iff.mp moved
            obtain ⟨privates, holds, agree⟩ := matched
            have here := agree thread
            rw [running] at here
            cases pending : atomic.pending thread with
            | some progress => rw [pending] at here; cases progress <;> exact here.elim
            | none =>
                rw [pending] at here
                rw [← here] at stepped
                refine ⟨atomic, related, _, keeps.own _ _ _ thread choice shared after holds stepped, ?_⟩
                rw [← Function.update_eq_self thread atomic.pending, pending]
                exact agrees_update program spec before.threads atomic.pending privates thread _ _ _ agree rfl
    | invoke thread =>
        simp only [hosted, Hosted.next] at moved
        cases running : before.threads thread with
        | waiting locals => rw [running] at moved; cases moved
        | own locals =>
            rw [running] at moved
            obtain ⟨call, calls, invoked⟩ := Option.bind_eq_some_iff.mp moved
            obtain ⟨entered, accepted, rfl⟩ := Option.map_eq_some_iff.mp invoked
            obtain ⟨after, matching, kept⟩ := simulates.invoke _ atomic thread call entered related accepted
            obtain ⟨privates, holds, agree⟩ := matched
            have here := agree thread
            rw [running] at here
            cases pending : atomic.pending thread with
            | some progress => rw [pending] at here; cases progress <;> exact here.elim
            | none =>
                rw [pending] at here
                rw [atomic_invoke spec atomic thread call pending] at matching
                cases matching
                refine ⟨_, kept, privates, holds, ?_⟩
                rw [← Function.update_eq_self thread privates]
                exact agrees_update program spec before.threads atomic.pending privates thread _ _ _ agree ⟨here, call, calls, rfl⟩
    | move move =>
        simp only [hosted, Hosted.next] at moved
        obtain ⟨⟨after, reply⟩, stepped, rfl⟩ := Option.map_eq_some_iff.mp moved
        obtain ⟨last, run, kept⟩ := simulates.move _ atomic move after reply related permitted stepped
        exact ⟨last, kept, matches_runs program spec Inv before.shared before.threads single keeps atomic last _ run
          (answers_replies reply) matched⟩

end

end Service
