import LockfreeQueue.Pointer

set_option autoImplicit false

namespace LockfreeQueue

section

variable {config : Config}

theorem task_updated (tasks : Nat → Option (PointerTask config)) (x y : Nat) (new : Option (PointerTask config)) (task : PointerTask config)
    (running : Function.update tasks x new y = some task) : y = x ∧ new = some task ∨ y ≠ x ∧ tasks y = some task := by
  by_cases same : y = x
  · subst same
    rw [Function.update_self] at running
    exact .inl ⟨rfl, running⟩
  · rw [Function.update_of_ne same] at running
    exact .inr ⟨same, running⟩

theorem busy_other (pointers : Pointers config) (x y : Nat) (idle : pointers.tasks x = none) (busy : pointers.tasks y ≠ none) : y ≠ x := by
  rintro rfl
  exact busy idle

def PointerTask.Fits (task : PointerTask config) : Prop :=
  match task.pc with
  | .operate => True
  | .release _ => task.call.pushes = true
  | .reset _ _ => task.call.pushes = false

structure Pointers.Sound (pointers : Pointers config) : Prop where
  linear : pointers.ledger.Linear
  fits : ∀ x task, pointers.tasks x = some task → task.Fits
  untouched : ∀ x task, pointers.tasks x = some task → pointers.vars x = task.entry
  handed : ∀ object ∈ pointers.handed, object < pointers.made
  settled : pointers.phase ≠ .alive → ∀ x, pointers.tasks x = none
  drained : pointers.phase = .destroyed → pointers.queue.items = []

theorem pointers_initial : (Pointers.initial config).Sound where
  linear := by
    have nothing : (Pointers.initial config).ledger = Ledger.empty := by
      refine Ledger.ext ?_ rfl rfl
      funext place
      cases place <;> simp [Pointers.ledger, Pointers.owner, Pointers.initial, Ledger.empty]
    rw [nothing]
    exact Ledger.empty_linear
  fits := fun _ _ none => by cases none
  untouched := fun _ _ none => by cases none
  handed := fun _ member => absurd member List.not_mem_nil
  settled := fun ended => absurd rfl ended
  drained := fun _ => rfl

theorem idle_sound (pointers after : Pointers config) (sound : pointers.Sound) (linear : after.ledger.Linear)
    (tasks : after.tasks = pointers.tasks) (vars : ∀ x, pointers.tasks x ≠ none → after.vars x = pointers.vars x)
    (handed : after.handed = pointers.handed) (made : pointers.made ≤ after.made) (phase : after.phase = pointers.phase)
    (queue : after.queue = pointers.queue) : after.Sound := by
  refine ⟨linear, by rw [tasks]; exact sound.fits, ?_, ?_, ?_, ?_⟩
  · intro x task running
    rw [tasks] at running
    rw [vars x (by rw [running]; exact Option.some_ne_none _)]
    exact sound.untouched x task running
  · intro object member
    rw [handed] at member
    exact Nat.lt_of_lt_of_le (sound.handed object member) made
  · rw [phase, tasks]
    exact sound.settled
  · rw [phase, queue]
    exact sound.drained

theorem make_sound (pointers : Pointers config) (x : Nat) (sound : pointers.Sound) (idle : pointers.tasks x = none) :
    ({ pointers.reset x (some pointers.made) with made := pointers.made + 1 } : Pointers config).Sound := by
  refine idle_sound pointers _ sound ?_ rfl ?_ rfl (Nat.le_succ _) rfl rfl
  · rw [Pointers.make_ledger pointers x idle]
    refine Ledger.create_linear _ (Ledger.discard_linear _ sound.linear _) _ ?_
    rw [Ledger.discard_holds, if_pos rfl]
  · intro y busy
    exact Function.update_of_ne (busy_other pointers x y idle busy) _ _

theorem reset_sound (pointers : Pointers config) (x : Nat) (sound : pointers.Sound) (idle : pointers.tasks x = none) :
    (pointers.reset x none).Sound := by
  refine idle_sound pointers _ sound ?_ rfl ?_ rfl (Nat.le_refl _) rfl rfl
  · rw [Pointers.reset_ledger pointers x idle]
    exact Ledger.discard_linear _ sound.linear _
  · intro y busy
    exact Function.update_of_ne (busy_other pointers x y idle busy) _ _

theorem move_sound (pointers : Pointers config) (x y : Nat) (sound : pointers.Sound) (x_idle : pointers.tasks x = none)
    (y_idle : pointers.tasks y = none) : ((pointers.release x).reset y (pointers.vars x)).Sound := by
  refine idle_sound pointers _ sound ?_ rfl ?_ rfl (Nat.le_refl _) rfl rfl
  · rw [Pointers.move_ledger pointers x y x_idle y_idle]
    by_cases same : x = y
    · subst same
      rw [if_pos rfl, Ledger.transfer_self]
      exact sound.linear
    · rw [if_neg same]
      refine Ledger.transfer_linear _ (Ledger.discard_linear _ sound.linear _) _ _ ?_
      rw [Ledger.discard_holds, if_pos rfl]
  · intro z busy
    change Function.update (Function.update pointers.vars x none) y (pointers.vars x) z = pointers.vars z
    rw [Function.update_of_ne (busy_other pointers y z y_idle busy), Function.update_of_ne (busy_other pointers x z x_idle busy)]

theorem call_sound (pointers : Pointers config) (x : Nat) (call : PointerCall) (sound : pointers.Sound) (idle : pointers.tasks x = none)
    (alive : pointers.phase = .alive) :
    ({ pointers with
        tasks := Function.update pointers.tasks x (some ⟨call, pointers.vars x, .operate⟩)
        handed := if call.pushes then pointers.handed ++ (pointers.vars x).toList else pointers.handed } : Pointers config).Sound := by
  refine ⟨?_, ?_, ?_, ?_, fun ended => absurd alive ended, sound.drained⟩
  · rw [Pointers.call_ledger pointers x call _ idle]
    exact sound.linear
  · intro y task running
    rcases task_updated _ _ _ _ _ running with ⟨_, new⟩ | ⟨_, old⟩
    · cases new
      trivial
    · exact sound.fits y task old
  · intro y task running
    rcases task_updated _ _ _ _ _ running with ⟨rfl, new⟩ | ⟨_, old⟩
    · cases new
      rfl
    · exact sound.untouched y task old
  · intro object member
    have owned : object ∈ pointers.handed ∨ pointers.vars x = some object := by
      split at member
      · simpa using member
      · exact .inl member
    rcases owned with old | mine
    · exact sound.handed object old
    · exact (sound.linear.live (.caller x) object ((Pointers.owner_idle pointers x idle).1.trans mine)).1

-- One step of a call: it goes on with nothing deleted and no unique_ptr changed, or it returns,
-- and has left its argument as it was, or released it, or had it delete what it owned and adopt nv.
def Pointers.Stepped (pointers after : Pointers config) (x : Nat) (task : PointerTask config) : Prop :=
  (∃ pc, ({ task with pc := pc } : PointerTask config).Fits ∧ after.log = pointers.log ∧
      after.tasks = Function.update pointers.tasks x (some { task with pc := pc }) ∧
        after.vars = pointers.vars ∧ after.deleted = pointers.deleted) ∨
    (∃ ok i, after.log = pointers.log ++ [⟨x, task.call, ok, i⟩] ∧ after.tasks = Function.update pointers.tasks x none ∧
      match ok, task.call.pushes with
      | false, _ => after.vars = pointers.vars ∧ after.vars x = task.entry ∧ after.deleted = pointers.deleted
      | true, true => after.vars = Function.update pointers.vars x none ∧ after.deleted = pointers.deleted
      | true, false => ∃ nv, after.vars = Function.update pointers.vars x nv ∧ after.deleted = pointers.deleted ++ task.entry.toList)

theorem step_stepped (pointers : Pointers config) (x : Nat) (task : PointerTask config) (sound : pointers.Sound)
    (running : pointers.tasks x = some task) : pointers.Stepped (pointers.step x task) x task := by
  have mine := sound.untouched x task running
  have fits := sound.fits x task running
  cases place : task.pc with
  | operate =>
      rw [Pointers.step, place]
      cases kind : task.call.pushes with
      | true =>
          simp only [Pointers.operate, kind, if_true]
          cases stored : pointers.queue.push? (pointers.vars x) with
          | none => exact .inr ⟨false, _, rfl, rfl, rfl, mine, rfl⟩
          | some next => exact .inl ⟨.release _, kind, rfl, rfl, rfl, rfl⟩
      | false =>
          simp only [Pointers.operate, kind, Bool.false_eq_true, if_false]
          cases taken : pointers.queue.pop? with
          | none => exact .inr ⟨false, _, rfl, rfl, rfl, mine, rfl⟩
          | some pair => exact .inl ⟨.reset pair.1 _, kind, rfl, rfl, rfl, rfl⟩
  | release i =>
      simp only [PointerTask.Fits, place] at fits
      rw [Pointers.step, place]
      refine .inr ⟨true, _, rfl, rfl, ?_⟩
      rw [fits]
      exact ⟨rfl, rfl⟩
  | reset nv i =>
      simp only [PointerTask.Fits, place] at fits
      rw [Pointers.step, place]
      refine .inr ⟨true, _, rfl, rfl, ?_⟩
      rw [fits]
      exact ⟨nv, rfl, by rw [← mine]; rfl⟩

theorem step_linear (pointers : Pointers config) (x : Nat) (task : PointerTask config) (sound : pointers.Sound)
    (running : pointers.tasks x = some task) : (pointers.step x task).ledger.Linear := by
  cases place : task.pc with
  | operate =>
      rw [Pointers.step, place]
      simp only [Pointers.operate]
      split
      · split
        · rename_i next stored
          rw [Pointers.enqueue_ledger pointers x task running next _ place stored]
          refine Ledger.transfer_linear _ sound.linear _ _ ?_
          change (pointers.queue.get? pointers.queue.total).join = none
          rw [Fifo.get_total]
          rfl
        · rw [Pointers.finish_ledger pointers x task running false none place]
          exact sound.linear
      · split
        · rename_i nv next taken
          rw [Pointers.dequeue_ledger pointers x task running nv next _ place taken]
          refine Ledger.transfer_linear _ sound.linear _ _ ?_
          change (pointers.tasks x).bind (fun task => task.pc.carries) = none
          rw [running, Option.bind_some, place, carries_operate]
        · rw [Pointers.finish_ledger pointers x task running false none place]
          exact sound.linear
  | release i =>
      rw [Pointers.step, place]
      rw [Pointers.release_ledger pointers x task running true i place]
      exact sound.linear
  | reset nv i =>
      rw [Pointers.step, place]
      rw [Pointers.adopt_ledger pointers x task running nv i place]
      refine Ledger.transfer_linear _ (Ledger.discard_linear _ sound.linear _) _ _ ?_
      rw [Ledger.discard_holds, if_pos rfl]

theorem step_frame (pointers : Pointers config) (x : Nat) (task : PointerTask config) :
    (pointers.step x task).made = pointers.made ∧ (pointers.step x task).handed = pointers.handed ∧
      (pointers.step x task).phase = pointers.phase := by
  cases place : task.pc <;> simp only [Pointers.step, place, Pointers.operate] <;> repeat' split
  all_goals exact ⟨rfl, rfl, rfl⟩

theorem step_sound (pointers : Pointers config) (x : Nat) (task : PointerTask config) (sound : pointers.Sound)
    (running : pointers.tasks x = some task) : (pointers.step x task).Sound := by
  obtain ⟨made, handed, phase⟩ := step_frame pointers x task
  have alive : pointers.phase = .alive := by
    by_contra ended
    rw [sound.settled ended x] at running
    cases running
  have stepped := step_stepped pointers x task sound running
  refine ⟨step_linear pointers x task sound running, ?_, ?_, ?_, ?_, ?_⟩
  · intro y other there
    rcases stepped with ⟨pc, fits, _, tasks, _⟩ | ⟨_, _, _, tasks, _⟩ <;> rw [tasks] at there <;>
      rcases task_updated _ _ _ _ _ there with ⟨_, new⟩ | ⟨_, old⟩
    · cases new
      exact fits
    · exact sound.fits y other old
    · cases new
    · exact sound.fits y other old
  · intro y other there
    rcases stepped with ⟨pc, _, _, tasks, vars, _⟩ | ⟨ok, _, _, tasks, left⟩ <;> rw [tasks] at there <;>
      rcases task_updated _ _ _ _ _ there with ⟨same, new⟩ | ⟨different, old⟩
    · cases new
      rw [vars, same]
      exact sound.untouched x task running
    · rw [vars]
      exact sound.untouched y other old
    · cases new
    · rw [← sound.untouched y other old]
      split at left
      · rw [left.1]
      · rw [left.1, Function.update_of_ne different]
      · obtain ⟨nv, vars, _⟩ := left
        rw [vars, Function.update_of_ne different]
  · rw [made, handed]
    exact sound.handed
  · rw [phase]
    exact fun ended => absurd alive ended
  · rw [phase, alive]
    exact fun ended => by cases ended

theorem drain_sound (pointers : Pointers config) (sound : pointers.Sound) (draining : pointers.phase = .draining) :
    pointers.drain.Sound := by
  have quiet := sound.settled (by rw [draining]; exact Phase.noConfusion)
  cases taken : pointers.queue.pop? with
  | none =>
      have emptied := (Fifo.pop_none pointers.queue).mp taken
      rw [Pointers.drain, taken]
      refine ⟨sound.linear, sound.fits, sound.untouched, sound.handed, fun _ => quiet, fun _ => ?_⟩
      rw [Fifo.total] at emptied
      exact List.eq_nil_of_length_eq_zero (Nat.left_eq_add.mp emptied.symm)
  | some pair =>
      obtain ⟨nv, next⟩ := pair
      have linear : pointers.drain.ledger.Linear := by
        rw [Pointers.drain_ledger pointers nv next taken]
        exact Ledger.discard_linear _ sound.linear _
      rw [Pointers.drain, taken] at linear ⊢
      refine ⟨linear, sound.fits, sound.untouched, sound.handed, fun _ => quiet, fun ended => ?_⟩
      rw [draining] at ended
      cases ended

theorem pointers_reached (pointers : Pointers config) (reached : Transition.Reachable (pointerMachine config) Outlives pointers) :
    pointers.Sound := by
  refine Transition.reachable_invariant (pointerMachine config) Outlives Pointers.Sound pointers_initial ?_ pointers reached
  intro before action after sound permitted moved
  cases action with
  | make x =>
      obtain ⟨idle, result⟩ := Option.ite_none_right_eq_some.mp moved
      cases result
      exact make_sound before x sound (Option.isNone_iff_eq_none.mp idle)
  | reset x =>
      obtain ⟨idle, result⟩ := Option.ite_none_right_eq_some.mp moved
      cases result
      exact reset_sound before x sound (Option.isNone_iff_eq_none.mp idle)
  | move x y =>
      obtain ⟨idle, result⟩ := Option.ite_none_right_eq_some.mp moved
      cases result
      rw [Bool.and_eq_true, Option.isNone_iff_eq_none, Option.isNone_iff_eq_none] at idle
      exact move_sound before x y sound idle.1 idle.2
  | call x call =>
      obtain ⟨⟨alive, idle⟩, result⟩ := Option.ite_none_right_eq_some.mp moved
      cases result
      exact call_sound before x call sound (Option.isNone_iff_eq_none.mp idle) alive
  | step x =>
      obtain ⟨task, running, rfl⟩ := Option.map_eq_some_iff.mp moved
      exact step_sound before x task sound running
  | destroy =>
      obtain ⟨_, result⟩ := Option.ite_none_right_eq_some.mp moved
      cases result
      exact ⟨sound.linear, sound.fits, sound.untouched, sound.handed, fun _ => permitted, fun ended => by cases ended⟩
  | drain =>
      obtain ⟨draining, result⟩ := Option.ite_none_right_eq_some.mp moved
      cases result
      exact drain_sound before sound draining

-- The destructor's loop ends; the induction is on what the queue still holds.
theorem drain_ends (pointers : Pointers config) (draining : pointers.phase = .draining) :
    ∃ n final, Transition.run (pointerMachine config) (List.replicate n .drain) pointers = some final ∧ final.phase = .destroyed := by
  obtain ⟨count, held⟩ : ∃ count, pointers.queue.items.length = count := ⟨_, rfl⟩
  have moved (before : Pointers config) (also : before.phase = .draining) :
      (pointerMachine config).next before .drain = some before.drain := if_pos also
  induction count generalizing pointers with
  | zero =>
      have empty : pointers.queue.pop? = none := (Fifo.pop_none pointers.queue).mpr (by rw [Fifo.total, held, Nat.add_zero])
      refine ⟨1, pointers.drain, ?_, by rw [Pointers.drain, empty]⟩
      simp only [List.replicate_one, Transition.run, moved pointers draining, Option.bind_some]
  | succ count ih =>
      obtain ⟨nv, next, taken⟩ := Fifo.pop_held pointers.queue (List.ne_nil_of_length_eq_add_one held)
      have shorter : pointers.drain.queue.items.length = count := by
        rw [(Fifo.pop_items _ next nv taken).1, List.length_cons] at held
        rw [Pointers.drain, taken]
        exact Nat.succ.inj held
      obtain ⟨n, final, ran, ended⟩ := ih pointers.drain (by rw [Pointers.drain, taken]; exact draining) shorter
      refine ⟨n + 1, final, ?_, ended⟩
      rw [List.replicate_succ, Transition.run, moved pointers draining, Option.bind_some, ran]

-- Between calls the owner of an object is a variable or an element.
theorem idle_owned (pointers : Pointers config) (sound : pointers.Sound) (quiet : ∀ x, pointers.tasks x = none) (object : Nat)
    (made : object < pointers.made) (live : object ∉ pointers.deleted) :
    ∃! place : Nat ⊕ Nat, Sum.elim pointers.vars (fun number => (pointers.queue.get? number).join) place = some object := by
  obtain ⟨place, owns, only⟩ := Ledger.owner_unique pointers.ledger sound.linear object made live
  have held (x : Nat) := Pointers.owner_idle pointers x (quiet x)
  cases place with
  | caller x =>
      refine ⟨.inl x, (held x).1.symm.trans owns, ?_⟩
      rintro (y | number) also
      · cases only (.caller y) ((held y).1.trans also)
        rfl
      · cases only (.element number) also
  | element number =>
      refine ⟨.inr number, owns, ?_⟩
      rintro (y | other) also
      · cases only (.caller y) ((held y).1.trans also)
      · cases only (.element other) also
        rfl
  | popped x => cases (held x).2.symm.trans owns

-- After its destruction the queue owns no object, so one that no variable has is deleted.
theorem destroyed_count (pointers : Pointers config) (sound : pointers.Sound) (destroyed : pointers.phase = .destroyed) (object : Nat)
    (made : object < pointers.made) (gone : ∀ x, pointers.vars x ≠ some object) : pointers.deleted.count object = 1 := by
  have quiet := sound.settled (by rw [destroyed]; exact Phase.noConfusion)
  refine Ledger.unowned_count pointers.ledger sound.linear object made ?_
  intro place owns
  cases place with
  | caller x => exact gone x ((Pointers.owner_idle pointers x (quiet x)).1.symm.trans owns)
  | element number =>
      change (pointers.queue.get? number).join = some object at owns
      rw [Fifo.get?, sound.drained destroyed, List.getElem?_nil, ite_self] at owns
      cases owns
  | popped x => cases (Pointers.owner_idle pointers x (quiet x)).2.symm.trans owns

theorem destroyed_once (pointers : Pointers config) (sound : pointers.Sound) (destroyed : pointers.phase = .destroyed)
    (gone : ∀ x, pointers.vars x = none) (object : Nat) (kept : object < pointers.made ∨ object ∈ pointers.handed) :
    pointers.deleted.count object = 1 :=
  destroyed_count pointers sound destroyed object (kept.elim id (sound.handed object)) fun x owns => by cases (gone x).symm.trans owns

end

-- Calls of all threads interleave at their operations on the queue and on their arguments, and
-- callers make, move and reset their own unique_ptrs in between.
theorem pointer_owned_once {config : Config} (pointers : Pointers config)
    (reached : Transition.Reachable (pointerMachine config) Outlives pointers) :
    (∀ object, object < pointers.made → object ∉ pointers.deleted → ∃! place, pointers.owner place = some object) ∧
      (∀ place object, pointers.owner place = some object → object ∉ pointers.deleted) ∧ pointers.deleted.Nodup ∧
      ((∀ x, pointers.tasks x = none) → ∀ object, object < pointers.made → object ∉ pointers.deleted →
        ∃! place : Nat ⊕ Nat, Sum.elim pointers.vars (fun number => (pointers.queue.get? number).join) place = some object) ∧
      (∀ x call after, pointers.next (.call x call) = some after →
        after.tasks x = some ⟨call, pointers.vars x, .operate⟩ ∧ after.vars = pointers.vars ∧ after.deleted = pointers.deleted) ∧
      (∀ x task, pointers.tasks x = some task → ∃ after, pointers.next (.step x) = some after ∧ pointers.Stepped after x task) ∧
      (pointers.phase = .draining → ∃ n final,
        Transition.run (pointerMachine config) (List.replicate n .drain) pointers = some final ∧ final.phase = .destroyed) ∧
      (pointers.phase = .destroyed → (∀ x, pointers.vars x = none) →
        ∀ object, object < pointers.made ∨ object ∈ pointers.handed → pointers.deleted.count object = 1) := by
  have sound := pointers_reached pointers reached
  refine ⟨Ledger.owner_unique pointers.ledger sound.linear, fun place object owns => (sound.linear.live place object owns).2,
    sound.linear.once, idle_owned pointers sound, ?_, ?_, drain_ends pointers, destroyed_once pointers sound⟩
  · intro x call after moved
    obtain ⟨_, result⟩ := Option.ite_none_right_eq_some.mp moved
    cases result
    exact ⟨Function.update_self _ _ _, rfl, rfl⟩
  · intro x task running
    exact ⟨pointers.step x task, by rw [Pointers.next, running, Option.map_some], step_stepped pointers x task sound running⟩

-- A consumer pops and deletes an object before the push that enqueued it has released it; a second
-- object is still in the queue at its destruction.
def earlyDelete : List PointerAction :=
  [.make 0, .call 0 .push, .step 0, .call 1 .pop, .step 1, .step 1, .reset 1, .step 0, .make 0, .call 0 .pushIndex, .step 0, .step 0]

def pointersRun (actions : List PointerAction) (pointers : Pointers smallQueue) : Option (Pointers smallQueue) :=
  Transition.checkedRun (pointerMachine smallQueue) (fun _ action => action ≠ .destroy) actions pointers

theorem pointers_run_path (actions : List PointerAction) (pointers final : Pointers smallQueue)
    (done : pointersRun actions pointers = some final) :
    Transition.Path (pointerMachine smallQueue) Outlives pointers actions final := by
  refine Transition.path_weaken _ _ Outlives ?_ _ _ _ (Transition.checked_run_path _ _ actions pointers final done)
  intro state action other
  cases action with
  | destroy => exact absurd rfl other
  | _ => trivial

theorem early_delete_runs : (pointersRun earlyDelete (Pointers.initial smallQueue)).isSome = true := by decide +kernel

theorem destructor_runs :
    (pointersRun [.drain, .drain] { (pointersRun earlyDelete (Pointers.initial smallQueue)).get early_delete_runs with
      phase := .draining }).isSome = true := by
  decide +kernel

theorem pointer_owned_once_early :
    let before := (pointersRun earlyDelete (Pointers.initial smallQueue)).get early_delete_runs
    let final := (pointersRun [.drain, .drain] { before with phase := .draining }).get destructor_runs
    final.handed = [0, 1] ∧ ∀ object, object < final.made ∨ object ∈ final.handed → final.deleted.count object = 1 := by
  intro before final
  have early : Transition.Reachable (pointerMachine smallQueue) Outlives before :=
    ⟨earlyDelete, pointers_run_path earlyDelete _ before (Option.some_get early_delete_runs).symm⟩
  have destroyed := Transition.reachable_step _ Outlives before { before with phase := .draining } .destroy early
    (by intro x; rcases x with _ | _ | x <;> rfl) rfl
  have late := Transition.reachable_path _ Outlives _ final _ destroyed
    (pointers_run_path [.drain, .drain] _ final (Option.some_get destructor_runs).symm)
  obtain ⟨_, _, _, _, _, _, _, deletes⟩ := pointer_owned_once final late
  exact ⟨by decide +kernel, deletes (by decide +kernel) (by intro x; rcases x with _ | _ | x <;> rfl)⟩

end LockfreeQueue
