import LockfreeQueue.Progress

set_option autoImplicit false

namespace LockfreeQueue

-- The index i names an element: it was reported by the push that stored it, and fewer than
-- `half` pushes have succeeded since.
def Config.Names (config : Config) (i : Index config) (number stored : Nat) : Prop :=
  i = config.number number ∧ number < stored ∧ stored ≤ number + config.half

instance (config : Config) (i : Index config) (number stored : Nat) : Decidable (config.Names i number stored) :=
  inferInstanceAs (Decidable (_ ∧ _))

theorem names_unique (config : Config) (i : Index config) (a b stored : Nat) (first : config.Names i a stored)
    (second : config.Names i b stored) : a = b := by
  obtain ⟨index, below, fresh⟩ := first
  obtain ⟨same, less, recent⟩ := second
  have equal := (config.number_eq_iff a b).mp (index.symm.trans same)
  have positive := config.half_positive
  exact Word.window_unique _ a b equal (by omega) (by omega)

section

variable {config : Config} {Data : Type}

def Pc.exchanged : Pc config Data → Option (Index config)
  | .exchange i _ _ => some i
  | _ => none

def Named (config : Config) (stored : Nat) : Option (Index config) → Prop
  | some i => ∃ number < stored, config.Names i number stored
  | none => True

instance (config : Config) (stored : Nat) (exchanged : Option (Index config)) : Decidable (Named config stored exchanged) :=
  match exchanged with
  | some i => inferInstanceAs (Decidable (∃ number < stored, config.Names i number stored))
  | none => isTrue trivial

-- The schedules whose exchanges name elements.
def FreshExchange (system : System config Data) : Action config Data → Prop
  | .call _ _ => True
  | .step thread => ∀ task ∈ system.tasks thread, Named config (stores system.log) task.pc.exchanged

instance (system : System config Data) (action : Action config Data) : Decidable (FreshExchange system action) :=
  match action with
  | .call _ _ => isTrue trivial
  | .step thread => inferInstanceAs (Decidable (∀ task ∈ system.tasks thread, Named config (stores system.log) task.pc.exchanged))

-- The value of an element as its push and the exchanges on its index have left it.
def lastValue : List (Event config Data) → Nat → Option Data
  | [], _ => none
  | .stored _ d :: log, k => if k = stores log then some d else lastValue log k
  | .swapped _ i _ _ new :: log, k => if config.Names i k (stores log) then some new else lastValue log k
  | _ :: log, k => lastValue log k

theorem names_residue (config : Config) (i : Index config) (number stored : Nat) (names : config.Names i number stored) :
    number % config.half = i.toNat % config.half := by
  have same : config.number i.toNat = config.number number := (config.number_toNat i).trans names.1
  exact (Word.mod_of_dvd _ config.half _ _ (Nat.dvd_mul_left config.half 2) ((config.number_eq_iff _ _).mp same)).symm

theorem names_hit (queue : Fifo Data config.size) (i : Index config) (k : Nat) (old : Data)
    (names : config.Names i k queue.total) (present : queue.get? (Word.atLeast config.half queue.first i.toNat) = some old) :
    Word.atLeast config.half queue.first i.toNat = k := by
  have residue := names_residue config i k _ names
  obtain ⟨_, below, fresh⟩ := names
  have bound := Fifo.total_bound queue
  have fits := config.size_half
  have positive := config.size_positive
  have inside := Fifo.get_bounds queue _ old present
  exact Word.window_unique config.half _ k ((Word.at_least_mod config.half queue.first i.toNat config.half_positive).trans residue.symm)
    (by omega) (by omega)

-- The CAS of an exchange on a named element hits exactly when that element is held with the old
-- value: the slot may be empty, or a lap on, but then its sequence is another.
theorem exchange_names [Zero Data] (memory : Memory config Data) (queue : Fifo Data config.size) (written consumed k : Nat)
    (i : Index config) (old : Data) (represents : Represents memory queue written consumed)
    (names : config.Names i k queue.total) : memory.entry i = ⟨old, (i <<< 1) ||| 1⟩ ↔ queue.get? k = some old := by
  obtain ⟨lower, upper, spot⟩ := Word.at_least_spec config.half queue.first i.toNat config.half_positive
  have hit := exchange_iff memory queue written consumed i _ old represents spot lower upper
  constructor
  · intro found
    have present := hit.mp found
    rw [names_hit queue i k old names present] at present
    exact present
  · intro present
    have inside := Fifo.get_bounds queue k old present
    have bound := Fifo.total_bound queue
    have fits := config.size_half
    have positive := config.size_positive
    exact (exchange_iff memory queue written consumed i k old represents (names_residue config i k _ names) inside.1
      (by omega)).mpr present

variable [DecidableEq Data]

def held (log : List (Event config Data)) (k : Nat) : Option Data := (contents log).bind fun queue => queue.get? k

theorem held_eq (log : List (Event config Data)) (queue : Fifo Data config.size) (legal : contents log = some queue) (k : Nat) :
    held log k = queue.get? k := by
  rw [held, legal, Option.bind_some]

structure LastValues (log : List (Event config Data)) : Prop where
  held : ∀ k v, held log k = some v → lastValue log k = some v
  taken : ∀ k v, (takenValues log)[k]? = some v → lastValue log k = some v

theorem last_values_silent (event : Event config Data) (log : List (Event config Data)) (silent : event.op = none)
    (known : LastValues log) : LastValues (event :: log) := by
  have same : ∀ k, lastValue (event :: log) k = lastValue log k := by
    intro k
    cases event <;> first | rfl | cases silent
  have other : event.isTook = false := by
    cases event <;> first | rfl | cases silent
  constructor
  · intro k v present
    rw [held, contents_silent event log silent] at present
    rw [same]
    exact known.held k v present
  · intro k v removed
    rw [taken_values_other event log other] at removed
    rw [same]
    exact known.taken k v removed

theorem held_last (log : List (Event config Data)) (queue : Fifo Data config.size) (legal : contents log = some queue)
    (known : LastValues log) (k : Nat) (v : Data) (present : queue.get? k = some v) : lastValue log k = some v :=
  known.held k v (by rw [held_eq log queue legal, present])

theorem last_values_stored (log : List (Event config Data)) (queue next : Fifo Data config.size) (thread : Nat) (d : Data)
    (legal : contents log = some queue) (moved : contents (.stored thread d :: log) = some next) (known : LastValues log) :
    LastValues (.stored thread d :: log) := by
  obtain ⟨total, first⟩ := contents_counts log queue legal
  have bound := Fifo.total_bound queue
  have pushed : queue.push? d = some next := by
    rw [contents_op _ log (.push d) rfl, legal] at moved
    exact moved
  constructor
  · intro k v present
    rw [held_eq _ next moved, Fifo.push_get queue next d pushed] at present
    rw [lastValue, ← total]
    split at present
    · rename_i last
      rw [if_pos last, present]
    · rename_i inside
      rw [if_neg inside, held_last log queue legal known k v present]
  · intro k v removed
    rw [taken_values_other _ log rfl] at removed
    have less := taken_values_bound log k v removed
    rw [lastValue, if_neg (by omega)]
    exact known.taken k v removed

theorem last_values_took (log : List (Event config Data)) (queue next : Fifo Data config.size) (thread : Nat) (d : Data) (lost : Bool)
    (legal : contents log = some queue) (moved : contents (.took thread d lost :: log) = some next) (known : LastValues log) :
    LastValues (.took thread d lost :: log) := by
  obtain ⟨_, first⟩ := contents_counts log queue legal
  have popped : queue.pop? = some (d, next) := by
    rw [contents_op _ log (.pop d) rfl, legal] at moved
    exact Fifo.perform_pop queue next d moved
  constructor
  · intro k v present
    rw [held_eq _ next moved, Fifo.pop_get queue next d popped] at present
    split at present
    · cases present
    · exact held_last log queue legal known k v present
  · intro k v removed
    rcases taken_values_took log thread d v lost k removed with earlier | ⟨last, value⟩
    · exact known.taken k v earlier
    · rw [last, value, ← first]
      exact held_last log queue legal known queue.first d (Fifo.pop_head queue next d popped)

theorem last_values_swapped (log : List (Event config Data)) (queue next : Fifo Data config.size) (thread : Nat) (i : Index config)
    (number : Nat) (old new : Data) (legal : contents log = some queue)
    (moved : contents (.swapped thread i number old new :: log) = some next) (names : config.Names i number (stores log))
    (known : LastValues log) : LastValues (.swapped thread i number old new :: log) := by
  obtain ⟨_, first⟩ := contents_counts log queue legal
  have replaced : queue.replace? number old new = some next := by
    rw [contents_op _ log (.replace number old new) rfl, legal] at moved
    exact moved
  obtain ⟨present, _, _⟩ := Fifo.replace_fields queue next number old new replaced
  have inside := Fifo.get_bounds queue number old present
  constructor
  · intro k v kept
    rw [held_eq _ next moved, Fifo.replace_get queue next number old new replaced] at kept
    rw [lastValue]
    split at kept
    · rename_i same
      rw [same, if_pos names, kept]
    · rename_i different
      rw [if_neg, held_last log queue legal known k v kept]
      exact fun also => different (names_unique config i k number _ also names)
  · intro k v removed
    rw [taken_values_other _ log rfl] at removed
    have less := taken_values_bound log k v removed
    rw [lastValue, if_neg, known.taken k v removed]
    intro also
    have same := names_unique config i k number _ also names
    omega

theorem last_values_cons (event : Event config Data) (log : List (Event config Data)) (queue next : Fifo Data config.size)
    (legal : contents log = some queue) (moved : contents (event :: log) = some next)
    (named : ∀ thread i number old new, event = .swapped thread i number old new → config.Names i number (stores log))
    (known : LastValues log) : LastValues (event :: log) := by
  cases event with
  | stored thread d => exact last_values_stored log queue next thread d legal moved known
  | took thread d lost => exact last_values_took log queue next thread d lost legal moved known
  | swapped thread i number old new =>
      exact last_values_swapped log queue next thread i number old new legal moved (named thread i number old new rfl) known
  | wrote thread => exact last_values_silent _ log rfl known
  | read thread => exact last_values_silent _ log rfl known

variable [Zero Data]

theorem last_values_reached (system : System config Data) (reached : System.Reached FreshExchange system) :
    LastValues system.log := by
  refine (reached_induction FreshExchange (fun system => LastValues system.log) ?_ ?_ ?_ system reached).2
  · exact ⟨by simp [System.initial, held, contents_nil], by simp [System.initial, takenValues, history, Fifo.popped]⟩
  · intro before thread call _ _ known _ _
    exact known
  · intro before thread task _ inv known allowed running timely
    obtain ⟨queue, legal, _⟩ := inv.holds
    obtain ⟨total, first⟩ := contents_counts before.log queue legal
    obtain ⟨next, moved, _⟩ := (invariant_step before thread task inv running timely).holds
    simp only [System.stepTask] at moved ⊢
    cases acted : (exec before.memory task.pc).act with
    | none => exact known
    | some act =>
        rw [acted] at moved
        refine last_values_cons _ before.log queue next legal moved ?_ known
        intro owner i number old new same
        cases act with
        | swapped j oldValue newValue =>
            cases same
            have place := exchange_place task.pc i old new (exec_swap_kind before.memory task.pc i old new acted)
            have named := allowed task running
            rw [place] at named
            obtain ⟨k, _, names⟩ := named
            have replaced : queue.replace? (Word.atLeast config.half (takes before.log) i.toNat) old new = some next := by
              rw [recorded_some, contents_op _ before.log _ rfl, legal] at moved
              exact moved
            obtain ⟨present, _, _⟩ := Fifo.replace_fields queue next _ old new replaced
            rw [← first] at present ⊢
            rw [← total] at names ⊢
            rw [names_hit queue i k old names present]
            exact names
        | _ => cases same

theorem exchange_step (system : System config Data) (thread : Nat) (task : Task config Data) (i : Index config) (old new : Data)
    (k : Nat) (inv : Invariant system) (running : system.tasks thread = some task) (call : task.call = .exchange i old new)
    (names : config.Names i k (stores system.log)) :
    (held system.log k = some old ∧ (resume task (exec system.memory task.pc).next).2 = some (.done none none) ∧
      (system.stepTask thread task).memory = system.memory.setEntry i ⟨new, (system.memory.entry i).seq⟩ ∧
      ∀ j, held (system.stepTask thread task).log j = if j = k then some new else held system.log j) ∨
    (held system.log k ≠ some old ∧ (resume task (exec system.memory task.pc).next).2 = some .failed ∧
      (system.stepTask thread task).memory = system.memory ∧ (system.stepTask thread task).log = system.log) := by
  have kind : task.pc.kind = .exchange i old new := by simpa [call, Call.Runs] using inv.runs thread task running
  have place := exchange_place task.pc i old new kind
  obtain ⟨next, moved, _⟩ := (invariant_step system thread task inv running (by rw [System.InTime, place]; simp [Pc.inIteration])).holds
  obtain ⟨queue, legal, represents⟩ := inv.holds
  obtain ⟨total, first⟩ := contents_counts system.log queue legal
  rw [← total] at names
  have exact := exchange_names system.memory queue _ _ k i old represents names
  rw [held_eq system.log queue legal]
  by_cases hit : system.memory.entry i = ⟨old, (i <<< 1) ||| 1⟩
  · left
    have effect := exec_exchange_hit system.memory i old new hit
    simp only [System.stepTask, place, effect] at moved ⊢
    rw [recorded_some, Act.event] at moved ⊢
    have replaced : queue.replace? (Word.atLeast config.half (takes system.log) i.toNat) old new = some next := by
      rw [contents_op _ system.log _ rfl, legal] at moved
      exact moved
    obtain ⟨present, _, _⟩ := Fifo.replace_fields queue next _ old new replaced
    rw [← first] at present
    have same := names_hit queue i k old names present
    rw [← first, same] at replaced moved
    refine ⟨exact.mp hit, rfl, by rw [hit], ?_⟩
    intro j
    rw [← first, same, held_eq _ next moved, Fifo.replace_get queue next k old new replaced, held_eq system.log queue legal]
  · right
    have effect := exec_exchange_miss system.memory i old new hit
    simp only [System.stepTask, place, effect]
    exact ⟨fun present => hit (exact.mpr present), rfl, trivial, rfl⟩

theorem removal_answer (system : System config Data) (thread : Nat) (call : Call config Data) (v : Data)
    (number : Option (Index config)) (inv : Invariant system) (timely : system.Timely (.step thread))
    (removes : call.isPop = true ∨ ∃ f, call = .popIf f) (returns : system.Returns thread call (.done (some v) number)) :
    ∃ task k, system.tasks thread = some task ∧ task.pc.exchanged = none ∧ (system.stepTask thread task).mark thread = some k ∧
      (takenValues (system.stepTask thread task).log)[k]? = some v := by
  obtain ⟨task, running, rfl, reply⟩ := returns
  have runs := inv.runs thread task running
  obtain ⟨loop, kind, pops⟩ : ∃ loop, task.pc.kind = .read loop ∧ (loop = .pop ∨ ∃ f, loop = .popIf f) := by
    rcases removes with isPop | ⟨f, made⟩
    · refine ⟨.pop, ?_, .inl rfl⟩
      cases call : task.call <;> simp_all [Call.isPop, Call.Runs]
    · exact ⟨.popIf f, by simpa [made, Call.Runs] using runs, .inr ⟨f, rfl⟩⟩
  have plain : task.pc.exchanged = none := by
    cases place : task.pc with
    | exchange i old new =>
        rw [place] at kind
        cases kind
    | _ => rfl
  rcases read_loop_step thread system task loop inv running (timely task running) kind with
    ⟨pc, goes⟩ | ⟨rdIndex, _, looked⟩ | ⟨e, k, took, _, _, stamped, value⟩
  · simp [resume, goes] at reply
  · rw [looked] at reply
    exact absurd reply (look_no_value task loop rdIndex _ v number pops)
  · rw [took] at reply
    exact ⟨task, k, running, plain, stamped, by rw [value, taken_value task loop _ e v number pops reply]⟩

-- exchange is one atomic step on the element its index names, and whoever removes an element
-- gets the value of the last exchange on it.
theorem exchange_atomic (system : System config Data) (reached : System.Reached FreshExchange system) :
    (∀ thread task i old new k, system.tasks thread = some task → task.call = .exchange i old new →
      config.Names i k (stores system.log) →
      (system.Returns thread (.exchange i old new) (.done none none) ↔ held system.log k = some old) ∧
      (held system.log k = some old →
        (system.stepTask thread task).memory = system.memory.setEntry i ⟨new, (system.memory.entry i).seq⟩ ∧
        ∀ j, held (system.stepTask thread task).log j = if j = k then some new else held system.log j) ∧
      (held system.log k ≠ some old →
        system.Returns thread (.exchange i old new) .failed ∧ (system.stepTask thread task).memory = system.memory ∧
        (system.stepTask thread task).log = system.log)) ∧
    (∀ k v, (takenValues system.log)[k]? = some v → lastValue system.log k = some v) ∧
    ∀ thread call v number after, system.Timely (.step thread) → system.next (.step thread) = some after →
      (call.isPop = true ∨ ∃ f, call = .popIf f) → system.Returns thread call (.done (some v) number) →
      ∃ k, after.mark thread = some k ∧ (takenValues after.log)[k]? = some v ∧ lastValue after.log k = some v := by
  have inv := invariant_reached FreshExchange system reached
  refine ⟨?_, (last_values_reached system reached).taken, ?_⟩
  · intro thread task i old new k running call names
    rcases exchange_step system thread task i old new k inv running call names with
      ⟨present, reply, memory, values⟩ | ⟨absent, reply, memory, log⟩
    · exact ⟨⟨fun _ => present, fun _ => ⟨task, running, call, reply⟩⟩, fun _ => ⟨memory, values⟩, fun gone => absurd present gone⟩
    · refine ⟨⟨?_, fun present => absurd present absent⟩, fun present => absurd present absent,
        fun _ => ⟨⟨task, running, call, reply⟩, memory, log⟩⟩
      rintro ⟨other, same, _, success⟩
      cases Option.some.inj (running.symm.trans same)
      rw [reply] at success
      cases success
  · intro thread call v number after timely moved removes returns
    obtain ⟨task, k, running, plain, stamped, value⟩ := removal_answer system thread call v number inv timely removes returns
    have result : system.stepTask thread task = after := by simpa [System.next, running] using moved
    subst result
    have allowed : System.Allowed FreshExchange system (.step thread) := by
      refine ⟨timely, ?_⟩
      intro other present
      rw [Option.mem_def] at present
      cases Option.some.inj (running.symm.trans present)
      rw [plain]
      trivial
    have next := Transition.reachable_step (queueMachine config Data) (System.Allowed FreshExchange) system _ (.step thread) reached
      allowed moved
    exact ⟨k, stamped, value, (last_values_reached _ next).taken k v value⟩

end

-- One exchange has hit, a pop has taken the element, and another exchange comes too late.
def exchangeThenPop : List (Action smallQueue Nat) :=
  [.call 0 (.push 7), .step 0, .step 0, .step 0, .step 0, .call 1 (.exchange 0 7 9), .step 1,
    .call 2 .pop, .step 2, .step 2, .step 2, .call 1 (.exchange 0 9 5)]

theorem exchange_then_pop_runs : (System.checked FreshExchange exchangeThenPop).isSome = true := by decide +kernel

theorem exchange_atomic_late :
    let system := (System.checked FreshExchange exchangeThenPop).get exchange_then_pop_runs
    let after := system.stepTask 2 ⟨.pop, 0, .takeDone .pop 0 ⟨9, 1⟩⟩
    system.Returns 1 (.exchange 0 9 5) .failed ∧
      ∃ k, after.mark 2 = some k ∧ (takenValues after.log)[k]? = some 9 ∧ lastValue after.log k = some 9 := by
  intro system after
  have atomic := exchange_atomic system (reached_checked FreshExchange exchangeThenPop exchange_then_pop_runs)
  have names : smallQueue.Names 0 0 (stores system.log) := by decide +kernel
  have gone : held system.log 0 ≠ some 9 := by decide +kernel
  have timely : system.Timely (.step 2) := by decide +kernel
  have pops : system.Returns 2 .pop (.done (some 9) none) := ⟨⟨.pop, 0, .takeDone .pop 0 ⟨9, 1⟩⟩, rfl, rfl, rfl⟩
  refine ⟨((atomic.1 1 ⟨.exchange 0 9 5, 0, .exchange 0 9 5⟩ 0 9 5 0 rfl rfl names).2.2 gone).1, ?_⟩
  exact atomic.2.2 2 .pop 9 none after timely rfl (.inl rfl) pops

end LockfreeQueue
