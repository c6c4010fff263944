import LockfreeQueue.Order

set_option autoImplicit false

namespace LockfreeQueue

section

variable {config : Config} {Data : Type}

def Call.isPeek : Call config Data → Bool
  | .peek | .peekIndex => true
  | _ => false

-- The thread's next access reads the sequence number of a slot, or loads a whole slot.
def System.ReadsSeq (system : System config Data) (thread : Nat) : Prop :=
  ∃ task d wrIndex, system.tasks thread = some task ∧ task.pc = .pushRead d wrIndex

def System.LoadsSlot (system : System config Data) (thread : Nat) : Prop :=
  ∃ task loop rdIndex, system.tasks thread = some task ∧ task.pc = .readSlot loop rdIndex

theorem pop_slot_none (rdIndex : Index config) (e : Entry config Data) (looked : popSlot rdIndex e = .popped none) :
    popBranch config rdIndex e.seq = .empty := by
  rw [popSlot] at looked
  split at looked
  · cases looked
  · cases looked
  · assumption
  · cases looked

theorem peek_slot_failed (rdIndex : Index config) (e : Entry config Data) (looked : peekSlot rdIndex e = .reply .failed) :
    peekBranch config rdIndex e.seq = .empty := by
  rw [peekSlot] at looked
  split at looked
  · assumption
  · cases looked
  · cases looked
  · cases looked

theorem peek_slot_peeked (rdIndex : Index config) (e seen : Entry config Data) (looked : peekSlot rdIndex e = .peeked seen) :
    peekBranch config rdIndex e.seq = .take ∧ seen = e := by
  rw [peekSlot] at looked
  split at looked
  · cases looked
  · rename_i branch
    cases looked
    exact ⟨branch, rfl⟩
  · cases looked
  · cases looked

theorem peek_slot_cases (rdIndex : Index config) (e : Entry config Data) :
    (∃ pc, peekSlot rdIndex e = .goto pc) ∨ peekSlot rdIndex e = .reply .failed ∨ peekSlot rdIndex e = .peeked e := by
  rw [peekSlot]
  split
  · exact .inr (.inl rfl)
  · exact .inr (.inr rfl)
  · exact .inl ⟨_, rfl⟩
  · exact .inl ⟨_, rfl⟩

theorem look_only (memory : Memory config Data) (log since : List (Event config Data)) (mark : Option Nat) (thread : Nat)
    (loop : ReadLoop config Data) (pc : Pc config Data) (rdIndex : Index config) (e : Entry config Data)
    (known : LocalInv memory log since mark thread pc)
    (exit : pc = .take loop rdIndex e ∧ memory.entry rdIndex = e ∨ pc = .takeDone loop rdIndex e) : Accepts loop e := by
  rcases exit with ⟨rfl, _⟩ | rfl
  · obtain ⟨_, _, _, _, accepted, _⟩ := known
    exact accepted
  · obtain ⟨_, _, _, _, _, accepted⟩ := known
    exact accepted

variable [DecidableEq Data] [Zero Data]

theorem push_failed_next (memory : Memory config Data) (task : Task config Data) (d : Data) (isPush : task.call.isPush = true)
    (kind : task.pc.kind = .push d) (reply : (resume task (exec memory task.pc).next).2 = some .failed) :
    (exec memory task.pc).next = .pushed none := by
  rcases push_exits memory d task.pc kind _ rfl with ⟨pc, goes⟩ | ⟨full, _⟩ | ⟨wrIndex, stored, _⟩
  · simp [goes, resume] at reply
  · exact full
  · cases call : task.call <;> simp [call, Call.isPush] at isPush <;> simp [stored, resume, call] at reply

theorem pop_failed_next (memory : Memory config Data) (task : Task config Data) (isPop : task.call.isPop = true)
    (kind : task.pc.kind = .read .pop) (reply : (resume task (exec memory task.pc).next).2 = some .failed) :
    (exec memory task.pc).next = .popped none := by
  rcases read_exits memory .pop task.pc kind _ rfl with ⟨pc, goes⟩ | ⟨rdIndex, _, looked⟩ | ⟨rdIndex, e, took, _⟩
  · simp [goes, resume] at reply
  · rw [looked] at reply ⊢
    simp only [readSlot, popSlot] at reply ⊢
    split at reply <;> simp_all [resume]
  · cases call : task.call <;> simp [call, Call.isPop] at isPop <;> simp [took, taken, resume, call] at reply

variable (system : System config Data) (thread : Nat) (task : Task config Data)

theorem push_false_full (inv : Invariant system) (running : system.tasks thread = some task) (timely : system.InTime thread task)
    (d : Data) (kind : task.pc.kind = .push d) (gave : (exec system.memory task.pc).next = .pushed none) :
    system.ReadsSeq thread ∧ stores system.log = takes system.log + config.size := by
  have known := inv.locals thread task running
  rcases push_exits system.memory d task.pc kind _ rfl with ⟨pc, goes⟩ | ⟨_, wrIndex, place, full⟩ | ⟨wrIndex, stored, _⟩
  · rw [goes] at gave
    cases gave
  · rw [place] at known
    have inside : task.pc.inIteration = true := by rw [place]; rfl
    exact ⟨⟨task, d, wrIndex, running, place⟩,
      full_answer system.memory system.log (system.since thread) (system.mark thread) thread d wrIndex inv.holds known
        (timely inside).1 full⟩
  · rw [stored] at gave
    cases gave

theorem pop_false_empty (inv : Invariant system) (running : system.tasks thread = some task) (timely : system.InTime thread task)
    (kind : task.pc.kind = .read .pop) (gave : (exec system.memory task.pc).next = .popped none) :
    system.LoadsSlot thread ∧ stores system.log = takes system.log := by
  have known := inv.locals thread task running
  rcases read_exits system.memory .pop task.pc kind _ rfl with ⟨pc, goes⟩ | ⟨rdIndex, place, looked⟩ | ⟨rdIndex, e, took, _⟩
  · rw [goes] at gave
    cases gave
  · rw [place] at known
    have inside : task.pc.inIteration = true := by rw [place]; rfl
    obtain ⟨queue, x, legal, sound, _, _⟩ := look_sound system.memory system.log (system.since thread) (system.mark thread) thread
      .pop rdIndex inv.holds known (timely inside).2
    have empty := pop_slot_none rdIndex (system.memory.entry rdIndex) (looked.symm.trans gave)
    exact ⟨⟨task, .pop, rdIndex, running, place⟩, empty_answer system.memory system.log queue x _ legal sound empty⟩
  · rw [took] at gave
    cases gave

theorem peek_answer (inv : Invariant system) (running : system.tasks thread = some task) (timely : system.InTime thread task)
    (kind : task.pc.kind = .read .peek) :
    (∃ pc, (exec system.memory task.pc).next = .goto pc) ∨
      system.LoadsSlot thread ∧
        ((exec system.memory task.pc).next = .reply .failed ∧ stores system.log = takes system.log ∨
          ∃ e, (exec system.memory task.pc).next = .peeked e ∧ oldest system.log = some e.data) := by
  have known := inv.locals thread task running
  rcases read_exits system.memory .peek task.pc kind _ rfl with goes | ⟨rdIndex, place, looked⟩ | ⟨rdIndex, e, _, exit⟩
  · exact .inl goes
  · rw [place] at known
    have inside : task.pc.inIteration = true := by rw [place]; rfl
    obtain ⟨queue, x, legal, _, sound, index⟩ := look_sound system.memory system.log (system.since thread) (system.mark thread)
      thread .peek rdIndex inv.holds known (timely inside).2
    have loads : system.LoadsSlot thread := ⟨task, .peek, rdIndex, running, place⟩
    rcases peek_slot_cases rdIndex (system.memory.entry rdIndex) with ⟨pc, goes⟩ | failed | peeked
    · exact .inl ⟨pc, looked.trans goes⟩
    · have empty := peek_slot_failed rdIndex _ failed
      exact .inr ⟨loads, .inl ⟨looked.trans failed, empty_answer system.memory system.log queue x _ legal
        (sound (by rw [empty]; simp)) empty⟩⟩
    · obtain ⟨take, _⟩ := peek_slot_peeked rdIndex _ _ peeked
      obtain ⟨head, _⟩ := head_answer system.memory system.log queue x _ legal (sound (by rw [take]; simp)) take
      rw [← index] at head
      exact .inr ⟨loads, .inr ⟨_, looked.trans peeked, head⟩⟩
  · exact (look_only system.memory system.log (system.since thread) (system.mark thread) thread .peek task.pc rdIndex e known exit).elim

theorem emptiness_answer (inv : Invariant system) (running : system.tasks thread = some task) (timely : system.InTime thread task)
    (kind : task.pc.kind = .read .empty) :
    (∃ pc, (exec system.memory task.pc).next = .goto pc) ∨ (exec system.memory task.pc).next = .reply .failed ∨
      (system.LoadsSlot thread ∧ stores system.log = takes system.log) := by
  have known := inv.locals thread task running
  rcases read_exits system.memory .empty task.pc kind _ rfl with goes | ⟨rdIndex, place, looked⟩ | ⟨rdIndex, e, _, exit⟩
  · exact .inl goes
  · rw [place] at known
    have inside : task.pc.inIteration = true := by rw [place]; rfl
    obtain ⟨queue, x, legal, _, sound, _⟩ := look_sound system.memory system.log (system.since thread) (system.mark thread)
      thread .empty rdIndex inv.holds known (timely inside).2
    rw [readSlot, emptySlot] at looked
    by_cases same : (system.memory.entry rdIndex).seq = rdIndex <<< 1
    · have empty := (peek_branch_empty_iff config rdIndex (system.memory.entry rdIndex).seq).mpr same
      exact .inr (.inr ⟨⟨task, .empty, rdIndex, running, place⟩,
        empty_answer system.memory system.log queue x _ legal (sound (by rw [empty]; simp)) empty⟩)
    · rw [if_neg same] at looked
      exact .inr (.inl looked)
  · exact (look_only system.memory system.log (system.since thread) (system.mark thread) thread .empty task.pc rdIndex e known exit).elim

end

section

variable {config : Config} {Data : Type} [DecidableEq Data] [Zero Data]

-- Every answer that removes nothing is true of the queue at the access where it was decided.
theorem answers_linearizable (promise : System config Data → Action config Data → Prop) (system : System config Data)
    (reached : System.Reached promise system) (thread : Nat) (timely : system.Timely (.step thread)) :
    (∀ call, call.isPush = true → system.Returns thread call .failed →
      system.ReadsSeq thread ∧ stores system.log = takes system.log + config.size) ∧
    (∀ call, call.isPop = true ∨ call.isPeek = true → system.Returns thread call .failed →
      system.LoadsSlot thread ∧ stores system.log = takes system.log) ∧
    (system.Returns thread .empty (.done none none) → system.LoadsSlot thread ∧ stores system.log = takes system.log) ∧
    ∀ call v number, call.isPeek = true → system.Returns thread call (.done (some v) number) →
      system.LoadsSlot thread ∧ oldest system.log = some v := by
  have inv := invariant_reached promise system reached
  refine ⟨?_, ?_, ?_, ?_⟩
  · rintro call isPush ⟨task, running, rfl, reply⟩
    have runs := inv.runs thread task running
    obtain ⟨d, kind⟩ : ∃ d, task.pc.kind = .push d := by
      cases call : task.call <;> simp_all [Call.isPush, Call.Runs]
    exact push_false_full system thread task inv running (timely task running) d kind
      (push_failed_next system.memory task d isPush kind reply)
  · rintro call (isPop | isPeek) ⟨task, running, rfl, reply⟩
    · have runs := inv.runs thread task running
      have kind : task.pc.kind = .read .pop := by
        cases call : task.call <;> simp_all [Call.isPop, Call.Runs]
      exact pop_false_empty system thread task inv running (timely task running) kind
        (pop_failed_next system.memory task isPop kind reply)
    · have runs := inv.runs thread task running
      have kind : task.pc.kind = .read .peek := by
        cases call : task.call <;> simp_all [Call.isPeek, Call.Runs]
      rcases peek_answer system thread task inv running (timely task running) kind with ⟨pc, goes⟩ | ⟨loads, answer⟩
      · simp [goes, resume] at reply
      · rcases answer with ⟨_, empty⟩ | ⟨e, peeked, _⟩
        · exact ⟨loads, empty⟩
        · rw [peeked, resume] at reply
          split at reply <;> cases reply
  · rintro ⟨task, running, made, reply⟩
    have kind : task.pc.kind = .read .empty := by simpa [made, Call.Runs] using inv.runs thread task running
    rcases emptiness_answer system thread task inv running (timely task running) kind with ⟨pc, goes⟩ | failed | answer
    · simp [goes, resume] at reply
    · simp [failed, resume] at reply
    · exact answer
  · rintro call v number isPeek ⟨task, running, rfl, reply⟩
    have runs := inv.runs thread task running
    have kind : task.pc.kind = .read .peek := by
      cases call : task.call <;> simp_all [Call.isPeek, Call.Runs]
    rcases peek_answer system thread task inv running (timely task running) kind with ⟨pc, goes⟩ | ⟨loads, answer⟩
    · simp [goes, resume] at reply
    · rcases answer with ⟨failed, _⟩ | ⟨e, peeked, head⟩
      · simp [failed, resume] at reply
      · refine ⟨loads, ?_⟩
        rw [peeked, resume] at reply
        split at reply <;> cases reply <;> exact head

end

-- The third push on two slots, where it has read the slot of the first.
def pushToFull : List (Action smallQueue Nat) :=
  [.call 0 (.push 7), .step 0, .step 0, .step 0, .step 0, .call 0 (.push 8), .step 0, .step 0, .step 0, .step 0,
    .call 0 (.push 9), .step 0]

theorem push_to_full_runs : (System.checked Unrestricted pushToFull).isSome = true := by decide +kernel

theorem answers_linearizable_full :
    let system := (System.checked Unrestricted pushToFull).get push_to_full_runs
    system.Returns 0 (.push 9) .failed ∧ system.ReadsSeq 0 ∧ stores system.log = takes system.log + 2 := by
  intro system
  have timely : system.Timely (.step 0) := by decide +kernel
  have failed : system.Returns 0 (.push 9) .failed := ⟨⟨.push 9, 0, .pushRead 9 2⟩, rfl, rfl, rfl⟩
  have answers := answers_linearizable Unrestricted system (reached_checked Unrestricted pushToFull push_to_full_runs) 0 timely
  exact ⟨failed, answers.1 (.push 9) rfl failed⟩

end LockfreeQueue
