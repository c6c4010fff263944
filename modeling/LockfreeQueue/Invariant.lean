import LockfreeQueue.Log
import LockfreeQueue.Represents

set_option autoImplicit false

namespace LockfreeQueue

section

variable {config : Config} {Data : Type}

-- What a thread's copy of an index still tells: it was the shared index when loaded, and since
-- then the shared index and the count it follows have moved by what the log has recorded.
structure PushLocal (log since : List (Event config Data)) (wrIndex : Index config) (x : Nat) : Prop where
  index : wrIndex = config.number x
  loaded : writes log = x + writes since
  window : stores log ≤ x + 1 + stores since

structure PopLocal (log since : List (Event config Data)) (rdIndex : Index config) (x : Nat) : Prop where
  index : rdIndex = config.number x
  loaded : reads log = x + reads since
  window : takes log ≤ x + 1 + takes since

def Foreign (thread : Nat) (since : List (Event config Data)) : Prop := ∀ event ∈ since, event.thread ≠ thread

def Accepts (loop : ReadLoop config Data) (e : Entry config Data) : Prop :=
  match loop with
  | .pop => True
  | .popIf f => f e.data e.seq = true
  | .peek | .empty => False

def LocalInv (memory : Memory config Data) (log since : List (Event config Data)) (mark : Option Nat) (thread : Nat) :
    Pc config Data → Prop
  | .pushLoad _ | .readLoad _ | .exchange _ _ _ => True
  | .pushRead _ wrIndex => ∃ x, PushLocal log since wrIndex x ∧ Foreign thread since
  | .pushFill _ wrIndex => ∃ x, PushLocal log since wrIndex x ∧ Foreign thread since ∧
      stores log ≤ x + stores since ∧ x < takes log + config.size
  | .pushDone d wrIndex => ∃ x, PushLocal log since wrIndex x ∧ mark = some x ∧ (storedValues log)[x]? = some d
  | .pushAdvance _ wrIndex => ∃ x, PushLocal log since wrIndex x ∧ Foreign thread since ∧ x < stores log
  | .readSlot _ rdIndex => ∃ x, PopLocal log since rdIndex x ∧ Foreign thread since
  | .take loop rdIndex e => ∃ x, PopLocal log since rdIndex x ∧ Foreign thread since ∧ e.seq = config.fullSeq x ∧
      Accepts loop e ∧ ((∀ event ∈ since, event.onEntry = false) → memory.entry rdIndex = e)
  | .takeDone loop rdIndex e => ∃ x, PopLocal log since rdIndex x ∧ mark = some x ∧
      (takenValues log)[x]? = some e.data ∧ e.seq = config.fullSeq x ∧ Accepts loop e
  | .readAdvance _ rdIndex => ∃ x, PopLocal log since rdIndex x ∧ Foreign thread since ∧ x < takes log

variable (event : Event config Data) (log since : List (Event config Data))

theorem push_local_keep (wrIndex : Index config) (x : Nat) (known : PushLocal log since wrIndex x) :
    PushLocal (event :: log) (event :: since) wrIndex x := by
  obtain ⟨index, loaded, window⟩ := known
  exact ⟨index, by rw [writes_cons, writes_cons]; omega, by rw [stores_cons, stores_cons]; omega⟩

theorem pop_local_keep (rdIndex : Index config) (x : Nat) (known : PopLocal log since rdIndex x) :
    PopLocal (event :: log) (event :: since) rdIndex x := by
  obtain ⟨index, loaded, window⟩ := known
  exact ⟨index, by rw [reads_cons, reads_cons]; omega, by rw [takes_cons, takes_cons]; omega⟩

theorem foreign_keep (thread : Nat) (other : event.thread ≠ thread) (known : Foreign thread since) :
    Foreign thread (event :: since) := by
  intro earlier member
  rcases List.mem_cons.mp member with same | later
  · rw [same]; exact other
  · exact known earlier later

theorem local_keep (memory after : Memory config Data) (mark : Option Nat) (thread : Nat) (pc : Pc config Data)
    (other : event.thread ≠ thread) (frame : event.onEntry = false → after.array = memory.array)
    (known : LocalInv memory log since mark thread pc) :
    LocalInv after (event :: log) (event :: since) mark thread pc := by
  cases pc with
  | pushLoad d => trivial
  | readLoad loop => trivial
  | exchange i oldValue newValue => trivial
  | pushRead d wrIndex =>
      obtain ⟨x, position, foreign⟩ := known
      exact ⟨x, push_local_keep event log since wrIndex x position, foreign_keep event since thread other foreign⟩
  | pushFill d wrIndex =>
      obtain ⟨x, position, foreign, free, room⟩ := known
      refine ⟨x, push_local_keep event log since wrIndex x position, foreign_keep event since thread other foreign, ?_, ?_⟩
      · rw [stores_cons, stores_cons]; omega
      · rw [takes_cons]; omega
  | pushDone d wrIndex =>
      obtain ⟨x, position, stamped, stored⟩ := known
      exact ⟨x, push_local_keep event log since wrIndex x position, stamped, stored_values_keep event log x d stored⟩
  | pushAdvance d wrIndex =>
      obtain ⟨x, position, foreign, passed⟩ := known
      refine ⟨x, push_local_keep event log since wrIndex x position, foreign_keep event since thread other foreign, ?_⟩
      rw [stores_cons]; omega
  | readSlot loop rdIndex =>
      obtain ⟨x, position, foreign⟩ := known
      exact ⟨x, pop_local_keep event log since rdIndex x position, foreign_keep event since thread other foreign⟩
  | take loop rdIndex e =>
      obtain ⟨x, position, foreign, full, accepted, unchanged⟩ := known
      refine ⟨x, pop_local_keep event log since rdIndex x position, foreign_keep event since thread other foreign, full,
        accepted, ?_⟩
      intro quiet
      rw [Memory.entry, frame (quiet event (by simp))]
      exact unchanged (fun earlier member => quiet earlier (by simp [member]))
  | takeDone loop rdIndex e =>
      obtain ⟨x, position, stamped, taken, full, accepted⟩ := known
      exact ⟨x, pop_local_keep event log since rdIndex x position, stamped, taken_values_keep event log x e.data taken,
        full, accepted⟩
  | readAdvance loop rdIndex =>
      obtain ⟨x, position, foreign, passed⟩ := known
      refine ⟨x, pop_local_keep event log since rdIndex x position, foreign_keep event since thread other foreign, ?_⟩
      rw [takes_cons]; omega

end

inductive Kind (config : Config) (Data : Type) where
  | push (d : Data)
  | read (loop : ReadLoop config Data)
  | exchange (i : Index config) (oldValue newValue : Data)

section

variable {config : Config} {Data : Type}

def Pc.kind : Pc config Data → Kind config Data
  | .pushLoad d | .pushRead d _ | .pushFill d _ | .pushDone d _ | .pushAdvance d _ => .push d
  | .readLoad loop | .readSlot loop _ | .take loop _ _ | .takeDone loop _ _ | .readAdvance loop _ => .read loop
  | .exchange i oldValue newValue => .exchange i oldValue newValue

theorem exchange_place (pc : Pc config Data) (i : Index config) (old new : Data) (kind : pc.kind = .exchange i old new) :
    pc = .exchange i old new := by
  cases pc <;> cases kind
  rfl

def Call.Runs (call : Call config Data) (kind : Kind config Data) : Prop :=
  match call with
  | .push d | .pushIndex d => kind = .push d
  | .pop | .popIndex | .consume _ => kind = .read .pop
  | .pushKeepN d | .pushKeepNIndex d => kind = .push d ∨ kind = .read .pop
  | .exchange i oldValue newValue => kind = .exchange i oldValue newValue
  | .peek | .peekIndex => kind = .read .peek
  | .popIf f => kind = .read (.popIf f)
  | .empty => kind = .read .empty

theorem call_start_runs (call : Call config Data) : call.Runs call.start.pc.kind := by
  cases call <;> simp [Call.Runs, Call.start, Call.entry, Pc.kind]

theorem slot_kind (loop : ReadLoop config Data) (rdIndex : Index config) (e : Entry config Data) (pc : Pc config Data)
    (continues : readSlot loop rdIndex e = .goto pc) : pc.kind = .read loop := by
  cases loop with
  | pop =>
      simp only [readSlot, popSlot] at continues
      split at continues <;> cases continues <;> rfl
  | popIf f =>
      simp only [readSlot, popIfSlot] at continues
      split at continues
      · cases continues
      · split at continues <;> cases continues
        rfl
      · cases continues; rfl
      · cases continues; rfl
  | peek =>
      simp only [readSlot, peekSlot] at continues
      split at continues <;> cases continues <;> rfl
  | empty =>
      simp only [readSlot, emptySlot] at continues
      split at continues <;> cases continues

theorem slot_goto_sound [Zero Data] (memory : Memory config Data) (loop : ReadLoop config Data) (queue : Fifo Data config.size) (written consumed x : Nat)
    (represents : Represents memory queue written consumed) (behind : x ≤ consumed)
    (fresh : queue.first + config.size ≤ x + config.half) (after : Pc config Data)
    (continues : readSlot loop (config.number x) (memory.entry (config.number x)) = .goto after) :
    after = .readLoad loop ∨ (after = .readAdvance loop (config.number x) ∧ x < queue.first) ∨
      (after = .take loop (config.number x) (memory.entry (config.number x)) ∧ Accepts loop (memory.entry (config.number x)) ∧
        (memory.entry (config.number x)).seq = config.fullSeq x) := by
  have popSound := pop_branch_sound memory queue written consumed x represents behind fresh
  have peekSound := peek_branch_sound memory queue written consumed x represents behind fresh
  cases loop with
  | pop =>
      simp only [readSlot, popSlot] at continues
      split at continues
      · rename_i branch
        rw [branch] at popSound
        obtain ⟨_, v, _, stored⟩ := popSound
        cases continues
        exact .inr (.inr ⟨rfl, trivial, by rw [stored]⟩)
      · rename_i branch
        rw [branch] at popSound
        cases continues
        exact .inr (.inl ⟨rfl, popSound⟩)
      · cases continues
      · cases continues
        exact .inl rfl
  | popIf f =>
      simp only [readSlot, popIfSlot] at continues
      split at continues
      · cases continues
      · rename_i branch
        rw [branch] at peekSound
        obtain ⟨_, v, _, stored⟩ := peekSound (by simp)
        split at continues
        · rename_i accepted
          cases continues
          exact .inr (.inr ⟨rfl, accepted, by rw [stored]⟩)
        · cases continues
      · rename_i branch
        rw [branch] at peekSound
        cases continues
        exact .inr (.inl ⟨rfl, peekSound (by simp)⟩)
      · cases continues
        exact .inl rfl
  | peek =>
      simp only [readSlot, peekSlot] at continues
      split at continues
      · cases continues
      · cases continues
      · rename_i branch
        rw [branch] at peekSound
        cases continues
        exact .inr (.inl ⟨rfl, peekSound (by simp)⟩)
      · cases continues
        exact .inl rfl
  | empty =>
      simp only [readSlot, emptySlot] at continues
      split at continues <;> cases continues

theorem resume_call (task after : Task config Data) (next : Next config Data)
    (continues : (resume task next).1 = some after) : after.call = task.call := by
  cases next with
  | goto pc => cases continues; rfl
  | pushed result =>
      cases result <;> simp only [resume] at continues <;> split at continues <;> cases continues <;> rfl
  | popped result =>
      cases result with
      | none => simp only [resume] at continues; split at continues <;> cases continues <;> rfl
      | some pair =>
          simp only [resume] at continues
          split at continues
          · cases continues; rfl
          · cases continues; rfl
          · split at continues <;> cases continues
            rfl
          · cases continues
          · cases continues
  | peeked e => simp only [resume] at continues; split at continues <;> cases continues
  | reply reply => cases continues

theorem resume_pc (task after : Task config Data) (next : Next config Data) (continues : (resume task next).1 = some after) :
    next = .goto after.pc ∨ (after.pc.isLoad = true ∧ task.call.Runs after.pc.kind) := by
  cases next with
  | goto pc =>
      cases continues
      exact .inl rfl
  | pushed result =>
      cases result with
      | none =>
          simp only [resume] at continues
          split at continues <;> cases continues
          all_goals
            rename_i kind
            simp [Pc.isLoad, Pc.kind, Call.Runs, kind]
      | some wrIndex => simp only [resume] at continues; split at continues <;> cases continues
  | popped result =>
      cases result with
      | none =>
          simp only [resume] at continues
          split at continues <;> cases continues
          all_goals
            rename_i kind
            simp [Pc.isLoad, Pc.kind, Call.Runs, kind]
      | some pair =>
          simp only [resume] at continues
          split at continues
          · rename_i kind
            cases continues
            simp [Pc.isLoad, Pc.kind, Call.Runs, kind]
          · rename_i kind
            cases continues
            simp [Pc.isLoad, Pc.kind, Call.Runs, kind]
          · rename_i kind
            split at continues <;> cases continues
            simp [Pc.isLoad, Pc.kind, Call.Runs, kind]
          · cases continues
          · cases continues
  | peeked e => simp only [resume] at continues; split at continues <;> cases continues
  | reply reply => cases continues

theorem local_load (memory : Memory config Data) (log since : List (Event config Data)) (mark : Option Nat) (thread : Nat)
    (pc : Pc config Data) (load : pc.isLoad = true) : LocalInv memory log since mark thread pc := by
  cases pc with
  | pushLoad d => trivial
  | readLoad loop => trivial
  | _ => cases load

end

end LockfreeQueue
