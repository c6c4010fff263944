import LockfreeQueue.Branches

set_option autoImplicit false

namespace LockfreeQueue

-- The loops over the read index. pop is also the inner loop of consume and push_keep_n; empty
-- looks once and never loops.
inductive ReadLoop (config : Config) (Data : Type) where
  | pop
  | popIf (f : Data → Index config → Bool)
  | peek
  | empty

-- Where a thread stands inside one loop: each constructor is the next access to shared memory,
-- with the local variables the code still needs.
inductive Pc (config : Config) (Data : Type) where
  | pushLoad (d : Data)
  | pushRead (d : Data) (wrIndex : Index config)
  | pushFill (d : Data) (wrIndex : Index config)
  | pushDone (d : Data) (wrIndex : Index config)
  | pushAdvance (d : Data) (wrIndex : Index config)
  | readLoad (loop : ReadLoop config Data)
  | readSlot (loop : ReadLoop config Data) (rdIndex : Index config)
  | take (loop : ReadLoop config Data) (rdIndex : Index config) (e : Entry config Data)
  | takeDone (loop : ReadLoop config Data) (rdIndex : Index config) (e : Entry config Data)
  | readAdvance (loop : ReadLoop config Data) (rdIndex : Index config)
  | exchange (i : Index config) (oldValue newValue : Data)

inductive Act (config : Config) (Data : Type) where
  | stored (d : Data)
  | took (d : Data)
  | swapped (i : Index config) (oldValue newValue : Data)
  | wrote
  | read

inductive Reply (config : Config) (Data : Type) where
  | failed
  | done (data : Option Data) (number : Option (Index config))
  | consumed (count : Nat)
deriving DecidableEq

-- How one loop continues: at another access, or by returning to the call it runs in. A push
-- that stored reports its index, a pop that took reports its index and the data.
inductive Next (config : Config) (Data : Type) where
  | goto (pc : Pc config Data)
  | pushed (result : Option (Index config))
  | popped (result : Option (Index config × Data))
  | peeked (e : Entry config Data)
  | reply (reply : Reply config Data)

structure Effect (config : Config) (Data : Type) where
  memory : Memory config Data
  act : Option (Act config Data)
  next : Next config Data

section

variable {config : Config} {Data : Type}

def pushSlot (d : Data) (wrIndex seq : Index config) : Next config Data :=
  match pushBranch config wrIndex seq with
  | .fill => .goto (.pushFill d wrIndex)
  | .advance => .goto (.pushAdvance d wrIndex)
  | .full => .pushed none
  | .retry => .goto (.pushLoad d)

def popSlot (rdIndex : Index config) (e : Entry config Data) : Next config Data :=
  match popBranch config rdIndex e.seq with
  | .take => .goto (.take .pop rdIndex e)
  | .advance => .goto (.readAdvance .pop rdIndex)
  | .empty => .popped none
  | .retry => .goto (.readLoad .pop)

def popIfSlot (f : Data → Index config → Bool) (rdIndex : Index config) (e : Entry config Data) : Next config Data :=
  match peekBranch config rdIndex e.seq with
  | .empty => .reply .failed
  | .take => if f e.data e.seq then .goto (.take (.popIf f) rdIndex e) else .reply .failed
  | .advance => .goto (.readAdvance (.popIf f) rdIndex)
  | .retry => .goto (.readLoad (.popIf f))

def peekSlot (rdIndex : Index config) (e : Entry config Data) : Next config Data :=
  match peekBranch config rdIndex e.seq with
  | .empty => .reply .failed
  | .take => .peeked e
  | .advance => .goto (.readAdvance .peek rdIndex)
  | .retry => .goto (.readLoad .peek)

def emptySlot (rdIndex : Index config) (e : Entry config Data) : Next config Data :=
  if e.seq = rdIndex <<< 1 then .reply (.done none none) else .reply .failed

def readSlot (loop : ReadLoop config Data) (rdIndex : Index config) (e : Entry config Data) : Next config Data :=
  match loop with
  | .pop => popSlot rdIndex e
  | .popIf f => popIfSlot f rdIndex e
  | .peek => peekSlot rdIndex e
  | .empty => emptySlot rdIndex e

def taken (loop : ReadLoop config Data) (rdIndex : Index config) (e : Entry config Data) : Next config Data :=
  match loop with
  | .popIf _ => .reply (.done (some e.data) none)
  | _ => .popped (some (rdIndex, e.data))

theorem pop_slot_cases (rdIndex : Index config) (e : Entry config Data) :
    (∃ pc, popSlot rdIndex e = .goto pc) ∨ popSlot rdIndex e = .popped none := by
  rw [popSlot]
  split
  · exact .inl ⟨_, rfl⟩
  · exact .inl ⟨_, rfl⟩
  · exact .inr rfl
  · exact .inl ⟨_, rfl⟩

theorem pop_if_slot_cases (f : Data → Index config → Bool) (rdIndex : Index config) (e : Entry config Data) :
    (∃ pc, popIfSlot f rdIndex e = .goto pc) ∨ popIfSlot f rdIndex e = .reply .failed := by
  rw [popIfSlot]
  split
  · exact .inr rfl
  · split
    · exact .inl ⟨_, rfl⟩
    · exact .inr rfl
  · exact .inl ⟨_, rfl⟩
  · exact .inl ⟨_, rfl⟩

theorem taken_no_goto (loop : ReadLoop config Data) (rdIndex : Index config) (e : Entry config Data) (pc : Pc config Data) :
    taken loop rdIndex e ≠ .goto pc := by
  cases loop <;> simp [taken]

variable [DecidableEq Data] [Zero Data]

def exec (memory : Memory config Data) : Pc config Data → Effect config Data
  | .pushLoad d => ⟨memory, none, .goto (.pushRead d memory.writeIndex)⟩
  | .pushRead d wrIndex => ⟨memory, none, pushSlot d wrIndex (memory.entry wrIndex).seq⟩
  | .pushFill d wrIndex =>
      match memory.compareExchange wrIndex ⟨0, wrIndex <<< 1⟩ ⟨d, (wrIndex <<< 1) ||| 1⟩ with
      | (after, true) =>
          ⟨after, some (.stored d), if config.lazyPush then .pushed (some wrIndex) else .goto (.pushDone d wrIndex)⟩
      | (after, false) => ⟨after, none, .goto (.pushLoad d)⟩
  | .pushDone _ wrIndex =>
      match memory.compareExchangeWrite wrIndex (wrIndex + 1) with
      | (after, moved) => ⟨after, if moved then some .wrote else none, .pushed (some wrIndex)⟩
  | .pushAdvance d wrIndex =>
      match memory.compareExchangeWrite wrIndex (wrIndex + 1) with
      | (after, moved) => ⟨after, if moved then some .wrote else none, .goto (.pushLoad d)⟩
  | .readLoad loop => ⟨memory, none, .goto (.readSlot loop memory.readIndex)⟩
  | .readSlot loop rdIndex => ⟨memory, none, readSlot loop rdIndex (memory.entry rdIndex)⟩
  | .take loop rdIndex e =>
      match memory.compareExchange rdIndex e ⟨0, (rdIndex + config.sizeWord) <<< 1⟩ with
      | (after, true) =>
          ⟨after, some (.took e.data), if config.lazyPop then taken loop rdIndex e else .goto (.takeDone loop rdIndex e)⟩
      | (after, false) => ⟨after, none, .goto (.readLoad loop)⟩
  | .takeDone loop rdIndex e =>
      match memory.compareExchangeRead rdIndex (rdIndex + 1) with
      | (after, moved) => ⟨after, if moved then some .read else none, taken loop rdIndex e⟩
  | .readAdvance loop rdIndex =>
      match memory.compareExchangeRead rdIndex (rdIndex + 1) with
      | (after, moved) => ⟨after, if moved then some .read else none, .goto (.readLoad loop)⟩
  | .exchange i oldValue newValue =>
      match memory.compareExchange i ⟨oldValue, (i <<< 1) ||| 1⟩ ⟨newValue, (i <<< 1) ||| 1⟩ with
      | (after, true) => ⟨after, some (.swapped i oldValue newValue), .reply (.done none none)⟩
      | (after, false) => ⟨after, none, .reply .failed⟩

variable (memory : Memory config Data)

theorem exec_fill_hit (d : Data) (wrIndex : Index config) (hit : memory.entry wrIndex = ⟨0, wrIndex <<< 1⟩) :
    exec memory (.pushFill d wrIndex) = ⟨memory.setEntry wrIndex ⟨d, (wrIndex <<< 1) ||| 1⟩, some (.stored d),
      if config.lazyPush then .pushed (some wrIndex) else .goto (.pushDone d wrIndex)⟩ := by
  simp only [exec, Memory.compareExchange, if_pos hit]

theorem exec_fill_miss (d : Data) (wrIndex : Index config) (miss : memory.entry wrIndex ≠ ⟨0, wrIndex <<< 1⟩) :
    exec memory (.pushFill d wrIndex) = ⟨memory, none, .goto (.pushLoad d)⟩ := by
  simp only [exec, Memory.compareExchange, if_neg miss]

theorem exec_take_hit (loop : ReadLoop config Data) (rdIndex : Index config) (e : Entry config Data)
    (hit : memory.entry rdIndex = e) :
    exec memory (.take loop rdIndex e) = ⟨memory.setEntry rdIndex ⟨0, (rdIndex + config.sizeWord) <<< 1⟩, some (.took e.data),
      if config.lazyPop then taken loop rdIndex e else .goto (.takeDone loop rdIndex e)⟩ := by
  simp only [exec, Memory.compareExchange, if_pos hit]

theorem exec_take_miss (loop : ReadLoop config Data) (rdIndex : Index config) (e : Entry config Data)
    (miss : memory.entry rdIndex ≠ e) : exec memory (.take loop rdIndex e) = ⟨memory, none, .goto (.readLoad loop)⟩ := by
  simp only [exec, Memory.compareExchange, if_neg miss]

theorem exec_exchange_hit (i : Index config) (old new : Data) (hit : memory.entry i = ⟨old, (i <<< 1) ||| 1⟩) :
    exec memory (.exchange i old new) =
      ⟨memory.setEntry i ⟨new, (i <<< 1) ||| 1⟩, some (.swapped i old new), .reply (.done none none)⟩ := by
  simp only [exec, Memory.compareExchange, if_pos hit]

theorem exec_exchange_miss (i : Index config) (old new : Data) (miss : memory.entry i ≠ ⟨old, (i <<< 1) ||| 1⟩) :
    exec memory (.exchange i old new) = ⟨memory, none, .reply .failed⟩ := by
  simp only [exec, Memory.compareExchange, if_neg miss]

-- Both index CASes are followed by the same step whether they moved the index or not.
theorem exec_done (d : Data) (wrIndex : Index config) : exec memory (.pushDone d wrIndex) =
    if memory.writeIndex = wrIndex then ⟨{ memory with writeIndex := wrIndex + 1 }, some .wrote, .pushed (some wrIndex)⟩
    else ⟨memory, none, .pushed (some wrIndex)⟩ := by
  by_cases same : memory.writeIndex = wrIndex <;> simp [exec, Memory.compareExchangeWrite, same]

theorem exec_push_advance (d : Data) (wrIndex : Index config) : exec memory (.pushAdvance d wrIndex) =
    if memory.writeIndex = wrIndex then ⟨{ memory with writeIndex := wrIndex + 1 }, some .wrote, .goto (.pushLoad d)⟩
    else ⟨memory, none, .goto (.pushLoad d)⟩ := by
  by_cases same : memory.writeIndex = wrIndex <;> simp [exec, Memory.compareExchangeWrite, same]

theorem exec_take_done (loop : ReadLoop config Data) (rdIndex : Index config) (e : Entry config Data) :
    exec memory (.takeDone loop rdIndex e) =
      if memory.readIndex = rdIndex then ⟨{ memory with readIndex := rdIndex + 1 }, some .read, taken loop rdIndex e⟩
      else ⟨memory, none, taken loop rdIndex e⟩ := by
  by_cases same : memory.readIndex = rdIndex <;> simp [exec, Memory.compareExchangeRead, same]

theorem exec_read_advance (loop : ReadLoop config Data) (rdIndex : Index config) :
    exec memory (.readAdvance loop rdIndex) =
      if memory.readIndex = rdIndex then ⟨{ memory with readIndex := rdIndex + 1 }, some .read, .goto (.readLoad loop)⟩
      else ⟨memory, none, .goto (.readLoad loop)⟩ := by
  by_cases same : memory.readIndex = rdIndex <;> simp [exec, Memory.compareExchangeRead, same]

-- All that one access can do: nothing, change one slot, or advance one of the indices.
theorem exec_cases (pc : Pc config Data) :
    (exec memory pc).act = none ∧ (exec memory pc).memory = memory ∨
      (∃ act index value, (exec memory pc).act = some act ∧ act ≠ .wrote ∧ act ≠ .read ∧
        (exec memory pc).memory = memory.setEntry index value) ∨
      (exec memory pc).act = some .wrote ∧ (exec memory pc).memory = { memory with writeIndex := memory.writeIndex + 1 } ∨
      (exec memory pc).act = some .read ∧ (exec memory pc).memory = { memory with readIndex := memory.readIndex + 1 } := by
  cases pc with
  | pushLoad d => exact .inl ⟨rfl, rfl⟩
  | pushRead d wrIndex => exact .inl ⟨rfl, rfl⟩
  | readLoad loop => exact .inl ⟨rfl, rfl⟩
  | readSlot loop rdIndex => exact .inl ⟨rfl, rfl⟩
  | pushFill d wrIndex =>
      by_cases hit : memory.entry wrIndex = ⟨0, wrIndex <<< 1⟩
      · rw [exec_fill_hit memory d wrIndex hit]
        exact .inr (.inl ⟨_, _, _, rfl, by simp, by simp, rfl⟩)
      · rw [exec_fill_miss memory d wrIndex hit]
        exact .inl ⟨rfl, rfl⟩
  | take loop rdIndex e =>
      by_cases hit : memory.entry rdIndex = e
      · rw [exec_take_hit memory loop rdIndex e hit]
        exact .inr (.inl ⟨_, _, _, rfl, by simp, by simp, rfl⟩)
      · rw [exec_take_miss memory loop rdIndex e hit]
        exact .inl ⟨rfl, rfl⟩
  | exchange i old new =>
      by_cases hit : memory.entry i = ⟨old, (i <<< 1) ||| 1⟩
      · rw [exec_exchange_hit memory i old new hit]
        exact .inr (.inl ⟨_, _, _, rfl, by simp, by simp, rfl⟩)
      · rw [exec_exchange_miss memory i old new hit]
        exact .inl ⟨rfl, rfl⟩
  | pushDone d wrIndex =>
      rw [exec_done]
      by_cases hit : memory.writeIndex = wrIndex
      · rw [if_pos hit, hit]
        exact .inr (.inr (.inl ⟨rfl, rfl⟩))
      · rw [if_neg hit]
        exact .inl ⟨rfl, rfl⟩
  | pushAdvance d wrIndex =>
      rw [exec_push_advance]
      by_cases hit : memory.writeIndex = wrIndex
      · rw [if_pos hit, hit]
        exact .inr (.inr (.inl ⟨rfl, rfl⟩))
      · rw [if_neg hit]
        exact .inl ⟨rfl, rfl⟩
  | takeDone loop rdIndex e =>
      rw [exec_take_done]
      by_cases hit : memory.readIndex = rdIndex
      · rw [if_pos hit, hit]
        exact .inr (.inr (.inr ⟨rfl, rfl⟩))
      · rw [if_neg hit]
        exact .inl ⟨rfl, rfl⟩
  | readAdvance loop rdIndex =>
      rw [exec_read_advance]
      by_cases hit : memory.readIndex = rdIndex
      · rw [if_pos hit, hit]
        exact .inr (.inr (.inr ⟨rfl, rfl⟩))
      · rw [if_neg hit]
        exact .inl ⟨rfl, rfl⟩

end

-- The public operations. enqueue and dequeue only call push and pop.
inductive Call (config : Config) (Data : Type) where
  | push (d : Data)
  | pushIndex (d : Data)
  | pop
  | popIndex
  | pushKeepN (d : Data)
  | pushKeepNIndex (d : Data)
  | exchange (i : Index config) (oldValue newValue : Data)
  | peek
  | peekIndex
  | popIf (f : Data → Index config → Bool)
  | consume (f : Data → Index config → Bool)
  | empty

-- A call in progress: `count` is consume's accumulator r and stays 0 elsewhere.
structure Task (config : Config) (Data : Type) where
  call : Call config Data
  count : Nat
  pc : Pc config Data

section

variable {config : Config} {Data : Type}

def Call.entry : Call config Data → Pc config Data
  | .push d | .pushIndex d | .pushKeepN d | .pushKeepNIndex d => .pushLoad d
  | .pop | .popIndex | .consume _ => .readLoad .pop
  | .exchange i oldValue newValue => .exchange i oldValue newValue
  | .peek | .peekIndex => .readLoad .peek
  | .popIf f => .readLoad (.popIf f)
  | .empty => .readLoad .empty

def Call.start (call : Call config Data) : Task config Data := ⟨call, 0, call.entry⟩

-- What the call does with the outcome of its inner loop: the retry of push_keep_n and the loop
-- of consume live here, everything else returns.
def resume (task : Task config Data) : Next config Data → Option (Task config Data) × Option (Reply config Data)
  | .goto pc => (some { task with pc := pc }, none)
  | .pushed none =>
      match task.call with
      | .pushKeepN _ | .pushKeepNIndex _ => (some { task with pc := .readLoad .pop }, none)
      | _ => (none, some .failed)
  | .pushed (some wrIndex) =>
      match task.call with
      | .pushIndex _ | .pushKeepNIndex _ => (none, some (.done none (some wrIndex)))
      | _ => (none, some (.done none none))
  | .popped none =>
      match task.call with
      | .pushKeepN d | .pushKeepNIndex d => (some { task with pc := .pushLoad d }, none)
      | .consume _ => (none, some (.consumed task.count))
      | _ => (none, some .failed)
  | .popped (some (rdIndex, data)) =>
      match task.call with
      | .pushKeepN d | .pushKeepNIndex d => (some { task with pc := .pushLoad d }, none)
      | .consume f =>
          if f data rdIndex then (none, some (.consumed (task.count + 1)))
          else (some { task with count := task.count + 1, pc := .readLoad .pop }, none)
      | .popIndex => (none, some (.done (some data) (some rdIndex)))
      | _ => (none, some (.done (some data) none))
  | .peeked e =>
      match task.call with
      | .peekIndex => (none, some (.done (some e.data) (some e.seq)))
      | _ => (none, some (.done (some e.data) none))
  | .reply reply => (none, some reply)

theorem resume_place (task : Task config Data) (pc : Pc config Data) (outcome : Next config Data)
    (left : ∀ after, outcome ≠ .goto after) : resume { task with pc := pc } outcome = resume task outcome := by
  cases outcome with
  | goto after => exact absurd rfl (left after)
  | pushed result => cases result <;> rfl
  | popped result => cases result <;> rfl
  | peeked e => rfl
  | reply reply => rfl

theorem look_no_value (task : Task config Data) (loop : ReadLoop config Data) (rdIndex : Index config) (e : Entry config Data)
    (v : Data) (number : Option (Index config)) (pops : loop = .pop ∨ ∃ f, loop = .popIf f) :
    (resume task (readSlot loop rdIndex e)).2 ≠ some (.done (some v) number) := by
  rcases pops with rfl | ⟨f, rfl⟩
  · rcases pop_slot_cases rdIndex e with ⟨pc, goes⟩ | none
    · simp [readSlot, goes, resume]
    · simp only [readSlot, none, resume]
      split <;> simp
  · rcases pop_if_slot_cases f rdIndex e with ⟨pc, goes⟩ | failed
    · simp [readSlot, goes, resume]
    · simp [readSlot, failed, resume]

theorem taken_value (task : Task config Data) (loop : ReadLoop config Data) (rdIndex : Index config) (e : Entry config Data)
    (v : Data) (number : Option (Index config)) (pops : loop = .pop ∨ ∃ f, loop = .popIf f)
    (reply : (resume task (taken loop rdIndex e)).2 = some (.done (some v) number)) : e.data = v := by
  rcases pops with rfl | ⟨f, rfl⟩
  · simp only [taken, resume] at reply
    split at reply
    · cases reply
    · cases reply
    · split at reply <;> cases reply
    · cases reply; rfl
    · cases reply; rfl
  · simp only [taken, resume] at reply
    cases reply
    rfl

end

end LockfreeQueue
