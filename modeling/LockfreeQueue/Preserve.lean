import LockfreeQueue.Invariant

set_option autoImplicit false

namespace LockfreeQueue

section

variable {config : Config} {Data : Type} [DecidableEq Data] (log since : List (Event config Data))

theorem push_window (queue : Fifo Data config.size) (wrIndex : Index config) (x : Nat)
    (legal : contents log = some queue) (position : PushLocal log since wrIndex x) (timely : stores since < config.limit) :
    queue.total + config.size ≤ x + config.half := by
  obtain ⟨total, _⟩ := contents_counts log queue legal
  have window := position.window
  have fits := config.size_half
  rw [Config.limit] at timely
  omega

theorem pop_window (queue : Fifo Data config.size) (rdIndex : Index config) (x : Nat)
    (legal : contents log = some queue) (position : PopLocal log since rdIndex x) (timely : takes since < config.limit) :
    queue.first + config.size ≤ x + config.half := by
  obtain ⟨_, first⟩ := contents_counts log queue legal
  have window := position.window
  have fits := config.size_half
  rw [Config.limit] at timely
  omega

end

section

variable {config : Config} {Data : Type} [DecidableEq Data] [Zero Data]

def Holds (memory : Memory config Data) (log : List (Event config Data)) : Prop :=
  ∃ queue, contents log = some queue ∧ Represents memory queue (writes log) (reads log)

variable (memory : Memory config Data) (log since : List (Event config Data)) (mark : Option Nat) (thread : Nat)
variable (call : Call config Data)

theorem exec_goto_kind (memory : Memory config Data) (pc after : Pc config Data)
    (continues : (exec memory pc).next = .goto after) : after.kind = pc.kind := by
  cases pc with
  | pushLoad d => cases continues; rfl
  | pushRead d wrIndex =>
      simp only [exec, pushSlot] at continues
      split at continues <;> cases continues <;> rfl
  | pushFill d wrIndex =>
      simp only [exec] at continues
      split at continues
      · simp only at continues
        split at continues <;> cases continues
        rfl
      · cases continues; rfl
  | pushDone d wrIndex => cases continues
  | pushAdvance d wrIndex => cases continues; rfl
  | readLoad loop => cases continues; rfl
  | readSlot loop rdIndex => exact slot_kind loop rdIndex _ after continues
  | take loop rdIndex e =>
      simp only [exec] at continues
      split at continues
      · simp only at continues
        split at continues
        · exact absurd continues (taken_no_goto loop rdIndex e after)
        · cases continues; rfl
      · cases continues; rfl
  | takeDone loop rdIndex e => exact absurd continues (taken_no_goto loop rdIndex e after)
  | readAdvance loop rdIndex => cases continues; rfl
  | exchange i old new =>
      simp only [exec] at continues
      split at continues <;> cases continues

theorem exec_frame (memory : Memory config Data) (log : List (Event config Data)) (thread : Nat) (call : Call config Data)
    (pc : Pc config Data) :
    (exec memory pc).act = none ∧ (exec memory pc).memory = memory ∨
      ∃ act, (exec memory pc).act = some act ∧ (act.event log thread call).thread = thread ∧
        ((act.event log thread call).onEntry = false → (exec memory pc).memory.array = memory.array) := by
  have owner (act : Act config Data) : (act.event log thread call).thread = thread := by cases act <;> rfl
  rcases exec_cases memory pc with silent | ⟨act, index, value, acted, wrote, read, after⟩ | ⟨acted, after⟩ | ⟨acted, after⟩
  · exact .inl silent
  · refine .inr ⟨act, acted, owner act, fun plain => ?_⟩
    cases act with
    | wrote => exact absurd rfl wrote
    | read => exact absurd rfl read
    | _ => cases plain
  · exact .inr ⟨.wrote, acted, owner _, fun _ => by rw [after]⟩
  · exact .inr ⟨.read, acted, owner _, fun _ => by rw [after]⟩

-- What an access preserves: the memory keeps representing the logged queue, and a thread that
-- stays in its loop knows at the next access what that access relies on.
def Preserves (pc : Pc config Data) : Prop :=
  Holds (exec memory pc).memory (recorded log thread call (exec memory pc).act ++ log) ∧
    ∀ next, (exec memory pc).next = .goto next →
      LocalInv (exec memory pc).memory (recorded log thread call (exec memory pc).act ++ log)
        (if pc.isLoad = true then [] else recorded log thread call (exec memory pc).act ++ since)
        (marked log mark (exec memory pc).act) thread next

theorem preserves_silent (pc : Pc config Data) (next : Next config Data) (effect : exec memory pc = ⟨memory, none, next⟩)
    (holds : Holds memory log)
    (landed : ∀ after, next = .goto after → LocalInv memory log (if pc.isLoad = true then [] else since) mark thread after) :
    Preserves memory log since mark thread call pc := by
  rw [Preserves, effect]
  exact ⟨holds, landed⟩

theorem preserves_push_load (d : Data) (holds : Holds memory log) :
    Preserves memory log since mark thread call (.pushLoad d) := by
  apply preserves_silent memory log since mark thread call (.pushLoad d) _ rfl holds
  intro after continues
  cases continues
  obtain ⟨queue, legal, represents⟩ := holds
  obtain ⟨total, _⟩ := contents_counts log queue legal
  have lag := represents.writeLag
  refine ⟨writes log, ⟨represents.write, rfl, ?_⟩, by simp [Foreign, Pc.isLoad]⟩
  rw [← total]
  simpa [Pc.isLoad] using lag.2

theorem preserves_push_read (d : Data) (wrIndex : Index config) (holds : Holds memory log)
    (known : LocalInv memory log since mark thread (.pushRead d wrIndex)) (timely : stores since < config.limit) :
    Preserves memory log since mark thread call (.pushRead d wrIndex) := by
  apply preserves_silent memory log since mark thread call (.pushRead d wrIndex) _ rfl holds
  obtain ⟨queue, legal, represents⟩ := holds
  obtain ⟨total, first⟩ := contents_counts log queue legal
  obtain ⟨x, position, foreign⟩ := known
  have behind : x ≤ writes log := by rw [position.loaded]; omega
  have sound := push_branch_sound memory queue _ _ x represents behind
    (push_window log since queue wrIndex x legal position timely)
  intro after continues
  rw [← position.index] at sound
  simp only [pushSlot] at continues
  split at continues
  · rename_i branch
    rw [branch] at sound
    cases continues
    obtain ⟨current, room⟩ := sound
    refine ⟨x, position, foreign, ?_, by omega⟩
    change stores log ≤ x + stores since
    omega
  · rename_i branch
    rw [branch] at sound
    cases continues
    exact ⟨x, position, foreign, by rw [← total]; exact sound⟩
  · cases continues
  · cases continues
    trivial

theorem fill_current (d : Data) (wrIndex : Index config) (queue : Fifo Data config.size) (legal : contents log = some queue)
    (represents : Represents memory queue (writes log) (reads log))
    (known : LocalInv memory log since mark thread (.pushFill d wrIndex)) (timely : stores since < config.limit)
    (hit : memory.entry wrIndex = ⟨0, wrIndex <<< 1⟩) :
    wrIndex = config.number queue.total ∧ writes log = queue.total ∧ queue.total < queue.first + config.size ∧
      PushLocal log since wrIndex queue.total := by
  obtain ⟨x, position, _, _, _⟩ := known
  have behind : x ≤ writes log := by rw [position.loaded]; omega
  have lag := represents.writeLag
  have fresh := push_window log since queue wrIndex x legal position timely
  have index := position.index
  subst index
  obtain ⟨current, room⟩ := fill_sound memory queue _ _ x represents (by omega) fresh hit
  subst current
  exact ⟨rfl, by omega, room, position⟩

theorem preserves_push_fill (d : Data) (wrIndex : Index config) (holds : Holds memory log)
    (known : LocalInv memory log since mark thread (.pushFill d wrIndex)) (timely : stores since < config.limit) :
    Preserves memory log since mark thread call (.pushFill d wrIndex) := by
  by_cases hit : memory.entry wrIndex = ⟨0, wrIndex <<< 1⟩
  · obtain ⟨queue, legal, represents⟩ := holds
    obtain ⟨total, _⟩ := contents_counts log queue legal
    obtain ⟨index, current, room, position⟩ := fill_current memory log since mark thread d wrIndex queue legal represents known timely hit
    subst index
    obtain ⟨after, pushed⟩ := Fifo.push_room queue d room
    rw [Preserves, exec_fill_hit memory d _ hit]
    refine ⟨⟨after, ?_, ?_⟩, ?_⟩
    · change contents (.stored thread d :: log) = some after
      rw [contents_op _ log (.push d) rfl, legal]
      exact pushed
    · have stored := store_represents memory queue after _ _ d represents current pushed
      change Represents _ after (writes (.stored thread d :: log)) (reads (.stored thread d :: log))
      rw [writes_cons, reads_cons]
      exact stored
    · intro later continues
      simp only at continues
      split at continues
      · cases continues
      · cases continues
        refine ⟨queue.total, push_local_keep (.stored thread d) log since _ _ position, ?_, ?_⟩
        · change some (stores log) = some queue.total
          rw [total]
        · have last := stored_values_last log thread d
          rw [← total] at last
          exact last
  · apply preserves_silent memory log since mark thread call _ _ (exec_fill_miss memory d wrIndex hit) holds
    intro after continues
    cases continues
    trivial

theorem write_advance (wrIndex : Index config) (x : Nat) (holds : Holds memory log)
    (position : PushLocal log since wrIndex x) (passed : x < stores log) (timely : stores since < config.limit)
    (hit : memory.writeIndex = wrIndex) :
    Holds { memory with writeIndex := wrIndex + 1 } (.wrote thread :: log) := by
  obtain ⟨queue, legal, represents⟩ := holds
  obtain ⟨total, _⟩ := contents_counts log queue legal
  have fresh := push_window log since queue wrIndex x legal position timely
  have lag := represents.writeLag
  have small := config.size_half
  have loaded := position.loaded
  have same : config.number (writes log) = config.number x := by
    rw [← represents.write, hit, position.index]
  have current := index_current config (writes log) x (by omega) (by omega) same
  refine ⟨queue, ?_, ?_⟩
  · rw [contents_silent _ log rfl, legal]
  · have moved := write_represents memory queue _ _ represents (by omega)
    rw [same, ← position.index] at moved
    rw [writes_cons, reads_cons]
    exact moved

theorem preserves_push_done (d : Data) (wrIndex : Index config) (holds : Holds memory log)
    (known : LocalInv memory log since mark thread (.pushDone d wrIndex)) (timely : stores since < config.limit) :
    Preserves memory log since mark thread call (.pushDone d wrIndex) := by
  obtain ⟨x, position, _, stored⟩ := known
  rw [Preserves, exec_done]
  by_cases hit : memory.writeIndex = wrIndex
  · rw [if_pos hit]
    exact ⟨write_advance memory log since thread wrIndex x holds position (stored_values_bound log x d stored) timely hit, by simp⟩
  · rw [if_neg hit]
    exact ⟨holds, by simp⟩

theorem preserves_push_advance (d : Data) (wrIndex : Index config) (holds : Holds memory log)
    (known : LocalInv memory log since mark thread (.pushAdvance d wrIndex)) (timely : stores since < config.limit) :
    Preserves memory log since mark thread call (.pushAdvance d wrIndex) := by
  obtain ⟨x, position, _, passed⟩ := known
  rw [Preserves, exec_push_advance]
  by_cases hit : memory.writeIndex = wrIndex
  · rw [if_pos hit]
    refine ⟨write_advance memory log since thread wrIndex x holds position passed timely hit, ?_⟩
    intro after continues
    cases continues
    trivial
  · rw [if_neg hit]
    refine ⟨holds, ?_⟩
    intro after continues
    cases continues
    trivial

theorem preserves_read_load (loop : ReadLoop config Data) (holds : Holds memory log) :
    Preserves memory log since mark thread call (.readLoad loop) := by
  apply preserves_silent memory log since mark thread call (.readLoad loop) _ rfl holds
  intro after continues
  cases continues
  obtain ⟨queue, legal, represents⟩ := holds
  obtain ⟨_, first⟩ := contents_counts log queue legal
  have lag := represents.readLag
  refine ⟨reads log, ⟨represents.read, rfl, ?_⟩, by simp [Foreign, Pc.isLoad]⟩
  rw [← first]
  simpa [Pc.isLoad] using lag.2

theorem preserves_read_slot (loop : ReadLoop config Data) (rdIndex : Index config) (holds : Holds memory log)
    (known : LocalInv memory log since mark thread (.readSlot loop rdIndex)) (timely : takes since < config.limit) :
    Preserves memory log since mark thread call (.readSlot loop rdIndex) := by
  apply preserves_silent memory log since mark thread call (.readSlot loop rdIndex) _ rfl holds
  obtain ⟨queue, legal, represents⟩ := holds
  obtain ⟨_, first⟩ := contents_counts log queue legal
  obtain ⟨x, position, foreign⟩ := known
  have behind : x ≤ reads log := by rw [position.loaded]; omega
  have fresh := pop_window log since queue rdIndex x legal position timely
  have index := position.index
  subst index
  intro after continues
  rcases slot_goto_sound memory loop queue _ _ x represents behind fresh after continues with rfl | ⟨rfl, passed⟩ | ⟨rfl, accepted, full⟩
  · trivial
  · exact ⟨x, position, foreign, by rw [← first]; exact passed⟩
  · exact ⟨x, position, foreign, full, accepted, fun _ => rfl⟩

theorem take_current (loop : ReadLoop config Data) (rdIndex : Index config) (e : Entry config Data)
    (queue : Fifo Data config.size) (legal : contents log = some queue)
    (represents : Represents memory queue (writes log) (reads log))
    (known : LocalInv memory log since mark thread (.take loop rdIndex e)) (timely : takes since < config.limit)
    (hit : memory.entry rdIndex = e) :
    rdIndex = config.number queue.first ∧ reads log = queue.first ∧ queue.get? queue.first = some e.data ∧
      PopLocal log since rdIndex queue.first ∧ e.seq = config.fullSeq queue.first ∧ Accepts loop e := by
  obtain ⟨x, position, _, full, accepted, _⟩ := known
  have behind : x ≤ reads log := by rw [position.loaded]; omega
  have lag := represents.readLag
  have fresh := pop_window log since queue rdIndex x legal position timely
  have index := position.index
  subst index
  obtain ⟨current, head⟩ := take_sound memory queue _ _ x e represents (by omega) fresh full hit
  subst current
  exact ⟨rfl, by omega, head, position, full, accepted⟩

theorem preserves_take (loop : ReadLoop config Data) (rdIndex : Index config) (e : Entry config Data) (holds : Holds memory log)
    (known : LocalInv memory log since mark thread (.take loop rdIndex e)) (timely : takes since < config.limit) :
    Preserves memory log since mark thread call (.take loop rdIndex e) := by
  by_cases hit : memory.entry rdIndex = e
  · obtain ⟨queue, legal, represents⟩ := holds
    obtain ⟨_, first⟩ := contents_counts log queue legal
    obtain ⟨index, current, head, position, full, accepted⟩ :=
      take_current memory log since mark thread loop rdIndex e queue legal represents known timely hit
    subst index
    obtain ⟨after, popped⟩ := Fifo.pop_of_get queue e.data head
    rw [Preserves, exec_take_hit memory loop _ e hit]
    refine ⟨⟨after, ?_, ?_⟩, ?_⟩
    · change contents (.took thread e.data call.discards :: log) = some after
      rw [contents_op _ log (.pop e.data) rfl, legal]
      change queue.perform (.pop e.data) = some after
      rw [Fifo.perform, popped, Option.bind_some, if_pos rfl]
    · have removed := take_represents memory queue after _ _ e.data represents current popped
      change Represents _ after (writes (.took thread e.data call.discards :: log)) (reads (.took thread e.data call.discards :: log))
      rw [writes_cons, reads_cons]
      exact removed
    · intro later continues
      simp only at continues
      split at continues
      · exact absurd continues (taken_no_goto loop _ e later)
      · cases continues
        refine ⟨queue.first, pop_local_keep (.took thread e.data call.discards) log since _ _ position, ?_, ?_, full, accepted⟩
        · change some (takes log) = some queue.first
          rw [first]
        · have last := taken_values_last log thread e.data call.discards
          rw [← first] at last
          exact last
  · apply preserves_silent memory log since mark thread call _ _ (exec_take_miss memory loop rdIndex e hit) holds
    intro after continues
    cases continues
    trivial

theorem read_advance (rdIndex : Index config) (x : Nat) (holds : Holds memory log)
    (position : PopLocal log since rdIndex x) (passed : x < takes log) (timely : takes since < config.limit)
    (hit : memory.readIndex = rdIndex) :
    Holds { memory with readIndex := rdIndex + 1 } (.read thread :: log) := by
  obtain ⟨queue, legal, represents⟩ := holds
  obtain ⟨_, first⟩ := contents_counts log queue legal
  have fresh := pop_window log since queue rdIndex x legal position timely
  have lag := represents.readLag
  have small := config.size_half
  have loaded := position.loaded
  have same : config.number (reads log) = config.number x := by
    rw [← represents.read, hit, position.index]
  have current := index_current config (reads log) x (by omega) (by omega) same
  refine ⟨queue, ?_, ?_⟩
  · rw [contents_silent _ log rfl, legal]
  · have moved := read_represents memory queue _ _ represents (by omega)
    rw [same, ← position.index] at moved
    rw [writes_cons, reads_cons]
    exact moved

theorem preserves_take_done (loop : ReadLoop config Data) (rdIndex : Index config) (e : Entry config Data)
    (holds : Holds memory log) (known : LocalInv memory log since mark thread (.takeDone loop rdIndex e))
    (timely : takes since < config.limit) : Preserves memory log since mark thread call (.takeDone loop rdIndex e) := by
  obtain ⟨x, position, _, removed, _⟩ := known
  rw [Preserves, exec_take_done]
  by_cases hit : memory.readIndex = rdIndex
  · rw [if_pos hit]
    exact ⟨read_advance memory log since thread rdIndex x holds position (taken_values_bound log x e.data removed) timely hit,
      fun after continues => absurd continues (taken_no_goto loop rdIndex e after)⟩
  · rw [if_neg hit]
    exact ⟨holds, fun after continues => absurd continues (taken_no_goto loop rdIndex e after)⟩

theorem preserves_read_advance (loop : ReadLoop config Data) (rdIndex : Index config) (holds : Holds memory log)
    (known : LocalInv memory log since mark thread (.readAdvance loop rdIndex)) (timely : takes since < config.limit) :
    Preserves memory log since mark thread call (.readAdvance loop rdIndex) := by
  obtain ⟨x, position, _, passed⟩ := known
  rw [Preserves, exec_read_advance]
  by_cases hit : memory.readIndex = rdIndex
  · rw [if_pos hit]
    refine ⟨read_advance memory log since thread rdIndex x holds position passed timely hit, ?_⟩
    intro after continues
    cases continues
    trivial
  · rw [if_neg hit]
    refine ⟨holds, ?_⟩
    intro after continues
    cases continues
    trivial

theorem preserves_exchange (i : Index config) (old new : Data) (holds : Holds memory log) :
    Preserves memory log since mark thread call (.exchange i old new) := by
  by_cases hit : memory.entry i = ⟨old, (i <<< 1) ||| 1⟩
  · obtain ⟨queue, legal, represents⟩ := holds
    obtain ⟨_, first⟩ := contents_counts log queue legal
    obtain ⟨lower, upper, residue⟩ := Word.at_least_spec config.half (takes log) i.toNat config.half_positive
    have held := (exchange_iff memory queue _ _ i _ old represents residue (by omega) (by omega)).mp hit
    obtain ⟨after, replaced⟩ := (Fifo.replace_iff queue _ old new).mpr held
    rw [Preserves, exec_exchange_hit memory i old new hit]
    refine ⟨⟨after, ?_, ?_⟩, by simp⟩
    · change contents (.swapped thread i (Word.atLeast config.half (takes log) i.toNat) old new :: log) = some after
      rw [contents_op _ log _ rfl, legal]
      exact replaced
    · have swapped := swap_represents memory queue after _ _ i _ old new represents residue replaced
      change Represents _ after (writes (_ :: log)) (reads (_ :: log))
      rw [writes_cons, reads_cons]
      exact swapped
  · exact preserves_silent memory log since mark thread call _ _ (exec_exchange_miss memory i old new hit) holds (by simp)

-- Every access of every loop, one case for each place a thread can stand.
theorem exec_preserves (pc : Pc config Data) (holds : Holds memory log) (known : LocalInv memory log since mark thread pc)
    (timely : pc.inIteration = true → stores since < config.limit ∧ takes since < config.limit) :
    Preserves memory log since mark thread call pc := by
  cases pc with
  | pushLoad d => exact preserves_push_load memory log since mark thread call d holds
  | pushRead d wrIndex => exact preserves_push_read memory log since mark thread call d wrIndex holds known (timely rfl).1
  | pushFill d wrIndex => exact preserves_push_fill memory log since mark thread call d wrIndex holds known (timely rfl).1
  | pushDone d wrIndex => exact preserves_push_done memory log since mark thread call d wrIndex holds known (timely rfl).1
  | pushAdvance d wrIndex => exact preserves_push_advance memory log since mark thread call d wrIndex holds known (timely rfl).1
  | readLoad loop => exact preserves_read_load memory log since mark thread call loop holds
  | readSlot loop rdIndex => exact preserves_read_slot memory log since mark thread call loop rdIndex holds known (timely rfl).2
  | take loop rdIndex e => exact preserves_take memory log since mark thread call loop rdIndex e holds known (timely rfl).2
  | takeDone loop rdIndex e => exact preserves_take_done memory log since mark thread call loop rdIndex e holds known (timely rfl).2
  | readAdvance loop rdIndex => exact preserves_read_advance memory log since mark thread call loop rdIndex holds known (timely rfl).2
  | exchange i old new => exact preserves_exchange memory log since mark thread call i old new holds

end

end LockfreeQueue
