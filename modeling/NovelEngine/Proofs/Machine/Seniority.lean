import Mathlib.Control.Monad.Basic
import NovelEngine.Proofs.Machine.Order

/-!
# Seniority

In a tick every thread of the run order takes one turn, in order. The new threads join behind the old ones, in the
order in which they came to be. So in any run of operations whose ticks all come to their end the run order is by age,
whatever places of the pool the threads were given.
-/
namespace NovelEngine.Machine

variable {m : Machine} {wanted : Nat} {id : ThreadId} {log order born : List ThreadId}

/-- The order has only threads of the log, the older ones first. The log has the latest first; a thread came to be
where its identifier was given out last. -/
structure ByAge (log order : List ThreadId) : Prop where
  logged : ∀ id ∈ order, id ∈ log
  sorted : order.Pairwise fun older younger => log.idxOf younger < log.idxOf older

theorem ByAge.sublist {kept : List ThreadId} (h : ByAge log order) (hkept : kept.Sublist order) :
    ByAge log kept where
  logged id hid := h.logged id (hkept.subset hid)
  sorted := h.sorted.sublist hkept

theorem ByAge.append_one (h : ByAge log order) (hid : id ∉ order) : ByAge (id :: log) (order ++ [id]) := by
  have hold : ∀ other ∈ order, (id :: log).idxOf other = log.idxOf other + 1 := by
    intro other hother
    have hne : id ≠ other := fun heq => hid (heq ▸ hother)
    rw [List.idxOf_cons, beq_false_of_ne hne, cond_false]
  refine ⟨?_, List.pairwise_append.mpr ⟨?_, List.pairwise_singleton _ _, ?_⟩⟩
  · intro other hother
    rcases List.mem_append.mp hother with hother | hother
    · exact List.mem_cons_of_mem _ (h.logged other hother)
    · rw [List.mem_singleton.mp hother]
      exact List.mem_cons_self
  · refine h.sorted.imp_of_mem ?_
    intro older younger holder hyounger hlt
    rw [hold older holder, hold younger hyounger]
    exact Nat.succ_lt_succ hlt
  · intro older holder younger hyounger
    rw [List.mem_singleton.mp hyounger, hold older holder, List.idxOf_cons_self]
    exact Nat.succ_pos _

theorem ByAge.append (h : ByAge log order) (hnodup : (order ++ born).Nodup) :
    ByAge (born.reverse ++ log) (order ++ born) := by
  induction born generalizing log order with
  | nil =>
    rw [List.append_nil]
    exact h
  | cons id born ih =>
    have hid : id ∉ order := by
      intro hmem
      exact (List.nodup_append.mp hnodup).2.2 id hmem id List.mem_cons_self rfl
    rw [List.append_cons] at hnodup ⊢
    rw [List.reverse_cons, List.append_assoc]
    exact ih (h.append_one hid) hnodup

section

variable {σ : Type} [Stage σ] {delta : Single} {stage : σ} {report : TickReport}

/-- The machine when the turns of a tick are over. -/
def turned (m : Machine) (delta : Single) (stage : σ) : Machine :=
  { m with shared := (m.course .leave delta stage).world.shared }

/-- The machine when also what was asked in the turns is done. -/
def joined (m : Machine) (delta : Single) (stage : σ) : Machine := (m.turned delta stage).applyRequests.value

/-- What a tick that comes to its end is made of. -/
structure Scheduled (m : Machine) (delta : Single) (stage : σ) (report : TickReport) : Prop where
  /-- The course is that of the tick. -/
  world_eq : (m.course .leave delta stage).world = (turns delta m.order ⟨m.shared, stage⟩).value.world
  /-- The threads of the run order take their turns, and no others do. -/
  taken : (m.course .leave delta stage).turns.map TurnRecord.id = m.order
  /-- No thread takes two turns, none is new that was there, and none is new twice. -/
  nodup : (m.order ++ (m.course .leave delta stage).born).Nodup
  /-- No turn depends on what is asked to be done to threads: any of it may be dropped or changed at once. -/
  unheeded : ∀ edit, (m.course edit delta stage).turns = (m.course .leave delta stage).turns
  length_le : ∀ t ∈ (m.course .leave delta stage).turns,
    t.steps.length ≤ m.shared.options.instructionsPerTick.toNat
  executed : report.executed = (m.course .leave delta stage).executed
  order_eq : (m.tick delta stage).value.machine.order =
    (m.order ++ (m.course .leave delta stage).born).filter fun id => !(m.joined delta stage).ended id
  ended_iff : ∀ id ∈ m.order ++ (m.course .leave delta stage).born, (m.joined delta stage).ended id = true ↔
    (m.turned delta stage).ended id = true ∨
      (m.turned delta stage).Kills (m.turned delta stage).shared.requests id

theorem tick_eq_ok (hok : (m.tick delta stage).value.result = .ok report) :
    (m.tick delta stage).value.machine = (m.joined delta stage).reap ∧
      (m.course .leave delta stage).halt = none ∧
      report.executed = (m.course .leave delta stage).executed := by
  obtain ⟨hworld, hresult⟩ := turnsCourse_describes delta m.order ⟨m.shared, stage⟩
  rw [joined, turned, course, hworld]
  rw [tick_value] at hok ⊢
  revert hok hresult
  generalize turnsCourse .leave delta m.order ⟨m.shared, stage⟩ = c
  generalize (turns delta m.order ⟨m.shared, stage⟩).value = o
  obtain ⟨world, result⟩ := o
  intro hok hresult
  cases result with
  | error halt => cases hok
  | ok counts =>
    obtain rfl := Except.ok.inj hok
    cases hhalt : c.halt with
    | some halt =>
      rw [hhalt] at hresult
      cases hresult
    | none =>
      rw [hhalt] at hresult
      exact ⟨rfl, rfl, Except.ok.inj hresult⟩

/-- The books of a machine when the turns are over: the new threads wait to join. -/
theorem Pending.turned (h : m.Pending wanted m.shared.requests) (delta : Single) (stage : σ) :
    (m.turned delta stage).Pending wanted (m.turned delta stage).shared.requests := by
  have hworld : (turns delta m.order ⟨m.shared, stage⟩).value.world.Consistent wanted m.order none :=
    consistent_turns delta m.order h
  rw [Machine.turned, course, (turnsCourse_describes delta m.order ⟨m.shared, stage⟩).1]
  exact hworld

theorem Pending.scheduled (h : m.Pending wanted m.shared.requests) (hempty : m.shared.requests = [])
    (hok : (m.tick delta stage).value.result = .ok report) : m.Scheduled delta stage report := by
  obtain ⟨hmachine, hhalt, hexecuted⟩ := tick_eq_ok hok
  obtain ⟨htaken, hspawned⟩ := turnsCourse_leave delta
    (show World.Consistent ⟨m.shared, stage⟩ wanted m.order none from h) fun _ hid => hid
  have hborn : spawned (m.turned delta stage).shared.requests = (m.course .leave delta stage).born.reverse := by
    refine hspawned.trans ?_
    rw [hempty]
    exact List.append_nil _
  have hturned := h.turned delta stage
  have hjoined : (m.joined delta stage).order = m.order ++ (m.course .leave delta stage).born := by
    rw [joined, hturned.order_applyRequests, hborn, List.reverse_reverse]
    rfl
  have hnodup : (m.order ++ (m.course .leave delta stage).born).Nodup := by
    rw [← hjoined]
    exact (List.nodup_append.mp hturned.applyRequests.nodup).1
  refine ⟨(turnsCourse_describes delta m.order _).1, htaken hhalt, hnodup, ?_, ?_, hexecuted, ?_, ?_⟩
  · intro edit
    exact turnsCourse_same rfl
  · intro t ht
    exact length_turnsCourse_le ht
  · rw [hmachine, ← hjoined]
    exact hturned.applyRequests.order_reap
  · intro id hid
    have hlive : (m.turned delta stage).shared.threads.contains id = true := by
      refine (hturned.contains_iff id).mpr ?_
      rw [hborn, List.mem_reverse]
      exact List.mem_append.mp hid
    obtain ⟨thread, hget⟩ := hturned.exists_get? hlive
    exact ended_applyRequests (Option.isSome_iff_exists.mpr ⟨thread, hget⟩)

end

/-- The machines that some sequence of operations leads to whose ticks all come to their end, with the threads that
came to be, the latest first. -/
inductive Chronicle (options : MachineOptions) (library : Option ScriptLibrary) :
    Machine → List ThreadId → Prop
  | create : Chronicle options library (create options library).value []
  | putScript {m m' : Machine} {log : List ThreadId} (buffer : Nat) (script : Script)
      (h : Chronicle options library m log) (hm : m.putScript buffer script = some m') :
      Chronicle options library m' log
  | loadScript {m m' : Machine} {log : List ThreadId} (buffer : UInt64) (id : UInt32) (loaded : Bool)
      (h : Chronicle options library m log) (hm : (m.loadScript buffer id).value = .ok (loaded, m')) :
      Chronicle options library m' log
  | spawn {m m' : Machine} {log : List ThreadId} (buffer : UInt64) (label : Int32) (id : ThreadId)
      (h : Chronicle options library m log) (hm : m.spawn buffer label = .ok (id, m')) :
      Chronicle options library m' (id :: log)
  | globals {m : Machine} {log : List ThreadId} (globals : Globals) (h : Chronicle options library m log) :
      Chronicle options library { m with shared.globals := globals } log
  | tick {m : Machine} {log : List ThreadId} {σ : Type} [Stage σ] (delta : Single) (stage : σ)
      (report : TickReport) (h : Chronicle options library m log)
      (hok : (m.tick delta stage).value.result = .ok report) :
      Chronicle options library (m.tick delta stage).value.machine
        ((m.course .leave delta stage).born.reverse ++ log)

variable {options : MachineOptions} {library : Option ScriptLibrary}

theorem Chronicle.reachable (h : Chronicle options library m log) : Reachable options library m := by
  induction h with
  | create => exact .create
  | putScript buffer script _ hm ih => exact ih.putScript buffer script hm
  | loadScript buffer id loaded _ hm ih => exact ih.loadScript buffer id loaded hm
  | spawn buffer label id _ hm ih => exact ih.spawn buffer label id hm
  | globals globals _ ih => exact ih.globals globals
  | tick delta stage report _ _ ih => exact ih.tick delta stage

theorem putScript_pool {m' : Machine} {buffer : Nat} {script : Script} (hm : m.putScript buffer script = some m') :
    m'.shared.pool = m.shared.pool ∧ m'.order = m.order := by
  unfold Machine.putScript at hm
  split at hm
  · cases hm
    exact ⟨rfl, rfl⟩
  · cases hm

theorem spawn_eq_ok {m' : Machine} {buffer : UInt64} {label : Int32} (hm : m.spawn buffer label = .ok (id, m')) :
    m'.order = m.order ++ [id] ∧ m'.shared.requests = m.shared.requests := by
  unfold Machine.spawn at hm
  cases hspawn : m.shared.spawn buffer.toInt64.toInt label with
  | error f =>
    rw [hspawn] at hm
    cases hm
  | ok r =>
    obtain ⟨thread, -, -, hs⟩ := Shared.spawn_eq_ok (show _ = Except.ok (r.1, r.2) from hspawn)
    rw [hspawn] at hm
    cases hm
    refine ⟨rfl, ?_⟩
    rw [hs]

theorem Chronicle.requests (h : Chronicle options library m log) : m.shared.requests = [] := by
  induction h with
  | create =>
    rw [create_value]
  | putScript buffer script _ hm ih =>
    obtain ⟨hpool, -⟩ := putScript_pool hm
    exact (congrArg Pool.requests hpool).trans ih
  | loadScript buffer id loaded _ hm ih =>
    obtain ⟨hpool, -⟩ := loadScript_pool hm
    exact (congrArg Pool.requests hpool).trans ih
  | spawn buffer label id _ hm ih => exact (spawn_eq_ok hm).2.trans ih
  | globals globals _ ih => exact ih
  | tick delta stage report h hok _ => exact ((tick_books h.reachable.pending delta stage).2 report hok).requests

theorem Chronicle.byAge (h : Chronicle options library m log) : ByAge log m.order := by
  induction h with
  | create =>
    rw [create_value]
    exact ⟨nofun, List.Pairwise.nil⟩
  | putScript buffer script _ hm ih =>
    rw [(putScript_pool hm).2]
    exact ih
  | loadScript buffer id loaded _ hm ih =>
    rw [(loadScript_pool hm).2]
    exact ih
  | @spawn m m' log buffer label id h hm ih =>
    have hafter : Reachable options library m' := h.reachable.spawn buffer label id hm
    have horder := (spawn_eq_ok hm).1
    have hnodup : (m.order ++ [id]).Nodup := by
      rw [← horder]
      exact hafter.pending.store.order_nodup
    have hid : id ∉ m.order := by
      intro hmem
      exact (List.nodup_append.mp hnodup).2.2 id hmem id (List.mem_singleton_self id) rfl
    rw [horder]
    exact ih.append_one hid
  | globals globals _ ih => exact ih
  | tick delta stage report h hok ih =>
    have hscheduled := h.reachable.pending.scheduled h.requests hok
    rw [hscheduled.order_eq]
    exact (ih.append hscheduled.nodup).sublist List.filter_sublist

end NovelEngine.Machine
