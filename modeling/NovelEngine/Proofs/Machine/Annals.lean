import NovelEngine.Proofs.Machine.Progress
import NovelEngine.Proofs.Thread.Events

/-!
# Annals of a machine

The annals of a machine say which threads have begun and ended in the operations that led to it.
-/
namespace NovelEngine.Machine

section

variable {σ : Type} [Stage σ]

def begun (m : Machine) (delta : Single) (stage : σ) : List ThreadEvent :=
  let after := m.turned delta stage
  (m.shared.threads.newcomers after.shared.threads).filterMap fun id =>
    (after.thread? id).map fun thread => .began id thread.script

def gone (m : Machine) (delta : Single) (stage : σ) : List ThreadEvent :=
  let after := (m.tick delta stage).value.machine
  (after.shared.threads.newcomers (m.turned delta stage).shared.threads).map .ended

/-- What happens in a tick, the latest first. -/
def events (m : Machine) (delta : Single) (stage : σ) : List ThreadEvent := m.gone delta stage ++ m.begun delta stage

end

/-- The machines that operations with acceptable scripts lead to, with all that has happened to threads. -/
inductive Annals (acceptable : Script → Prop) (options : MachineOptions) (library : Option ScriptLibrary) :
    Machine → List ThreadEvent → Prop
  | create : Annals acceptable options library (create options library).value []
  | putScript {m m' : Machine} {log : List ThreadEvent} (buffer : Nat) (script : Script)
      (hscript : acceptable script) (h : Annals acceptable options library m log)
      (hm : m.putScript buffer script = some m') : Annals acceptable options library m' log
  | loadScript {m m' : Machine} {log : List ThreadEvent} (buffer : UInt64) (id : UInt32) (loaded : Bool)
      (h : Annals acceptable options library m log) (hm : (m.loadScript buffer id).value = .ok (loaded, m')) :
      Annals acceptable options library m' log
  | spawn {m m' : Machine} {log : List ThreadEvent} {thread : Thread} (buffer : UInt64) (label : Int32) (id : ThreadId)
      (h : Annals acceptable options library m log) (hm : m.spawn buffer label = .ok (id, m'))
      (hthread : m'.thread? id = some thread) : Annals acceptable options library m' (.began id thread.script :: log)
  | globals {m : Machine} {log : List ThreadEvent} (globals : Globals) (h : Annals acceptable options library m log) :
      Annals acceptable options library { m with shared.globals := globals } log
  | tick {m : Machine} {log : List ThreadEvent} {σ : Type} [Stage σ] (delta : Single) (stage : σ)
      (h : Annals acceptable options library m log) :
      Annals acceptable options library (m.tick delta stage).value.machine (m.events delta stage ++ log)

variable {acceptable : Script → Prop} {options : MachineOptions} {library : Option ScriptLibrary} {m m' : Machine}
  {log : List ThreadEvent} {id : ThreadId} {wanted : Nat}

theorem Annals.reachable (h : Annals acceptable options library m log) : Reachable options library m := by
  induction h with
  | create => exact .create
  | putScript buffer script _ _ hm ih => exact ih.putScript buffer script hm
  | loadScript buffer id loaded _ hm ih => exact ih.loadScript buffer id loaded hm
  | spawn buffer label id _ hm _ ih => exact ih.spawn buffer label id hm
  | globals globals _ ih => exact ih.globals globals
  | tick delta stage _ ih => exact ih.tick delta stage

theorem Annals.tick_of_newcomers {σ : Type} [Stage σ] {delta : Single} {stage : σ}
    (h : Annals acceptable options library m log) (ids : List ThreadId)
    (hbegun : m.shared.threads.newcomers (m.turned delta stage).shared.threads = [])
    (hgone : (m.tick delta stage).value.machine.shared.threads.newcomers (m.turned delta stage).shared.threads = ids) :
    Annals acceptable options library (m.tick delta stage).value.machine (ids.map .ended ++ log) := by
  have htick := h.tick delta stage
  rwa [events, begun, hbegun, gone, hgone, List.filterMap_nil, List.append_nil] at htick

theorem threads_putScript {buffer : Nat} {script : Script} (hm : m.putScript buffer script = some m') :
    m'.shared.threads = m.shared.threads :=
  congrArg Pool.threads (putScript_pool hm).1

theorem threads_loadScript {buffer : UInt64} {number : UInt32} {loaded : Bool}
    (hm : (m.loadScript buffer number).value = .ok (loaded, m')) : m'.shared.threads = m.shared.threads :=
  congrArg Pool.threads (loadScript_pool hm).1

theorem shared_of_loadScript {buffer : UInt64} {number : UInt32} {loaded : Bool}
    (hm : (m.loadScript buffer number).value = .ok (loaded, m')) :
    (m.shared.loadScript buffer.toInt64.toInt number.toInt32).value = .ok (loaded, m'.shared) := by
  have hvalue : (m.loadScript buffer number).value =
      (m.shared.loadScript buffer.toInt64.toInt number.toInt32).value.map
        fun p => (p.1, { m with shared := p.2 }) := rfl
  rw [hvalue] at hm
  cases hload : (m.shared.loadScript buffer.toInt64.toInt number.toInt32).value with
  | error e =>
    rw [hload] at hm
    cases hm
  | ok p =>
    rw [hload] at hm
    cases hm
    rfl

theorem shared_of_spawn {buffer : UInt64} {label : Int32} (hm : m.spawn buffer label = .ok (id, m')) :
    m.shared.spawn buffer.toInt64.toInt label = .ok (id, m'.shared) := by
  unfold Machine.spawn at hm
  cases hspawn : m.shared.spawn buffer.toInt64.toInt label with
  | error f =>
    rw [hspawn] at hm
    cases hm
  | ok r =>
    rw [hspawn] at hm
    cases hm
    rfl

theorem spawn_eq_ok_insert {buffer : UInt64} {label : Int32} (hm : m.spawn buffer label = .ok (id, m')) :
    ∃ thread, m.shared.threads.live < m.shared.options.maxThreads ∧ id = (m.shared.threads.insert thread).1 ∧
      m'.shared = { m.shared with threads := (m.shared.threads.insert thread).2 } :=
  Shared.spawn_eq_ok (shared_of_spawn hm)

/-- Whatever the scripts are, every machine has its annals. -/
theorem Reachable.exists_annals (h : Reachable options library m) :
    ∃ log, Annals (fun _ => True) options library m log := by
  induction h with
  | create => exact ⟨_, .create⟩
  | putScript buffer script _ hm ih =>
    obtain ⟨log, hlog⟩ := ih
    exact ⟨_, hlog.putScript buffer script trivial hm⟩
  | loadScript buffer id loaded _ hm ih =>
    obtain ⟨log, hlog⟩ := ih
    exact ⟨_, hlog.loadScript buffer id loaded hm⟩
  | @spawn m m' buffer label id h hm ih =>
    obtain ⟨log, hlog⟩ := ih
    obtain ⟨thread, hroom, hid, hshared⟩ := spawn_eq_ok_insert hm
    have hinsert := h.pending.wellFormed.insert (h.pending.room hroom) thread
    have hthread : m'.thread? id = some thread := by
      rw [thread?, hshared, Arena.get?_eq_some_iff, hid]
      exact (hinsert.tenant?_eq _).trans (if_pos rfl)
    exact ⟨_, hlog.spawn buffer label id hm hthread⟩
  | globals globals _ ih =>
    obtain ⟨log, hlog⟩ := ih
    exact ⟨_, hlog.globals globals⟩
  | tick delta stage _ ih =>
    obtain ⟨log, hlog⟩ := ih
    exact ⟨_, hlog.tick delta stage⟩

theorem applyAll_keeps {p : Machine → Prop} (h : ∀ m r, p m → p (m.applyRequest r).value) (hm : p m)
    (rs : List LifecycleRequest) : p (m.applyAll rs).value := by
  induction rs generalizing m with
  | nil => exact hm
  | cons r rs ih => exact ih (h m r hm)

theorem applyAll_eq {α : Type} (f : Machine → α) (h : ∀ m r, f (m.applyRequest r).value = f m) (m : Machine)
    (rs : List LifecycleRequest) : f (m.applyAll rs).value = f m :=
  applyAll_keeps (p := fun after => f after = f m) (fun before r hbefore => (h before r).trans hbefore) rfl rs

theorem standing?_applyRequest (m : Machine) (r : LifecycleRequest) :
    (m.applyRequest r).value.shared.threads.standing? = m.shared.threads.standing? := by
  have hhandle (handle : Int32) (action : String) (f : Thread → Thread) :
      (m.onHandle handle action f).value.shared.threads.standing? = m.shared.threads.standing? := by
    rcases m.onHandle_value handle action f with heq | ⟨id, thread, -, heq⟩
    · rw [heq]
    · rw [heq]
      exact Arena.standing?_put _ _ _
  cases r with
  | kill handle => exact hhandle _ _ _
  | pause handle => exact hhandle _ _ _
  | resume handle => exact hhandle _ _ _
  | spawn other =>
    show (if m.shared.threads.contains other then { m with order := m.order ++ [other] }
      else m).shared.threads.standing? = _
    split <;> rfl

theorem standing?_applyAll (m : Machine) (rs : List LifecycleRequest) :
    (m.applyAll rs).value.shared.threads.standing? = m.shared.threads.standing? :=
  applyAll_eq (fun m => m.shared.threads.standing?) standing?_applyRequest m rs

theorem sheds_reapFrom (threads : Arena Thread) (ids : List ThreadId) : threads.Sheds (reapFrom threads ids).2 := by
  induction ids generalizing threads with
  | nil => exact .refl threads
  | cons id ids ih =>
    rw [reapFrom]
    split
    · exact (threads.sheds_remove id).trans (ih _)
    · exact ih threads

section

variable {σ : Type} [Stage σ] {delta : Single} {stage : σ}

theorem tick_eq_error {halt : Halt} (herror : (m.tick delta stage).value.result = .error halt) :
    (m.tick delta stage).value.machine = m.turned delta stage := by
  have hturned : m.turned delta stage =
      { m with shared := (turns delta m.order ⟨m.shared, stage⟩).value.world.shared } :=
    congrArg (fun shared => ({ m with shared } : Machine)) (m.turned_shared delta stage)
  rw [hturned]
  rw [tick_value] at herror ⊢
  revert herror
  generalize (turns delta m.order ⟨m.shared, stage⟩).value = o
  obtain ⟨world, halt | counts⟩ := o
  · intro _
    rfl
  · intro herror
    cases herror

theorem sheds_tick (m : Machine) (delta : Single) (stage : σ) :
    (m.turned delta stage).shared.threads.Sheds (m.tick delta stage).value.machine.shared.threads := by
  cases hresult : (m.tick delta stage).value.result with
  | error halt =>
    rw [tick_eq_error hresult]
    exact .refl _
  | ok report =>
    rw [(tick_eq_ok hresult).1]
    have happly : (m.joined delta stage).shared.threads.standing? = (m.turned delta stage).shared.threads.standing? :=
      standing?_applyAll { m.turned delta stage with shared.requests := [] } _
    exact (Arena.sheds_of_standing? happly).trans (sheds_reapFrom _ _)

theorem place_ne_of_mem_begun {place : Nat} (hpending : m.Pending wanted m.shared.requests)
    (h : ∀ e ∈ m.begun delta stage, e.place ≠ place) :
    ∀ id ∈ m.shared.threads.newcomers (m.turned delta stage).shared.threads, id.index.toNat ≠ place := by
  intro id hid
  have hturned := hpending.turned delta stage
  obtain ⟨thread, hthread⟩ := hturned.exists_get? (hturned.wellFormed.mem_newcomers_iff.mp hid).1
  have hthere : (m.turned delta stage).thread? id = some thread := hthread
  refine h (.began id thread.script) (List.mem_filterMap.mpr ⟨id, hid, ?_⟩)
  rw [hthere]
  rfl

theorem logged_turned (hpending : m.Pending wanted m.shared.requests) (h : m.shared.threads.Logged log) :
    (m.turned delta stage).shared.threads.Logged (m.begun delta stage ++ log) := by
  have hwf := (hpending.turned delta stage).wellFormed
  have hgrows := (hpending.extends_turned delta stage).grows
  refine h.append ?_ ?_ ?_
  · refine List.pairwise_filterMap.mpr ((hwf.pairwise_index (Arena.newcomers_sublist _ _)).imp ?_)
    intro id other hne e he e' he' heq
    obtain ⟨thread, -, rfl⟩ := Option.map_eq_some_iff.mp he
    obtain ⟨thread', -, rfl⟩ := Option.map_eq_some_iff.mp he'
    exact hne (UInt32.toNat_inj.mp heq)
  · intro e he
    obtain ⟨id, hid, he⟩ := List.mem_filterMap.mp he
    obtain ⟨thread, -, rfl⟩ := Option.map_eq_some_iff.mp he
    exact hgrows.offer_of_mem hwf hid
  · intro place hplace
    exact hgrows.standing?_eq hwf (place_ne_of_mem_begun hpending hplace)

theorem logged_tick (hpending : m.Pending wanted m.shared.requests) (h : m.shared.threads.Logged log) :
    (m.tick delta stage).value.machine.shared.threads.Logged (m.events delta stage ++ log) := by
  have hwf := (hpending.turned delta stage).wellFormed
  have hsheds := m.sheds_tick delta stage
  rw [events, List.append_assoc]
  refine (logged_turned hpending h).append ?_ ?_ ?_
  · refine List.pairwise_map.mpr ((hwf.pairwise_index (Arena.newcomers_sublist _ _)).imp ?_)
    intro id other hne heq
    exact hne (UInt32.toNat_inj.mp heq)
  · intro e he
    obtain ⟨id, hid, rfl⟩ := List.mem_map.mp he
    exact hsheds.freed_of_mem hwf hid
  · intro place hplace
    refine hsheds.standing?_eq hwf fun id hid => hplace (.ended id) (List.mem_map_of_mem hid)

end

/-- The annals tell of every place what it is. -/
theorem Annals.logged (h : Annals acceptable options library m log) : m.shared.threads.Logged log := by
  induction h with
  | create =>
    rw [create_value]
    refine ⟨trivial, fun place => ?_⟩
    cases place <;> rfl
  | putScript buffer script _ _ hm ih =>
    rw [threads_putScript hm]
    exact ih
  | loadScript buffer id loaded _ hm ih =>
    rw [threads_loadScript hm]
    exact ih
  | spawn buffer label id h hm _ ih =>
    obtain ⟨thread, hroom, hid, hshared⟩ := spawn_eq_ok_insert hm
    have hpending := h.reachable.pending
    rw [hshared, hid]
    exact ih.lets (hpending.wellFormed.lets_insert (hpending.room hroom) thread) _
  | globals globals _ ih => exact ih
  | tick delta stage h ih => exact logged_tick h.reachable.pending ih

end NovelEngine.Machine
