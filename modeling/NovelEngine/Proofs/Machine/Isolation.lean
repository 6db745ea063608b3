import NovelEngine.Proofs.Machine.Turns

/-!
# Isolation of threads

Nothing but its own turn moves a thread or changes its calls, variables, result, script or buffer. The turns of others
leave it as it is, and what is done when the turns are over can only stop it, set it going, or remove it.
-/
namespace NovelEngine

/-- What of a thread requests have no part in. -/
def Thread.core (t : Thread) : Thread := { t with state := .running, paused := false }

theorem Thread.core_effect (r : LifecycleRequest) (t : Thread) : (r.effect t).core = t.core := by
  cases r <;> rfl

theorem Thread.eq_of_core_eq {t t' : Thread} (h : t'.core = t.core) :
    t' = { t with state := t'.state, paused := t'.paused } := by
  cases t
  cases t'
  simp_all [core]

namespace Machine

variable {σ : Type} [Stage σ] {m : Machine} {delta : Single} {stage : σ} {id other : ThreadId} {thread t : Thread}
  {world : World σ} {o : TurnOutcome σ} {wanted : Nat}

/-- At a boundary of some turn another thread is as the tick has found it, or as its own turn has left it. -/
theorem Boundary.get?_other (ho : m.Boundary delta stage id o) (h : m.Pending wanted m.shared.requests)
    (hne : other ≠ id) (hthread : m.thread? other = some t) :
    o.world.shared.threads.get? other = some t ∨ ∃ world o', m.Takes delta stage other world t o' ∧
      o.world.shared.threads.get? other = some o'.thread := by
  obtain @⟨before, rest, w, counts, thread, threads, executed, horder, hbefore, hlent, -, -, -⟩ := ho
  have hstart : World.Consistent ⟨m.shared, stage⟩ wanted m.order none := h
  have hw : w.Consistent wanted m.order none := h.consistent_turns hbefore
  have hrun {u : Thread} (hu : w.shared.threads.get? other = some u) :=
    get?_runFor id executed (thread.poll delta w.shared.globals (Stage.status w.stage)).2
      (lending_consistent hw hlent) ((get?_lending hlent hne).trans hu)
  rcases get?_turns_or delta before hstart hthread with
    hsame | ⟨earlier, between, w', counts', threads', rfl, hearlier, hown⟩
  · rw [hbefore] at hsame
    exact .inl (hrun hsame)
  · -- the other thread has had its turn, and those since have left it alone
    have hsplit : m.order = earlier ++ other :: (between ++ id :: rest) := by
      rw [horder, List.append_assoc, List.cons_append]
    have hbetween : other ∉ between := by
      intro hmem
      exact (h.not_mem_of_order hsplit).2 (List.mem_append_left _ hmem)
    have hleft := get?_turns_self delta (h.consistent_turns hearlier) hown hbetween
    rw [← world_turns_append delta hearlier, hbefore] at hleft
    exact .inr ⟨w', _, .intro hsplit hearlier hown, hrun hleft⟩

theorem Pending.tick_thread?_or (h : m.Pending wanted m.shared.requests) {report : TickReport}
    (hok : (m.tick delta stage).value.result = .ok report)
    (hthread : (m.turned delta stage).thread? id = some thread) :
    (m.tick delta stage).value.machine.thread? id = none ∨ ∃ state paused,
      (m.tick delta stage).value.machine.thread? id = some { thread with state, paused } := by
  rw [(tick_eq_ok hok).1]
  cases hleft : (m.joined delta stage).reap.thread? id with
  | none => exact .inl rfl
  | some t =>
    have hjoined := (h.turned delta stage).applyRequests.thread?_of_reap hleft
    have hcore : ((m.joined delta stage).thread? id).map Thread.core =
        ((m.turned delta stage).thread? id).map Thread.core :=
      map_applyAll Thread.core Thread.core_effect { m.turned delta stage with shared.requests := [] } _ id
    change (m.joined delta stage).thread? id = some t at hjoined
    rw [hjoined, hthread] at hcore
    have heq := Thread.eq_of_core_eq (Option.some_inj.mp hcore)
    exact .inr ⟨t.state, t.paused, congrArg some heq⟩

/-- How the threads of a tick are kept apart. -/
structure Isolates (m : Machine) (delta : Single) (stage : σ) : Prop where
  /-- A thread is the same from the start of the tick to its turn, and from there to the end of the turns. -/
  entry : ∀ id world thread o, m.Takes delta stage id world thread o → m.thread? id = some thread
  exit : ∀ id world thread o, m.Takes delta stage id world thread o →
    (m.turned delta stage).thread? id = some o.thread
  /-- A thread without a turn is the same all the time. -/
  untaken : ∀ id thread, m.thread? id = some thread → (∀ world o, ¬ m.Takes delta stage id world thread o) →
    (m.turned delta stage).thread? id = some thread
  others : ∀ id world thread o, m.Takes delta stage id world thread o → ∀ other t, other ≠ id →
    world.shared.threads.get? other = some t → (returned id o).threads.get? other = some t
  /-- In the middle of a turn as well, another thread is as it was or as its own turn has left it. -/
  within : ∀ id o, m.Boundary delta stage id o → ∀ other t, other ≠ id → m.thread? other = some t →
    o.world.shared.threads.get? other = some t ∨ ∃ world o', m.Takes delta stage other world t o' ∧
      o.world.shared.threads.get? other = some o'.thread
  /-- A turn puts the threads that it creates into vacant or new places and touches no other place but its own. -/
  arena : ∀ id world thread o, m.Takes delta stage id world thread o →
    ∃ news, world.shared.Begets id news (returned id o)
  /-- A halt leaves everything as the turns have left it. -/
  halted : ∀ halt, (m.tick delta stage).value.result = .error halt →
    (m.tick delta stage).value.machine = m.turned delta stage
  ended : ∀ report, (m.tick delta stage).value.result = .ok report → ∀ id thread,
    (m.turned delta stage).thread? id = some thread →
    (m.tick delta stage).value.machine.thread? id = none ∨ ∃ state paused,
      (m.tick delta stage).value.machine.thread? id = some { thread with state, paused }

variable {options : MachineOptions} {library : Option ScriptLibrary}

/-- In every tick of a reachable machine threads are kept apart, whether the tick halts or not. -/
theorem Reachable.isolates (h : Reachable options library m) (delta : Single) (stage : σ) :
    m.Isolates delta stage := by
  have hpending := h.pending
  constructor
  · intro id world thread o ho
    exact ho.thread? hpending
  · intro id world thread o ho
    exact ho.turned hpending
  · intro id thread hthread hnone
    apply (hpending.turned_or hthread).resolve_right
    rintro ⟨world, o, ho⟩
    exact hnone world o ho
  · intro id world thread o ho other t hne hget
    obtain ⟨threads, hlent, rfl⟩ := ho.exists_lent
    exact get?_back delta (ho.consistent hpending) hlent hne hget
  · intro id o ho other t hne hthread
    exact ho.get?_other hpending hne hthread
  · intro id world thread o ho
    obtain ⟨threads, hlent, rfl⟩ := ho.exists_lent
    exact begets_back delta (ho.consistent hpending) hlent
  · intro halt herror
    exact tick_eq_error herror
  · intro report hok id thread hthread
    exact hpending.tick_thread?_or hok hthread

/-- A thread starts another one and ends while a third one waits for its turn. The new one gets a place of its own. -/
theorem Reachable.isolates_create :
    let script := Script.build 1 [0, 8, 0x80, 0, 0x81, 0, 0, 0] [0, 6] []
    let start := (Machine.create {} none).value
    let loaded := (start.putScript 0 script).getD start
    let one := ((loaded.spawn 0 0).toOption.map Prod.snd).getD loaded
    let m := ((one.spawn 0 1).toOption.map Prod.snd).getD one
    Reachable {} none m ∧ m.Isolates Single.zero Recorder.empty ∧
      ∃ world thread o, m.Takes Single.zero Recorder.empty ⟨1, 0⟩ world thread o ∧ o.thread.isTerminated = true ∧
        ((returned ⟨1, 0⟩ o).threads.get? ⟨2, 0⟩).map Thread.pc = (m.thread? ⟨2, 0⟩).map Thread.pc ∧
        world.shared.threads.cellAt? 3 = none ∧ ((returned ⟨1, 0⟩ o).threads.get? ⟨3, 0⟩).isSome = true := by
  intro script start loaded one m
  have hloaded : Reachable {} none loaded := .putScript 0 script .create rfl
  have hone : Reachable {} none one := .spawn 0 0 ⟨1, 0⟩ hloaded rfl
  have hm : Reachable {} none m := .spawn 0 1 ⟨2, 0⟩ hone rfl
  have horder : m.order = [] ++ ⟨1, 0⟩ :: [⟨2, 0⟩] := by decide +kernel
  have hlent := (Option.some_get (show (m.shared.threads.checkout ⟨1, 0⟩).isSome = true by decide +kernel)).symm
  exact ⟨hm, hm.isolates Single.zero Recorder.empty, _, _, _, .intro horder rfl hlent, by decide +kernel,
    by decide +kernel, by rfl, by decide +kernel⟩

end Machine
end NovelEngine
