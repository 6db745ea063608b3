import NovelEngine.Proofs.Machine.States

/-!
# Where threads go on

A thread that is stopped has been stopped by the last instruction that it executed. Whatever is done until it runs
again, it goes on right behind that instruction, with the calls and variables that it had there. A thread that has ended
stays as it is until it is gone.
-/
namespace NovelEngine.Machine

variable {options : MachineOptions} {library : Option ScriptLibrary} {m m' first : Machine} {id : ThreadId}
  {t t₀ thread : Thread} {n : Nat}

/-- The first machine becomes the second one between two ticks. -/
inductive Hosts (m : Machine) : Machine → Prop
  | putScript {m' : Machine} (buffer : Nat) (script : Script) (hm : m.putScript buffer script = some m') : Hosts m m'
  | loadScript {m' : Machine} (buffer : UInt64) (number : UInt32) (loaded : Bool)
    (hm : (m.loadScript buffer number).value = .ok (loaded, m')) : Hosts m m'
  | spawn {m' : Machine} (buffer : UInt64) (label : Int32) (other : ThreadId)
    (hm : m.spawn buffer label = .ok (other, m')) : Hosts m m'
  | globals (globals : Globals) : Hosts m { m with shared.globals := globals }

theorem Hosts.reachable (h : m.Hosts m') (hm : Reachable options library m) : Reachable options library m' := by
  cases h with
  | putScript buffer script hput => exact hm.putScript buffer script hput
  | loadScript buffer number loaded hload => exact hm.loadScript buffer number loaded hload
  | spawn buffer label other hspawn => exact hm.spawn buffer label other hspawn
  | globals globals => exact hm.globals globals

theorem Hosts.thread?_or (h : m.Hosts m') (hm : Reachable options library m) (ht : m'.thread? id = some t) :
    m.thread? id = some t ∨ ∃ script buffer pc, t = Thread.start script buffer pc := by
  cases h with
  | putScript buffer script hput =>
    rw [thread?, threads_putScript hput] at ht
    exact .inl ht
  | loadScript buffer number loaded hload =>
    rw [thread?, threads_loadScript hload] at ht
    exact .inl ht
  | globals globals => exact .inl ht
  | spawn buffer label other hspawn =>
    have hborn := Shared.bears_spawn hm.pending (shared_of_spawn hspawn)
    rcases hborn id t ht with hold | ⟨-, -⟩
    · exact .inl hold
    · exact .inr ⟨_, _, _, rfl⟩

theorem Hosts.thread? (h : m.Hosts m') (hm : Reachable options library m) (ht : m.thread? id = some t) :
    m'.thread? id = some t := by
  cases h with
  | putScript buffer script hput => rwa [Machine.thread?, threads_putScript hput]
  | loadScript buffer number loaded hload => rwa [Machine.thread?, threads_loadScript hload]
  | globals globals => exact ht
  | spawn buffer label other hspawn =>
    obtain ⟨new, hroom, -, hshared⟩ := spawn_eq_ok_insert hspawn
    rw [Machine.thread?, hshared]
    exact (hm.pending.wellFormed.gains_insert (hm.pending.room hroom) new).get? ht

/-- From the first machine to the second one the thread stays there, and in so many ticks it comes to run. -/
inductive Lasts (id : ThreadId) (first : Machine) : Nat → Machine → Prop
  | refl (hthere : (first.thread? id).isSome = true) : Lasts id first 0 first
  | hosts {n : Nat} {m m' : Machine} (h : Lasts id first n m) (hm : m.Hosts m') : Lasts id first n m'
  | rests {n : Nat} {m : Machine} {σ : Type} [Stage σ] (delta : Single) (stage : σ) (h : Lasts id first n m)
    (hrest : ∀ b, ¬ m.Boundary delta stage id b)
    (hthere : ((m.tick delta stage).value.machine.thread? id).isSome = true) :
    Lasts id first n (m.tick delta stage).value.machine
  | runs {n : Nat} {m : Machine} {σ : Type} [Stage σ] (delta : Single) (stage : σ) {b : TurnOutcome σ}
    (h : Lasts id first n m) (hb : m.Boundary delta stage id b)
    (hthere : ((m.tick delta stage).value.machine.thread? id).isSome = true) :
    Lasts id first (n + 1) (m.tick delta stage).value.machine

theorem Lasts.reachable (h : Lasts id first n m) (hfirst : Reachable options library first) :
    Reachable options library m := by
  induction h with
  | refl hthere => exact hfirst
  | hosts _ hm ih => exact hm.reachable ih
  | rests delta stage _ _ _ ih => exact ih.tick delta stage
  | runs delta stage _ _ _ ih => exact ih.tick delta stage

theorem Lasts.there (h : Lasts id first n m) : (first.thread? id).isSome = true := by
  induction h with
  | refl hthere => exact hthere
  | hosts _ _ ih | rests _ _ _ _ _ ih | runs _ _ _ _ _ ih => exact ih

/-- While a thread does not come to run, nothing is changed of it but its state and pause. -/
theorem Lasts.core (h : Lasts id first n m) (hfirst : Reachable options library first) (hn : n = 0)
    (ht : first.thread? id = some t₀) : ∃ t, m.thread? id = some t ∧ t.core = t₀.core := by
  induction h with
  | refl hthere => exact ⟨t₀, ht, rfl⟩
  | hosts h hm ih =>
    obtain ⟨t, ht, hcore⟩ := ih hn
    exact ⟨t, hm.thread? (h.reachable hfirst) ht, hcore⟩
  | rests delta stage h hrest hthere ih =>
    obtain ⟨t, ht, hcore⟩ := ih hn
    have hpending := (h.reachable hfirst).pending
    obtain ⟨state, hlapse, hturned⟩ := hpending.turned_of_resting ht hrest
    obtain ⟨t', ht'⟩ := Option.isSome_iff_exists.mp hthere
    exact ⟨t', ht', (hpending.state_tick hturned ht').1.trans hcore⟩
  | runs delta stage h hb hthere ih => cases hn

section

variable {σ : Type} [Stage σ] {delta : Single} {stage : σ} {b : TurnOutcome σ} {wanted : Nat}

theorem Pending.not_boundary (h : m.Pending wanted m.shared.requests) (ht : m.thread? id = some t)
    (hblocked : ∀ globals status, t.Blocked globals status) : ¬ m.Boundary delta stage id b := by
  intro hb
  obtain ⟨world, thread, threads, o, executed, ho, -, hpaused, hpolled, -⟩ := hb.exists_takes
  cases ht.symm.trans (ho.thread? h)
  rw [(hblocked _ _).poll_eq hpaused] at hpolled
  cases hpolled

theorem Pending.thread?_of_terminated (h : m.Pending wanted m.shared.requests) (ht : m.thread? id = some t)
    (hstate : t.state = .terminated) (hthere : ((m.tick delta stage).value.machine.thread? id).isSome = true) :
    (m.tick delta stage).value.machine.thread? id = some t := by
  have hrest (b : TurnOutcome σ) : ¬ m.Boundary delta stage id b := h.not_boundary ht fun _ _ => .terminated hstate
  obtain ⟨state, hlapse, hturned⟩ := h.turned_of_resting ht hrest
  rw [hstate] at hlapse
  cases hlapse
  rw [Thread.with_state_eq hstate] at hturned
  obtain ⟨t', ht'⟩ := Option.isSome_iff_exists.mp hthere
  rcases h.tick_thread?_cases ht' with ⟨halt, herror, -⟩ | ⟨report, -, -, hunended⟩
  · rwa [tick_eq_error herror]
  · rcases (h.state_tick hturned ht').2 with hsame | ⟨hsuspended, -, -⟩
    · exact absurd (hsame.trans hstate) hunended
    · cases hstate.symm.trans hsuspended

end

theorem Lasts.terminated (h : Lasts id first n m) (hfirst : Reachable options library first)
    (ht : first.thread? id = some t) (hstate : t.state = .terminated) : n = 0 ∧ m.thread? id = some t := by
  induction h with
  | refl hthere => exact ⟨rfl, ht⟩
  | hosts h hm ih => exact ⟨ih.1, hm.thread? (h.reachable hfirst) ih.2⟩
  | rests delta stage h hrest hthere ih =>
    exact ⟨ih.1, (h.reachable hfirst).pending.thread?_of_terminated ih.2 hstate hthere⟩
  | runs delta stage h hb hthere ih =>
    have hpending := (h.reachable hfirst).pending
    exact absurd hb (hpending.not_boundary ih.2 fun _ _ => .terminated hstate)

/-- An instruction has stopped the thread in the turn of a former tick, and the thread has not come to run since. -/
inductive Stopped (options : MachineOptions) (library : Option ScriptLibrary) (m : Machine) (id : ThreadId)
    (t : Thread) : Prop
  | intro {first : Machine} {σ : Type} [Stage σ] {delta : Single} {stage : σ} {world : World σ} {thread : Thread}
    {o : TurnOutcome σ} (hfirst : Reachable options library first)
    (ho : first.Takes delta stage id world thread o) (hstops : first.StopsIn delta stage id o)
    (hlasts : Lasts id (first.tick delta stage).value.machine 0 m) (hcore : t.core = o.thread.core)
    (hlapse : o.thread.state.Lapses t.state) : Stopped options library m id t

theorem Stopped.hosts (h : Stopped options library m id t) (hm : m.Hosts m') : Stopped options library m' id t := by
  obtain ⟨hfirst, ho, hstops, hlasts, hcore, hlapse⟩ := h
  exact .intro hfirst ho hstops (hlasts.hosts hm) hcore hlapse

/-- Every stopped thread has been stopped by an instruction. -/
theorem Reachable.stopped (h : Reachable options library m) (ht : m.thread? id = some t)
    (hstopped : t.state.isStopped = true) : Stopped options library m id t := by
  have hhosts {m m' : Machine} {t : Thread} (hm : Reachable options library m) (hhosts : m.Hosts m')
      (ih : ∀ {t}, m.thread? id = some t → t.state.isStopped = true → Stopped options library m id t)
      (ht : m'.thread? id = some t) (hstopped : t.state.isStopped = true) : Stopped options library m' id t := by
    rcases hhosts.thread?_or hm ht with hold | ⟨script, buffer, pc, rfl⟩
    · exact (ih hold hstopped).hosts hhosts
    · cases hstopped
  induction h generalizing t with
  | create =>
    rw [create_value, thread?, Arena.get?_eq, Arena.tenant?_empty] at ht
    cases ht
  | putScript buffer script h hm ih => exact hhosts h (.putScript buffer script hm) ih ht hstopped
  | loadScript buffer number loaded h hm ih => exact hhosts h (.loadScript buffer number loaded hm) ih ht hstopped
  | spawn buffer label other h hm ih => exact hhosts h (.spawn buffer label other hm) ih ht hstopped
  | globals globals h ih => exact hhosts h (.globals globals) ih ht hstopped
  | tick delta stage h ih =>
    have hthere := Option.isSome_iff_exists.mpr ⟨t, ht⟩
    rcases h.pending.stopped_cases ht hstopped with ⟨t₀, ht₀, hcore, hlapse, hrest⟩ |
      ⟨world, thread, o, ho, hstops, hcore, hstate⟩
    · rw [hlapse.isStopped_eq] at hstopped
      obtain ⟨hfirst, ho, hstops, hlasts, hcore₀, hlapse₀⟩ := ih ht₀ hstopped
      exact .intro hfirst ho hstops (hlasts.rests delta stage hrest hthere) (hcore.trans hcore₀)
        (hlapse₀.trans hlapse)
    · exact .intro h ho hstops (.refl hthere) hcore (hstate ▸ .refl _)

theorem Stopped.wakeable (h : Stopped options library m id t) : t.Wakeable := by
  intro flag hstate
  obtain @⟨first, σ, _, delta, stage, world, thread, o, -, -, ⟨b, -, -, hstops, hthread⟩, -, -, hlapse⟩ := h
  obtain ⟨opcode, operands, -, hoperands, -, -⟩ := hstops.behind
  rw [hstate] at hlapse
  rw [← hthread, hlapse.eq_signal] at hoperands
  generalize instructionAt b.thread b.world = i at hoperands
  cases hoperands with
  | signalWait index hflag => exact Globals.lt_of_flag hflag

theorem Reachable.wakeable (h : Reachable options library m) (ht : m.thread? id = some t) : t.Wakeable := by
  intro flag hstate
  have hstopped : t.state.isStopped = true := by rw [hstate]; rfl
  exact (h.stopped ht hstopped).wakeable flag hstate

section

variable {σ : Type} [Stage σ] {delta : Single} {stage : σ}

structure MovesStates (m : Machine) (delta : Single) (stage : σ) : Prop where
  /-- A thread has one turn in the tick at most. -/
  once : ∀ id world thread o world' thread' o', m.Takes delta stage id world thread o →
    m.Takes delta stage id world' thread' o' → world' = world ∧ thread' = thread ∧ o' = o
  /-- A thread that cannot run at its turn executes nothing, and the turn changes nothing at all. -/
  blocked : ∀ id world thread o, m.Takes delta stage id world thread o →
    thread.Blocked world.shared.globals (Stage.status world.stage) →
    o.thread = thread ∧ o.executed = 0 ∧ o.faulted = 0 ∧ o.halt = none ∧ o.back id = world ∧
      ∀ b, ¬ m.Boundary delta stage id b
  /-- A thread that waits comes to run at its turn exactly if it is not paused and its condition is met. If it does not,
  then nothing but time passes for it. -/
  waiting : ∀ id world thread o condition, m.Takes delta stage id world thread o →
    thread.state = .waiting condition →
    ((∃ b, m.Boundary delta stage id b) ↔
      thread.paused = false ∧ condition.Met delta world.shared.globals (Stage.status world.stage)) ∧
    m.Fares delta stage id world thread o
  /-- A turn is over as soon as its thread does not run. -/
  settles : ∀ id world thread o b, m.Takes delta stage id world thread o → m.Boundary delta stage id b →
    b.thread.state ≠ .running → b = o
  stops : ∀ id world thread o b, m.Takes delta stage id world thread o → m.Boundary delta stage id b →
    o.thread.state.isStopped = true → m.StopsIn delta stage id o
  /-- In the turns of others a thread is as the tick has found it or as its own turn has left it. -/
  elsewhere : ∀ id b, m.Boundary delta stage id b → ∀ other t, other ≠ id → m.thread? other = some t →
    b.world.shared.threads.get? other = some t ∨ ∃ world o, m.Takes delta stage other world t o ∧
      b.world.shared.threads.get? other = some o.thread
  /-- Each request does to states what it is for. -/
  served : ∀ r asked, r :: asked <:+ (m.turned delta stage).shared.requests → ∀ id t,
    ((m.turned delta stage).serving asked).thread? id = some t →
    ∃ t', (((m.turned delta stage).serving asked).applyRequest r).value.thread? id = some t' ∧ t'.core = t.core ∧
      r.Moves ((m.turned delta stage).serving asked).shared.threads id t.state t'.state
  suspended : ∀ id t, m.thread? id = some t → t.state = .suspended → (m.turned delta stage).thread? id = some t
  /-- A thread that was suspended when the turns were over and is not any more when the tick is has been resumed. -/
  resumed : ∀ id u t, (m.turned delta stage).thread? id = some u → u.state = .suspended →
    (m.tick delta stage).value.machine.thread? id = some t → t.state ≠ .suspended →
    t.state = .running ∧ (∃ report, (m.tick delta stage).value.result = .ok report) ∧ m.Resumes delta stage id
  /-- A thread that waited before the tick and runs after it has had its turn, in which its condition was met. -/
  woken : ∀ id t₀ condition t, m.thread? id = some t₀ → t₀.state = .waiting condition →
    (m.tick delta stage).value.machine.thread? id = some t → t.state = .running →
    ∃ world o, m.Takes delta stage id world t₀ o ∧ t₀.paused = false ∧
      condition.Met delta world.shared.globals (Stage.status world.stage)

theorem Takes.blocked {world : World σ} {o : TurnOutcome σ} (ho : m.Takes delta stage id world thread o)
    (h : Reachable options library m) (hblocked : thread.Blocked world.shared.globals (Stage.status world.stage)) :
    o.thread = thread ∧ o.executed = 0 ∧ o.faulted = 0 ∧ o.halt = none ∧ o.back id = world ∧
      ∀ b, ¬ m.Boundary delta stage id b := by
  have hnone (b : TurnOutcome σ) : ¬ m.Boundary delta stage id b := by
    intro hb
    obtain ⟨hpaused, hpolled⟩ := (ho.exists_boundary_iff h.pending).mp ⟨b, hb⟩
    rw [hblocked.poll_eq hpaused] at hpolled
    cases hpolled
  obtain ⟨threads, hlent, rfl⟩ := ho.exists_lent
  have hturn : (turn delta id thread (world.lending threads)).value = ⟨thread, world.lending threads, 0, 0, none⟩ :=
    turn_of_blocked delta id hblocked
  have hcheckin : threads.checkin id thread = world.shared.threads := Arena.checkin_of_checkout hlent
  rw [hturn]
  refine ⟨rfl, rfl, rfl, rfl, ?_, hnone⟩
  show ({ world with shared.threads := threads.checkin id thread } : World σ) = world
  rw [hcheckin]

/-- A thread that runs after a tick before which it waited has had its turn, in which its condition was met. -/
theorem Reachable.woken {condition : WaitCondition} (h : Reachable options library m) (ht₀ : m.thread? id = some t₀)
    (hwaiting : t₀.state = .waiting condition) (ht : (m.tick delta stage).value.machine.thread? id = some t)
    (hrunning : t.state = .running) : ∃ world o, m.Takes delta stage id world t₀ o ∧ t₀.paused = false ∧
      condition.Met delta world.shared.globals (Stage.status world.stage) := by
  rcases h.pending.rests_or ht₀ delta stage with ⟨-, state, hlapse, hturned⟩ | ⟨world, o, b, ho, hb⟩
  · rw [hwaiting] at hlapse
    rcases (h.pending.state_tick hturned ht).2 with hsame | ⟨hsuspended, -, -⟩
    · rw [hrunning] at hsame
      cases hsame
      cases hlapse
    · cases hsuspended
      cases hlapse
  · obtain ⟨hpaused, hpolled⟩ := (ho.exists_boundary_iff h.pending).mp ⟨b, hb⟩
    exact ⟨world, o, ho, hpaused, (Thread.poll_eq_true_iff hwaiting (h.wakeable ht₀)).mp hpolled⟩

theorem Reachable.movesStates (h : Reachable options library m) (delta : Single) (stage : σ) :
    m.MovesStates delta stage := by
  have hpending := h.pending
  constructor
  · intro id world thread o world' thread' o' ho ho'
    exact ho.unique ho' hpending
  · intro id world thread o ho hblocked
    exact ho.blocked h hblocked
  · intro id world thread o condition ho hwaiting
    have hwakeable := h.wakeable (ho.thread? hpending)
    refine ⟨?_, ho.fares hpending⟩
    rw [ho.exists_boundary_iff hpending, Thread.poll_eq_true_iff hwaiting hwakeable]
  · intro id world thread o b ho hb hstate
    exact ho.eq_of_boundary hpending hb hstate
  · intro id world thread o b ho hb hstopped
    exact ho.stopsIn hpending hb hstopped
  · intro id b hb other t hne ht
    exact hb.get?_other hpending hne ht
  · intro r asked _ id t ht
    exact moves_applyRequest r ht
  · intro id t ht hstate
    have hrest (b : TurnOutcome σ) : ¬ m.Boundary delta stage id b :=
      hpending.not_boundary ht fun _ _ => .suspended hstate
    obtain ⟨state, hlapse, hturned⟩ := hpending.turned_of_resting ht hrest
    rw [hstate] at hlapse
    cases hlapse
    rwa [Thread.with_state_eq hstate] at hturned
  · intro id u t hu hsuspended ht hstate
    rcases (hpending.state_tick hu ht).2 with hsame | ⟨-, hrunning, hok, hresumes⟩
    · exact absurd (hsame.trans hsuspended) hstate
    · exact ⟨hrunning, hok, hresumes⟩
  · intro id t₀ condition t ht₀ hwaiting ht hrunning
    exact h.woken ht₀ hwaiting ht hrunning

/-- Whenever the thread runs from here on, it starts as this thread, with some result. -/
def StartsFrom (m : Machine) (id : ThreadId) (thread : Thread) : Prop :=
  ∀ (σ : Type) [Stage σ] (delta : Single) (stage : σ) (b : TurnOutcome σ), m.Boundary delta stage id b →
    ∃ executed result world,
      b = (runFor id executed { thread with state := .running, paused := false, result } world).value

theorem Reachable.startsFrom (h : Reachable options library m) (ht : m.thread? id = some t)
    (hcore : t.core = thread.core) : m.StartsFrom id thread := by
  intro σ _ delta stage b hb
  obtain ⟨world, t', threads, o, executed, ho, -, hpaused, hpolled, -, rfl⟩ := hb.exists_takes
  cases ht.symm.trans (ho.thread? h.pending)
  have hpoll := t.polled_poll delta world.shared.globals (Stage.status world.stage)
  revert hpolled hpoll
  generalize t.poll delta world.shared.globals (Stage.status world.stage) = r
  intro hpolled hpoll
  cases hpoll with
  | runs result hstate =>
    refine ⟨executed, result, world.lending threads, ?_⟩
    have hthread : { t with state := .running, result } =
        { thread with state := .running, paused := false, result } := by
      rw [Thread.eq_of_core_eq hcore, hpaused]
    rw [hthread]
  | rests hlapse hstate => cases hpolled

end

/-- How threads change their states, and where they go on. -/
structure KeepsStates (options : MachineOptions) (library : Option ScriptLibrary) (m : Machine) : Prop where
  moves : ∀ (σ : Type) [Stage σ] (delta : Single) (stage : σ), m.MovesStates delta stage
  calm : ∀ m', m.Hosts m' → ∀ id t, m.thread? id = some t → m'.thread? id = some t
  /-- A thread that has ended does not come to run and is not changed, as long as it is there. -/
  terminated : ∀ id t, m.thread? id = some t → t.state = .terminated → ∀ n m', Lasts id m n m' →
    n = 0 ∧ m'.thread? id = some t
  /-- A thread that waits or is suspended has been stopped by the instruction that it stands behind. -/
  stopped : ∀ id t, m.thread? id = some t → t.state.isStopped = true → Stopped options library m id t
  /-- A thread that an instruction has stopped goes on from there, as it was there. -/
  resumes : ∀ (σ : Type) [Stage σ] (delta : Single) (stage : σ) (id : ThreadId) (world : World σ) (thread : Thread)
    (o : TurnOutcome σ), m.Takes delta stage id world thread o → m.StopsIn delta stage id o →
    ∀ m', Lasts id (m.tick delta stage).value.machine 0 m' →
      (∃ t, m'.thread? id = some t ∧ t.core = o.thread.core) ∧ m'.StartsFrom id o.thread

theorem Reachable.keepsStates (h : Reachable options library m) : m.KeepsStates options library := by
  constructor
  · intro σ _ delta stage
    exact h.movesStates delta stage
  · intro m' hhosts id t ht
    exact hhosts.thread? h ht
  · intro id t ht hstate n m' hlasts
    exact hlasts.terminated h ht hstate
  · intro id t ht hstopped
    exact h.stopped ht hstopped
  · intro σ _ delta stage id world thread o ho _ m' hlasts
    have htick : Reachable options library (m.tick delta stage).value.machine := h.tick delta stage
    obtain ⟨t₀, ht₀⟩ := Option.isSome_iff_exists.mp hlasts.there
    have hcore₀ := (h.pending.state_tick (ho.turned h.pending) ht₀).1
    obtain ⟨t, ht, hcore⟩ := hlasts.core htick rfl ht₀
    have hsame : t.core = o.thread.core := hcore.trans hcore₀
    exact ⟨⟨t, ht, hsame⟩, (hlasts.reachable htick).startsFrom ht hsame⟩

/-- A thread is suspended and another one resumes it in the same tick. It is to go on behind the instruction. -/
theorem Reachable.keepsStates_resume :
    let script := Script.build 1 [0, 12, 0, 0, 0, 11, 0x81, 0, 0, 0] [0, 4] []
    let start := (Machine.create {} none).value
    let loaded := (start.putScript 0 script).getD start
    let one := ((loaded.spawn 0 0).toOption.map Prod.snd).getD loaded
    let m := ((one.spawn 0 1).toOption.map Prod.snd).getD one
    let after := (m.tick Single.zero Recorder.empty).value.machine
    Reachable {} none m ∧ m.KeepsStates {} none ∧ after.KeepsStates {} none ∧
      m.Resumes Single.zero Recorder.empty ⟨1, 0⟩ ∧
      ((m.turned Single.zero Recorder.empty).thread? ⟨1, 0⟩).map Thread.state = some .suspended ∧
      (after.thread? ⟨1, 0⟩).map Thread.state = some .running ∧
      (m.thread? ⟨1, 0⟩).map Thread.pc = some 20 ∧ (after.thread? ⟨1, 0⟩).map Thread.pc = some 22 := by
  intro script start loaded one m after
  have hloaded : Reachable {} none loaded := .putScript 0 script .create rfl
  have hone : Reachable {} none one := .spawn 0 0 ⟨1, 0⟩ hloaded rfl
  have hm : Reachable {} none m := .spawn 0 1 ⟨2, 0⟩ hone rfl
  have hafter : Reachable {} none after := hm.tick Single.zero Recorder.empty
  have hu := (Option.some_get
    (show ((m.turned Single.zero Recorder.empty).thread? ⟨1, 0⟩).isSome = true by decide +kernel)).symm
  have ht := (Option.some_get (show (after.thread? ⟨1, 0⟩).isSome = true by decide +kernel)).symm
  have hresumes := ((hm.keepsStates.moves Recorder Single.zero Recorder.empty).resumed ⟨1, 0⟩ _ _ hu (by decide +kernel)
    ht (by decide +kernel)).2.2
  exact ⟨hm, hm.keepsStates, hafter.keepsStates, hresumes, by decide +kernel, by decide +kernel, by decide +kernel,
    by decide +kernel⟩

end NovelEngine.Machine
