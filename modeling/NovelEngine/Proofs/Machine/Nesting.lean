import NovelEngine.Proofs.Machine.Resumption
import NovelEngine.Proofs.Machine.Returns
import NovelEngine.Proofs.Script.Building

/-!
# Calls and returns of a thread

Between any two instructions of a thread its frames are those of its calls without a return. This outlasts the turns,
and whatever is done between them, as long as no tick fails.
-/
namespace NovelEngine

variable {σ : Type} [Stage σ] {id : ThreadId} {budget n : Nat} {thread : Thread} {world : World σ} {v : Visit σ}
  {history : List CallEvent}

/-- How an instruction fares with the call stack that the history behind it has left. -/
structure Visit.Nests (v : Visit σ) (id : ThreadId) (history : List CallEvent) : Prop where
  before : v.thread.calls.Nests history
  after : (∀ halt, (v.outcome id).ending ≠ .halted halt) →
    (v.outcome id).thread.calls.Nests (history ++ [v.callEvent id])
  call : instructionAt v.thread v.world = .call → ∀ flow, (v.outcome id).ending = .went flow →
    v.thread.calls.depth < callStackDepth ∧ ∃ target, v.callEvent id = .called target ∧ v.ReturnsTo target
  /-- A return goes to the target of its call, and it has one. -/
  ret : instructionAt v.thread v.world = .ret → ∀ flow, (v.outcome id).ending = .went flow →
    v.callEvent id = .returned ∧
    (∃ earlier target body, history = earlier ++ .called target :: body ∧ CallEvent.Balanced body) ∧
    ∀ earlier target body, history = earlier ++ .called target :: body → CallEvent.Balanced body →
      (v.outcome id).thread.pc = target
  other : instructionAt v.thread v.world ≠ .call → instructionAt v.thread v.world ≠ .ret →
    v.callEvent id = .other ∧ (v.outcome id).thread.calls = v.thread.calls
  faulted : (v.outcome id).ending = .faulted ↔ v.fault?.isSome = true
  overflow : ∀ depth, v.fault? = some (.callStackOverflow depth) ↔ instructionAt v.thread v.world = .call ∧
    v.target?.isSome = true ∧ v.thread.calls.depth = callStackDepth ∧ depth = callStackDepth
  underflow : v.fault? = some .callStackUnderflow ↔
    instructionAt v.thread v.world = .ret ∧ v.thread.calls.depth = 0

theorem Visit.nests (h : v.thread.calls.Nests history) (hparsed : v.thread.script.Parsed) : v.Nests id history := by
  constructor
  · exact h
  · exact fun hsound => h.acts (v.acts hparsed hsound)
  · intro hcall flow hwent
    obtain ⟨target, hevent, hreturns, hroom, -⟩ := called_of_went hcall hwent
    exact ⟨hroom, target, hevent, hreturns⟩
  · intro hret flow hwent
    obtain ⟨frame, frames, hevent, hcalls, -, hpc⟩ := returned_of_went hret hwent
    rw [hcalls] at h
    obtain ⟨earlier, body, hhistory, hbody, -⟩ := h.exists_call
    refine ⟨hevent, ⟨earlier, frame.toNat, body, hhistory, hbody⟩, ?_⟩
    intro earlier' target' body' hhistory' hbody'
    rw [hpc]
    exact (CallEvent.call_unique hbody hbody' (hhistory.symm.trans hhistory')).2.1
  · intro hcall hret
    obtain ⟨hcalls, hevent⟩ := calls_of_other id hcall hret
    exact ⟨hevent, hcalls⟩
  · exact faulted_iff
  · intro depth
    rw [overflow_iff, show callStackDepth ≤ v.thread.calls.depth ↔ v.thread.calls.depth = callStackDepth from
      ⟨fun hfull => Nat.le_antisymm h.depth_le hfull, fun hfull => hfull.ge⟩]
  · exact underflow_iff

theorem script_runFor (id : ThreadId) (budget : Nat) (thread : Thread) (world : World σ) :
    (runFor id budget thread world).value.thread.script = thread.script := by
  induction budget generalizing thread world with
  | zero => rfl
  | succ budget ih =>
    by_cases hend : thread.script.codeEnd ≤ thread.pc
    · rw [runFor_codeEnd hend]
      rfl
    by_cases hnext : (step id thread world).value.ending = .went .next
    · rw [runFor_next hend hnext]
      exact (ih _ _).trans (stays_step id thread world).script_eq
    · rw [runFor_last hend hnext, StepOutcome.thread_last]
      exact (stays_step id thread world).script_eq

theorem visits_eq_take (hle : n ≤ budget) : visits id n thread world = (visits id budget thread world).take n := by
  induction n generalizing budget thread world with
  | zero => rfl
  | succ n ih =>
    obtain ⟨budget, rfl⟩ : ∃ rest, budget = rest + 1 := ⟨budget - 1, by omega⟩
    by_cases hend : thread.script.codeEnd ≤ thread.pc
    · rw [visits_codeEnd _ hend, visits_codeEnd _ hend, List.take_nil]
    by_cases hnext : (step id thread world).value.ending = .went .next
    · rw [visits_next n hend hnext, visits_next budget hend hnext, List.take_succ_cons,
        ih (Nat.le_of_succ_le_succ hle)]
    · rw [visits_last n hend hnext, visits_last budget hend hnext, List.take_succ_cons, List.take_nil]

/-- A run that does not fail leaves the frames of the calls without a return. -/
theorem nests_runFor (h : thread.calls.Nests history) (hparsed : thread.script.Parsed)
    (hhalt : (runFor id budget thread world).value.halt = none) :
    (runFor id budget thread world).value.thread.calls.Nests
      (history ++ (visits id budget thread world).map fun v => v.callEvent id) := by
  induction budget generalizing history thread world with
  | zero =>
    rw [visits, List.map_nil, List.append_nil]
    exact h
  | succ budget ih =>
    by_cases hend : thread.script.codeEnd ≤ thread.pc
    · rw [runFor_codeEnd hend, visits_codeEnd _ hend, List.map_nil, List.append_nil]
      exact h
    let v : Visit σ := ⟨thread, world⟩
    by_cases hnext : (step id thread world).value.ending = .went .next
    · rw [runFor_next hend hnext] at hhalt ⊢
      have hsound (halt : Halt) : (v.outcome id).ending ≠ .halted halt := by
        intro hhalted
        cases hnext.symm.trans hhalted
      have hparsed' : (v.outcome id).thread.script.Parsed := (stays_step id thread world).script_eq.symm ▸ hparsed
      have hrest := ih (h.acts (v.acts hparsed hsound)) hparsed' hhalt
      rw [List.append_assoc] at hrest
      rw [visits_next budget hend hnext]
      exact hrest
    · rw [runFor_last hend hnext] at hhalt ⊢
      have hsound (halt : Halt) : (v.outcome id).ending ≠ .halted halt := by
        intro hhalted
        have hhalted : (step id thread world).value.ending = .halted halt := hhalted
        rw [StepOutcome.last, hhalted] at hhalt
        cases hhalt
      rw [visits_last budget hend hnext, StepOutcome.thread_last]
      exact h.acts (v.acts hparsed hsound)

theorem nests_turn {delta : Single} (h : thread.calls.Nests history) (hparsed : thread.script.Parsed)
    (hhalt : (turn delta id thread world).value.halt = none) :
    (turn delta id thread world).value.thread.calls.Nests
      (history ++ (turnVisits delta id thread world).map fun v => v.callEvent id) := by
  rcases turn_cases delta id thread world with ⟨state, hturn, hvisits⟩ | ⟨result, hturn, hvisits⟩
  · rw [hturn, hvisits, List.map_nil, List.append_nil]
    exact h
  · rw [hturn] at hhalt ⊢
    rw [hvisits]
    exact nests_runFor h hparsed hhalt

theorem script_turn (delta : Single) (id : ThreadId) (thread : Thread) (world : World σ) :
    (turn delta id thread world).value.thread.script = thread.script := by
  rcases turn_cases delta id thread world with ⟨state, hturn, -⟩ | ⟨result, hturn, -⟩
  · rw [hturn]
  · rw [hturn]
    exact script_runFor id _ _ world

omit [Stage σ] in
theorem Thread.calls_of_core {t t' : Thread} (h : t'.core = t.core) : t'.script = t.script ∧ t'.calls = t.calls := by
  have hscript : t'.core.script = t.core.script := congrArg Thread.script h
  have hcalls : t'.core.calls = t.core.calls := congrArg Thread.calls h
  exact ⟨hscript, hcalls⟩

namespace Machine

variable {options : MachineOptions} {library : Option ScriptLibrary} {m m' : Machine} {delta : Single} {stage : σ}
  {t : Thread} {o : TurnOutcome σ} {wanted : Nat}

theorem Takes.halt_eq_none {report : TickReport} (ho : m.Takes delta stage id world thread o)
    (hok : (m.tick delta stage).value.result = .ok report) : o.halt = none := by
  obtain @⟨before, rest, world, counts, thread, threads, horder, hbefore, hlent⟩ := ho
  have hplain (ids : List ThreadId) (world : World σ) :
      turnsBy .plain delta ids world = (turns delta ids world).value := turnsBy_of_plain (fun _ _ => rfl) world
  have hturns := turnsBy_append ((hplain _ _).trans hbefore) (id :: rest)
  rw [hplain, hplain, ← horder] at hturns
  rw [tick_eq_concluding, hturns] at hok
  cases hrest : (turns delta (id :: rest) world).value with
  | mk w' result =>
    rw [hrest] at hok
    cases result with
    | error halt => cases hok
    | ok counts' => exact (exists_rest_of_turns hlent hrest).1

theorem Runs.exists_eq {found : Thread} {threads : Arena Thread}
    (h : m.Runs delta stage id world found threads thread o) :
    ∃ result, thread = { found with state := .running, result } := by
  have hpolled := found.polled_poll delta world.shared.globals (Stage.status world.stage)
  rw [h.polled] at hpolled
  cases hpolled with
  | runs result hstate => exact ⟨result, rfl⟩

/-- Before any instruction of a tick the frames are those of the calls without a return. -/
theorem Pending.nests_visits (h : m.Pending wanted m.shared.requests) (ht : m.thread? id = some t)
    (hparsed : t.script.Parsed) (hnests : t.calls.Nests history) (hv : (m.visits delta stage id)[n]? = some v) :
    v.Nests id (history ++ ((m.visits delta stage id).take n).map fun v => v.callEvent id) := by
  obtain ⟨world, found, threads, thread, o, hruns, hreached⟩ := h.exists_reached hv
  cases ht.symm.trans (hruns.takes.thread? h)
  obtain ⟨result, rfl⟩ := hruns.exists_eq
  have hboundary := hreached.boundary
  have hscript := script_runFor id n { t with state := .running, result } (world.lending threads)
  rw [hboundary] at hscript
  rw [hruns.visits_eq, ← visits_eq_take hreached.lt.le]
  refine Visit.nests ?_ (hscript ▸ hparsed)
  have hrun : (runFor id n { t with state := .running, result } (world.lending threads)).value.thread.calls.Nests _ :=
    nests_runFor hnests hparsed (by rw [hboundary])
  rw [hboundary] at hrun
  exact hrun

theorem Takes.nests (ho : m.Takes delta stage id world t o) (h : m.Pending wanted m.shared.requests)
    (hhalt : o.halt = none) (hparsed : t.script.Parsed) (hnests : t.calls.Nests history) :
    o.thread.calls.Nests (history ++ (m.visits delta stage id).map fun v => v.callEvent id) := by
  obtain ⟨threads, -, rfl, hvisits⟩ := ho.exists_visits h
  rw [hvisits]
  exact nests_turn hnests hparsed hhalt

theorem Takes.script_eq (ho : m.Takes delta stage id world t o) : o.thread.script = t.script := by
  obtain ⟨-, -, -⟩ := ho
  exact script_turn delta id t _

theorem Pending.script_tick {t' : Thread} (h : m.Pending wanted m.shared.requests) (ht : m.thread? id = some t)
    (ht' : (m.tick delta stage).value.machine.thread? id = some t') : t'.script = t.script := by
  have hturned : (m.turned delta stage).thread? id = some t ∨ ∃ world o, m.Takes delta stage id world t o :=
    h.turned_or ht
  rcases hturned with hsame | ⟨world, o, ho⟩
  · exact (Thread.calls_of_core (h.state_tick hsame ht').1).1
  · exact (Thread.calls_of_core (h.state_tick (ho.turned h) ht').1).1.trans ho.script_eq

theorem visits_eq_nil (h : ∀ world thread o, ¬ m.Takes delta stage id world thread o) :
    m.visits delta stage id = [] := by
  refine List.eq_nil_iff_forall_not_mem.mpr ?_
  intro v hv
  obtain ⟨world, thread, o, ho⟩ := exists_takes_of_visits hv
  exact h world thread o ho

theorem Pending.nests_tick {report : TickReport} {t' : Thread} (h : m.Pending wanted m.shared.requests)
    (hok : (m.tick delta stage).value.result = .ok report) (ht : m.thread? id = some t)
    (ht' : (m.tick delta stage).value.machine.thread? id = some t') (hparsed : t.script.Parsed)
    (hnests : t.calls.Nests history) :
    t'.calls.Nests (history ++ (m.visits delta stage id).map fun v => v.callEvent id) := by
  have hturned : (m.turned delta stage).thread? id = some t ∨ ∃ world o, m.Takes delta stage id world t o :=
    h.turned_or ht
  by_cases htakes : ∃ world o, m.Takes delta stage id world t o
  · obtain ⟨world, o, ho⟩ := htakes
    rw [(Thread.calls_of_core (h.state_tick (ho.turned h) ht').1).2]
    exact ho.nests h (ho.halt_eq_none hok) hparsed hnests
  · have hnone : m.visits delta stage id = [] := by
      refine visits_eq_nil fun world thread o ho => ?_
      cases ht.symm.trans (ho.thread? h)
      exact htakes ⟨world, o, ho⟩
    rw [(Thread.calls_of_core (h.state_tick (hturned.resolve_right htakes) ht').1).2, hnone, List.map_nil,
      List.append_nil]
    exact hnests

/-- The machine has come about without a failed tick, and these are the events of a thread since it came to be. While
the thread is not there, there are none. -/
inductive Recalls (options : MachineOptions) (library : Option ScriptLibrary) (id : ThreadId) :
    Machine → List CallEvent → Prop
  | create : Recalls options library id (create options library).value []
  | hosts {m m' : Machine} {history : List CallEvent} (h : Recalls options library id m history) (hm : m.Hosts m') :
    Recalls options library id m' history
  | stays {m : Machine} {history : List CallEvent} {σ : Type} [Stage σ] (delta : Single) (stage : σ)
    (report : TickReport) (h : Recalls options library id m history)
    (hok : (m.tick delta stage).value.result = .ok report)
    (hthere : ((m.tick delta stage).value.machine.thread? id).isSome = true) :
    Recalls options library id (m.tick delta stage).value.machine
      (history ++ (m.visits delta stage id).map fun v => v.callEvent id)
  | leaves {m : Machine} {history : List CallEvent} {σ : Type} [Stage σ] (delta : Single) (stage : σ)
    (report : TickReport) (h : Recalls options library id m history)
    (hok : (m.tick delta stage).value.result = .ok report)
    (hgone : (m.tick delta stage).value.machine.thread? id = none) :
    Recalls options library id (m.tick delta stage).value.machine []

omit [Stage σ] in
theorem Recalls.reachable (h : Recalls options library id m history) : Reachable options library m := by
  induction h with
  | create => exact .create
  | hosts _ hm ih => exact hm.reachable ih
  | stays delta stage _ _ _ _ ih | leaves delta stage _ _ _ _ ih => exact ih.tick delta stage

omit [Stage σ] in
/-- In every run without a failed tick a thread has a history. -/
theorem Chronicle.exists_recalls {log : List ThreadId} (h : Chronicle options library m log) (id : ThreadId) :
    ∃ history, Recalls options library id m history := by
  induction h with
  | create => exact ⟨[], .create⟩
  | putScript buffer script _ hm ih =>
    obtain ⟨history, ih⟩ := ih
    exact ⟨history, ih.hosts (.putScript buffer script hm)⟩
  | loadScript buffer number loaded _ hm ih =>
    obtain ⟨history, ih⟩ := ih
    exact ⟨history, ih.hosts (.loadScript buffer number loaded hm)⟩
  | spawn buffer label other _ hm ih =>
    obtain ⟨history, ih⟩ := ih
    exact ⟨history, ih.hosts (.spawn buffer label other hm)⟩
  | globals globals _ ih =>
    obtain ⟨history, ih⟩ := ih
    exact ⟨history, ih.hosts (.globals globals)⟩
  | @tick m _ σ _ delta stage report _ hok ih =>
    obtain ⟨history, ih⟩ := ih
    cases hthere : (m.tick delta stage).value.machine.thread? id with
    | none => exact ⟨[], ih.leaves delta stage report hok hthere⟩
    | some t => exact ⟨_, ih.stays delta stage report hok (Option.isSome_iff_exists.mpr ⟨t, hthere⟩)⟩

omit [Stage σ] in
theorem Recalls.eq_nil (h : Recalls options library id m history) (hnone : m.thread? id = none) : history = [] := by
  induction h with
  | create => rfl
  | hosts h hm ih =>
    refine ih (Option.eq_none_iff_forall_ne_some.mpr ?_)
    intro t ht
    cases hnone.symm.trans (hm.thread? h.reachable ht)
  | stays delta stage report h hok hthere ih =>
    rw [hnone] at hthere
    cases hthere
  | leaves => rfl

omit [Stage σ] in
theorem Recalls.nests (h : Recalls options library id m history) (ht : m.thread? id = some t)
    (hparsed : t.script.Parsed) : t.calls.Nests history := by
  induction h generalizing t with
  | create =>
    rw [create_value, thread?, Arena.get?_eq, Arena.tenant?_empty] at ht
    cases ht
  | @hosts m m' history h hm ih =>
    rcases hm.thread?_or h.reachable ht with hold | ⟨script, buffer, pc, rfl⟩
    · exact ih hold hparsed
    · cases hbefore : m.thread? id with
      | none =>
        rw [h.eq_nil hbefore]
        exact CallStack.nests_empty
      | some t₀ =>
        cases ht.symm.trans (hm.thread? h.reachable hbefore)
        exact ih hbefore hparsed
  | @stays m history σ _ delta stage report h hok hthere ih =>
    have hm := h.reachable.pending
    cases hbefore : m.thread? id with
    | some t₀ =>
      have hparsed₀ : t₀.script.Parsed := hm.script_tick hbefore ht ▸ hparsed
      exact hm.nests_tick hok hbefore ht hparsed₀ (ih hbefore hparsed₀)
    | none =>
      obtain ⟨u, hu⟩ := hm.exists_turned ht
      obtain ⟨script, buffer, pc, rfl⟩ := hm.exists_start hbefore hu
      have hcalls := (Thread.calls_of_core (hm.state_tick hu ht).1).2
      have hnone : m.visits delta stage id = [] := by
        refine visits_eq_nil fun world thread o ho => ?_
        cases hbefore.symm.trans (ho.thread? hm)
      rw [h.eq_nil hbefore, hnone, hcalls]
      exact CallStack.nests_empty
  | leaves delta stage report h hok hgone ih =>
    rw [hgone] at ht
    cases ht

/-- The calls and returns of a thread nest: up to now, and in whatever tick comes next. -/
structure NestsCalls (m : Machine) (id : ThreadId) (history : List CallEvent) (t : Thread) : Prop where
  now : t.calls.Nests history
  next : ∀ (σ : Type) [Stage σ] (delta : Single) (stage : σ) (n : Nat) (v : Visit σ),
    (m.visits delta stage id)[n]? = some v →
      v.Nests id (history ++ ((m.visits delta stage id).take n).map fun v => v.callEvent id)

omit [Stage σ] in
theorem Recalls.nestsCalls (h : Recalls options library id m history) (ht : m.thread? id = some t)
    (hparsed : t.script.Parsed) : m.NestsCalls id history t := by
  have hnow := h.nests ht hparsed
  constructor
  · exact hnow
  · intro σ _ delta stage n v hv
    exact h.reachable.pending.nests_visits ht hparsed hnow hv

/-- A subroutine calls another one, which yields. In the next tick both return. -/
theorem Recalls.nestsCalls_twice :
    let script := Script.build 1 [0, 4, 0x81, 0, 0, 0, 0, 4, 0x82, 0, 0, 5, 0, 1, 0, 5] [0, 6, 12] []
    let start := (Machine.create {} none).value
    let loaded := (start.putScript 0 script).getD start
    let one := ((loaded.spawn 0 0).toOption.map Prod.snd).getD loaded
    let m := (one.tick Single.zero Recorder.empty).value.machine
    let history : List CallEvent := [.called 28, .called 34, .other]
    Recalls {} none ⟨1, 0⟩ m history ∧
      (∃ t, m.thread? ⟨1, 0⟩ = some t ∧ t.script.Parsed ∧ t.calls.frames = [34, 28] ∧
        m.NestsCalls ⟨1, 0⟩ history t) ∧
      (m.visits Single.zero Recorder.empty ⟨1, 0⟩).map
        (fun v => (v.callEvent ⟨1, 0⟩, (v.outcome ⟨1, 0⟩).thread.pc, (v.outcome ⟨1, 0⟩).thread.calls.frames)) =
        [(.returned, 34, [28]), (.returned, 28, []), (.other, 30, [])] := by
  intro script start loaded one m history
  have hloaded : Recalls {} none ⟨1, 0⟩ loaded [] := .hosts .create (.putScript 0 script rfl)
  have hone : Recalls {} none ⟨1, 0⟩ one [] := .hosts hloaded (.spawn 0 0 ⟨1, 0⟩ rfl)
  have hevents : (one.visits Single.zero Recorder.empty ⟨1, 0⟩).map (fun v => v.callEvent ⟨1, 0⟩) = history := by
    decide +kernel
  have hok : (one.tick Single.zero Recorder.empty).value.result = .ok ⟨3, 1, 0⟩ := by decide +kernel
  have hm : Recalls {} none ⟨1, 0⟩ m _ := hone.stays Single.zero Recorder.empty ⟨3, 1, 0⟩ hok (by decide +kernel)
  rw [hevents] at hm
  obtain ⟨t, ht⟩ := Option.isSome_iff_exists.mp (show (m.thread? ⟨1, 0⟩).isSome = true by decide +kernel)
  have hscript : t.script = script := hone.reachable.pending.script_tick rfl ht
  have hparsed : t.script.Parsed :=
    hscript ▸ ⟨1, _, Script.parse_build_of_wordsBefore (by simp) (by simp) (by decide) (by decide)⟩
  have hframes : (m.thread? ⟨1, 0⟩).map (fun t => t.calls.frames) = some [34, 28] := by decide +kernel
  rw [ht, Option.map_some, Option.some_inj] at hframes
  exact ⟨hm, ⟨t, ht, hparsed, hframes, hm.nestsCalls ht hparsed⟩, by decide +kernel⟩

end Machine
end NovelEngine
