import NovelEngine.Proofs.Machine.Directives
import NovelEngine.Proofs.Machine.Failures
import NovelEngine.Proofs.Machine.Turns

/-!
# Rounds

A tick that comes to its end is one round of turns. What is asked to be done to a thread waits in the queue until the
round is over. So every thread begins its turn as the round has found it, and the turn is a whole one, whatever has been
asked before.
-/
namespace NovelEngine

variable {σ : Type} [Stage σ]

/-- What becomes of an instruction that asks for something to be done to a thread: it reads its operand, and when it has
it, all it does is to put the request before the others. -/
inductive Turn.Enqueues (directive : Int32 → LifecycleRequest) (t : Turn σ) : Except Failure Flow × Turn σ → Prop
  | unread {e : Failure} {t' : Turn σ} (hoperand : Exec.expr.result t = (.error e, t')) (h : t.Evaluates t') :
    Enqueues directive t (.error e, t')
  | asked {operand : Int32} {t' : Turn σ} (hoperand : Exec.expr.result t = (.ok operand, t')) (h : t.Evaluates t') :
    Enqueues directive t
      (.ok .next, { t' with world.shared.requests := directive operand :: t'.world.shared.requests })

theorem Instruction.enqueues_run {i : Instruction} {directive : Int32 → LifecycleRequest}
    (hi : i.directive? = some directive) (opcode : UInt16) (t : Turn σ) :
    t.Enqueues directive ((i.run opcode).result t) := by
  have hread := Exec.Probe.expr.evaluates t
  rw [run_of_directive hi, Exec.result_bind]
  cases hoperand : Exec.expr.result t with
  | mk r t' =>
    rw [hoperand] at hread
    cases r with
    | error e => exact .unread hoperand hread
    | ok operand => exact .asked hoperand hread

/-- The record of a turn tells of a whole turn: of the one that the thread has in the world that the turns before it have
left. -/
theorem exists_turn_of_mem {delta : Single} {ids : List ThreadId} {world : World σ} {t : TurnRecord}
    (ht : t ∈ (turnsCourse .leave delta ids world).turns) :
    ∃ before rest w counts threads, ids = before ++ t.id :: rest ∧ (turns delta before world).value = ⟨w, .ok counts⟩ ∧
      w.shared.threads.checkout t.id = some (t.before, threads) ∧
      let o := (turn delta t.id t.before (w.lending threads)).value
      t.steps.length = o.executed ∧ t.after = o.thread := by
  induction ids generalizing world with
  | nil => cases ht
  | cons id ids ih =>
    rw [turnsCourse] at ht
    cases hlent : world.shared.threads.checkout id with
    | none =>
      rw [hlent] at ht
      obtain ⟨before, rest, w, counts, threads, rfl, hbefore, hturn⟩ := ih ht
      refine ⟨id :: before, rest, w, counts, threads, rfl, ?_, hturn⟩
      rw [turns_cons_value, hlent]
      exact hbefore
    | some p =>
      obtain ⟨thread, threads⟩ := p
      rw [hlent] at ht
      let c := turnCourse .leave delta id thread (world.lending threads)
      have hdescribes : c.Describes (turn delta id thread (world.lending threads)).value := turnCourse_describes ..
      -- The record is that of the first turn, or the first turn came to its end and it is one of those behind it.
      have hrecord : t = ⟨id, thread, c.steps, c.born, c.thread⟩ ∨ c.halt = none ∧ t ∈ (turnsCourse .leave delta ids
          { c.world with shared.threads := c.world.shared.threads.checkin id c.thread }).turns := by
        dsimp only at ht
        split at ht
        · exact .inl (List.mem_singleton.mp ht)
        · rename_i hhalt
          exact (List.mem_cons.mp ht).imp_right fun hrest => ⟨hhalt, hrest⟩
      rcases hrecord with rfl | ⟨hhalt, hrest⟩
      · exact ⟨[], ids, world, (0, 0), threads, rfl, rfl, hlent, hdescribes.length_eq, hdescribes.thread_eq⟩
      · rw [hdescribes.halt_eq] at hhalt
        rw [hdescribes.thread_eq, hdescribes.world_eq] at hrest
        have hcons (before : List ThreadId) := turns_cons_of_checkout delta before hlent
        revert hhalt hrest hcons
        generalize (turn delta id thread (world.lending threads)).value = o
        intro hhalt hrest hcons
        obtain ⟨before, rest, w, counts, threads', rfl, hbefore, hturn⟩ := ih hrest
        refine ⟨id :: before, rest, w, (o.executed + counts.1, o.faulted + counts.2), threads', rfl, ?_, hturn⟩
        rw [hcons before]
        dsimp only
        rw [hhalt]
        exact congrArg (TurnsOutcome.afterTurn o) hbefore

namespace Machine

variable {m : Machine} {delta : Single} {stage : σ} {report : TickReport} {wanted : Nat}

/-- How what is asked to be done to threads waits for the end of a tick. -/
structure Postpones (m : Machine) (delta : Single) (stage : σ) : Prop where
  /-- A thread begins its turn as the tick has found it, whatever has been asked in the turns before. -/
  before_eq : ∀ t ∈ (m.course .leave delta stage).turns, m.thread? t.id = some t.before
  /-- No turn is cut short: it is the one that the thread has in a tick. -/
  whole : ∀ t ∈ (m.course .leave delta stage).turns, ∃ world o, m.Takes delta stage t.id world t.before o ∧
    t.steps.length = o.executed ∧ t.after = o.thread
  after_eq : ∀ t ∈ (m.course .leave delta stage).turns, (m.turned delta stage).thread? t.id = some t.after
  enqueues : ∀ (i : Instruction) (directive : Int32 → LifecycleRequest), i.directive? = some directive →
    ∀ (opcode : UInt16) (t : Turn σ), t.Enqueues directive ((i.run opcode).result t)

theorem Pending.postpones (h : m.Pending wanted m.shared.requests) (delta : Single) (stage : σ) :
    m.Postpones delta stage := by
  have hwhole : ∀ t ∈ (m.course .leave delta stage).turns, ∃ world o, m.Takes delta stage t.id world t.before o ∧
      t.steps.length = o.executed ∧ t.after = o.thread := by
    intro t ht
    obtain ⟨before, rest, w, counts, threads, horder, hbefore, hlent, hlength, hafter⟩ := exists_turn_of_mem ht
    exact ⟨w, _, .intro horder hbefore hlent, hlength, hafter⟩
  refine ⟨fun t ht => ?_, hwhole, fun t ht => ?_, fun i directive hi => Instruction.enqueues_run hi⟩
  · obtain ⟨world, o, htakes, -⟩ := hwhole t ht
    exact htakes.thread? h
  · obtain ⟨world, o, htakes, -, hafter⟩ := hwhole t ht
    rw [hafter]
    exact htakes.turned h

variable {options : MachineOptions} {library : Option ScriptLibrary} {log : List ThreadId}

/-- The run order is by age, and every tick that comes to its end keeps its schedule and leaves what is asked to be done
to threads for its end. -/
theorem Chronicle.keepsSchedule (h : Chronicle options library m log) :
    ByAge log m.order ∧
      ∀ (σ : Type) [Stage σ] (delta : Single) (stage : σ) (report : TickReport),
        (m.tick delta stage).value.result = .ok report → m.Scheduled delta stage report ∧ m.Postpones delta stage := by
  refine ⟨h.byAge, fun σ _ delta stage report hok => ⟨?_, ?_⟩⟩
  · exact h.reachable.pending.scheduled h.requests hok
  · exact h.reachable.pending.postpones delta stage

/-- A thread that has been given a free place runs after those that were there before; one that is to be ended
still has its turn. -/
theorem Chronicle.keepsSchedule_reuse :
    let script := Script.build 1
      [0, 0,
        0, 1, 0, 8, 0x80, 0, 0x83, 0, 0, 9, 0x83, 0, 0, 1,
        0, 1, 2, 4, 0, 1,
        0, 0] [0, 2, 16, 22] []
    let start := (Machine.create {} none).value
    let loaded := (start.putScript 0 script).getD start
    let one := ((loaded.spawn 0 0).toOption.map Prod.snd).getD loaded
    let two := ((one.spawn 0 1).toOption.map Prod.snd).getD one
    let three := ((two.spawn 0 2).toOption.map Prod.snd).getD two
    let m := (three.tick Single.zero Recorder.empty).value.machine
    let after := (m.tick Single.zero Recorder.empty).value
    Chronicle {} none m [⟨3, 0⟩, ⟨2, 0⟩, ⟨1, 0⟩] ∧ m.order = [⟨2, 0⟩, ⟨3, 0⟩] ∧
      ((m.course .leave Single.zero Recorder.empty).turns.map fun t => (t.id, t.steps.length)) =
        [(⟨2, 0⟩, 3), (⟨3, 0⟩, 2)] ∧
      after.result = .ok ⟨5, 2, 0⟩ ∧ after.machine.order = [⟨2, 0⟩, ⟨1, 1⟩] ∧
      ByAge [⟨3, 0⟩, ⟨2, 0⟩, ⟨1, 0⟩] m.order ∧ m.Scheduled Single.zero Recorder.empty ⟨5, 2, 0⟩ ∧
      m.Postpones Single.zero Recorder.empty := by
  intro script start loaded one two three m after
  have hloaded : Chronicle {} none loaded [] := .putScript 0 script .create rfl
  have hone : Chronicle {} none one [⟨1, 0⟩] := .spawn 0 0 ⟨1, 0⟩ hloaded rfl
  have htwo : Chronicle {} none two [⟨2, 0⟩, ⟨1, 0⟩] := .spawn 0 1 ⟨2, 0⟩ hone rfl
  have hthree : Chronicle {} none three [⟨3, 0⟩, ⟨2, 0⟩, ⟨1, 0⟩] := .spawn 0 2 ⟨3, 0⟩ htwo rfl
  have hfirst : (three.tick Single.zero Recorder.empty).value.result = .ok ⟨3, 2, 0⟩ := by decide +kernel
  have hm : Chronicle {} none m [⟨3, 0⟩, ⟨2, 0⟩, ⟨1, 0⟩] := by
    have hborn : (three.course .leave Single.zero Recorder.empty).born = [] := by decide +kernel
    have htick := hthree.tick Single.zero Recorder.empty _ hfirst
    rw [hborn] at htick
    exact htick
  have horder : m.order = [⟨2, 0⟩, ⟨3, 0⟩] := by decide +kernel
  have hturns : ((m.course .leave Single.zero Recorder.empty).turns.map fun t => (t.id, t.steps.length)) =
      [(⟨2, 0⟩, 3), (⟨3, 0⟩, 2)] := by decide +kernel
  have hresult : after.result = .ok ⟨5, 2, 0⟩ := by decide +kernel
  have hafter : after.machine.order = [⟨2, 0⟩, ⟨1, 1⟩] := by decide +kernel
  have hkeeps := hm.keepsSchedule
  exact ⟨hm, horder, hturns, hresult, hafter, hkeeps.1, hkeeps.2 Recorder _ _ _ hresult⟩

end Machine
end NovelEngine
