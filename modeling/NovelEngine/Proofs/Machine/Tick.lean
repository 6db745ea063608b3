import NovelEngine.Machine.Schedule
import NovelEngine.Proofs.Machine.Surroundings

/-!
# The parts of a tick

What the steps of a tick come to, log lines left aside.
-/
namespace NovelEngine

variable {σ : Type}

/-- How an instruction at `start` ends the step, with the thread and the world after it. -/
def stepResult (id : ThreadId) (start : Nat) : Except Failure Flow × Turn σ → StepOutcome σ
  | (.ok flow, t) => ⟨.went flow, t.thread.follow t.pc flow, t.world⟩
  | (.error (.defect d), t) => ⟨.halted ⟨id, start, d⟩, t.thread, t.world⟩
  | (.error (.fault _), t) => ⟨.faulted, t.thread.terminate, t.world⟩

variable [Stage σ]

theorem step_value (id : ThreadId) (thread : Thread) (world : World σ) :
    (step id thread world).value = match (thread.cursorAt thread.pc).opcode with
      | .error d => ⟨.halted ⟨id, thread.pc, d⟩, thread, world⟩
      | .ok (opcode, _) => stepResult id thread.pc
          (((world.shared.options.instructionSet.instruction opcode).run opcode).result
            ⟨thread, thread.pc + 2, world⟩) := by
  cases h : (thread.cursorAt thread.pc).opcode with
  | error d =>
    simp only [step, h]
    rfl
  | ok p =>
    obtain ⟨opcode, rest⟩ := p
    simp only [step, h, Noted.value_bind, Exec.result]
    generalize ((Instruction.run opcode (world.shared.options.instructionSet.instruction opcode)).run.run
      ⟨thread, thread.pc + 2, world⟩).value = r
    obtain ⟨(_ | _) | _, t⟩ := r <;> rfl

/-- A step leaves the world as it has found it, or as an instruction does. -/
theorem world_step {P : World σ → Prop} {thread : Thread} {world : World σ} (hstart : P world)
    (hrun : ∀ opcode (i : Instruction), P ((i.run opcode).result ⟨thread, thread.pc + 2, world⟩).2.world)
    (id : ThreadId) : P (step id thread world).value.world := by
  rw [step_value]
  cases (thread.cursorAt thread.pc).opcode with
  | error d => exact hstart
  | ok p =>
    have hp := hrun p.1 (world.shared.options.instructionSet.instruction p.1)
    dsimp only
    generalize Exec.result _ _ = r at hp
    obtain ⟨(_ | _) | _, t⟩ := r <;> exact hp

theorem runFor_zero_value (id : ThreadId) (thread : Thread) (world : World σ) :
    (runFor id 0 thread world).value = ⟨thread, world, 0, 0, none⟩ := rfl

theorem runFor_succ_value (id : ThreadId) (budget : Nat) (thread : Thread) (world : World σ) :
    (runFor id (budget + 1) thread world).value =
      if thread.script.codeEnd ≤ thread.pc then ⟨thread.terminate, world, 0, 0, none⟩
      else
        let s := (step id thread world).value
        match s.ending with
        | .went .next => (runFor id budget s.thread s.world).value.afterStep
        | .went _ => ⟨s.thread, s.world, 1, 0, none⟩
        | .faulted => ⟨s.thread, s.world, 1, 1, none⟩
        | .halted halt => ⟨s.thread, s.world, 0, 0, some halt⟩ := by
  rw [runFor]
  split
  · rfl
  · rw [Noted.value_bind]
    generalize (step id thread world).value = s
    obtain ⟨ending, thread', world'⟩ := s
    rcases ending with flow | _ | _
    · cases flow <;> rfl
    · rfl
    · rfl

theorem turn_value (delta : Single) (id : ThreadId) (thread : Thread) (world : World σ) :
    (turn delta id thread world).value =
      if thread.paused then ⟨thread, world, 0, 0, none⟩
      else
        let r := thread.poll delta world.shared.globals (Stage.status world.stage)
        if r.1 then (runFor id world.shared.options.instructionsPerTick.toNat r.2 world).value
        else ⟨r.2, world, 0, 0, none⟩ := by
  unfold turn
  split
  · rfl
  · dsimp only
    split <;> rfl

section

variable {P : World σ → Prop} {id : ThreadId} {world : World σ}

theorem world_runFor (hstep : ∀ thread world, P world → P (step id thread world).value.world) (budget : Nat)
    (thread : Thread) (h : P world) : P (runFor id budget thread world).value.world := by
  induction budget generalizing thread world with
  | zero => exact h
  | succ budget ih =>
    have hnext := hstep thread world h
    rw [runFor_succ_value]
    split
    · exact h
    · dsimp only
      split
      · exact ih _ hnext
      · exact hnext
      · exact hnext
      · exact hnext

theorem world_turn (hstep : ∀ thread world, P world → P (step id thread world).value.world) (delta : Single)
    (thread : Thread) (h : P world) : P (turn delta id thread world).value.world := by
  rw [turn_value]
  split
  · exact h
  · dsimp only
    split
    · exact world_runFor hstep _ _ h
    · exact h

end

theorem turns_cons_value (delta : Single) (id : ThreadId) (ids : List ThreadId) (world : World σ) :
    (turns delta (id :: ids) world).value = match world.shared.threads.checkout id with
      | none => (turns delta ids world).value
      | some (thread, threads) =>
        let o := (turn delta id thread { world with shared.threads := threads }).value
        let world := { o.world with shared.threads := o.world.shared.threads.checkin id o.thread }
        match o.halt with
        | some halt => ⟨world, .error halt⟩
        | none => TurnsOutcome.afterTurn o (turns delta ids world).value := by
  cases h : world.shared.threads.checkout id with
  | none => simp only [turns, h]
  | some p =>
    simp only [turns, h, Noted.value_bind]
    generalize (turn delta id p.1 (_ : World σ)).value = o
    obtain ⟨thread, world', executed, faulted, halt⟩ := o
    cases halt <;> rfl

theorem Machine.tick_value (m : Machine) (delta : Single) (stage : σ) :
    (m.tick delta stage).value =
      let o := (turns delta m.order ⟨m.shared, stage⟩).value
      let m : Machine := { m with shared := o.world.shared }
      match o.result with
      | .error halt => ⟨m, o.world.stage, .error halt⟩
      | .ok (executed, faulted) =>
        let m := m.applyRequests.value.reap
        ⟨m, o.world.stage, .ok ⟨executed, m.liveThreads, faulted⟩⟩ := by
  unfold Machine.tick
  rw [Noted.value_bind]
  generalize (turns delta m.order ⟨m.shared, stage⟩).value = o
  obtain ⟨world, _ | _⟩ := o <;> rfl

end NovelEngine
