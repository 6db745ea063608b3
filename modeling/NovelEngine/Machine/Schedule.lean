import NovelEngine.Machine.Turn

/-!
# The schedule of a tick

In a tick every thread of the run order takes one turn, in order, of at most a fixed number of
instructions. What scripts asked to be done to threads is done after the last turn, in the order asked;
then the threads that have ended leave. A defect stops the tick at once and keeps all that was done before
it; the requests wait for the next tick that comes to its end.
-/
namespace NovelEngine

/-- A defect met at an instruction. -/
structure Halt where
  thread : ThreadId
  pc : Nat
  defect : Defect
  deriving DecidableEq, Inhabited

def Halt.message (h : Halt) : String :=
  "thread " ++ h.thread.text ++ " at pc " ++ hex h.pc ++ ": " ++ h.defect.message

structure TickReport where
  executed : Nat
  liveThreads : Nat
  faulted : Nat
  deriving DecidableEq, Inhabited

inductive StepEnd
  | went (flow : Flow)
  | faulted
  | halted (halt : Halt)
  deriving DecidableEq, Inhabited

structure StepOutcome (σ : Type) where
  ending : StepEnd
  thread : Thread
  world : World σ

/-- What a turn has come to. The instruction that halts a turn is not counted. -/
structure TurnOutcome (σ : Type) where
  thread : Thread
  world : World σ
  executed : Nat
  faulted : Nat
  halt : Option Halt

/-- The outcome with one more instruction, executed before. -/
def TurnOutcome.afterStep {σ : Type} (o : TurnOutcome σ) : TurnOutcome σ :=
  { o with executed := o.executed + 1 }

/-- The thread after an instruction that left the position at `pc`. -/
def Thread.follow (t : Thread) (pc : Nat) : Flow → Thread
  | .next | .yield => { t with pc }
  | .wait condition => { t with pc, state := .waiting condition }
  | .suspend => { t with pc, state := .suspended }
  | .exit => { t with pc, state := .terminated }

/-- Looks at what a thread waits for, and tells whether it may run now. -/
def Thread.poll (t : Thread) (delta : Single) (globals : Globals) (status : SlotKey → LoadStatus) :
    Bool × Thread :=
  match t.state with
  | .running => (true, t)
  | .suspended | .terminated => (false, t)
  | .waiting (.timer remaining) =>
    let remaining := remaining - delta
    if remaining ≤ Single.zero then (true, { t with state := .running })
    else (false, { t with state := .waiting (.timer remaining) })
  | .waiting (.signal flag) =>
    if (globals.flag flag.toNat).toOption.getD true then (true, { t with state := .running })
    else (false, t)
  | .waiting (.resource slot) =>
    if (status slot).isSettled then
      (true, { t with state := .running, result := (status slot).scriptCode })
    else (false, t)

section

variable {σ : Type} [Stage σ]

/-- Executes the instruction at the thread's position. -/
def step (id : ThreadId) (thread : Thread) (world : World σ) : Noted (StepOutcome σ) :=
  match (thread.cursorAt thread.pc).opcode with
  | .error d => return ⟨.halted ⟨id, thread.pc, d⟩, thread, world⟩
  | .ok (opcode, _) => do
    let instruction := world.shared.options.instructionSet.instruction opcode
    let r ← (instruction.run opcode).run.run ⟨thread, thread.pc + 2, world⟩
    let turn := r.2
    match r.1 with
    | .ok flow => return ⟨.went flow, turn.thread.follow turn.pc flow, turn.world⟩
    | .error (.defect d) => return ⟨.halted ⟨id, thread.pc, d⟩, turn.thread, turn.world⟩
    | .error (.fault f) =>
      Noted.note .error .scheduler
        ("thread " ++ id.text ++ " faulted at " ++ hex thread.pc ++ " (" ++ instruction.name ++ "): " ++
          f.message)
      return ⟨.faulted, turn.thread.terminate, turn.world⟩

/-- Executes at most `budget` instructions. A thread that stands at the end of its code ends. -/
def runFor (id : ThreadId) : Nat → Thread → World σ → Noted (TurnOutcome σ)
  | 0, thread, world => return ⟨thread, world, 0, 0, none⟩
  | budget + 1, thread, world =>
    if thread.script.codeEnd ≤ thread.pc then do
      Noted.note .debug .scheduler
        ("thread " ++ id.text ++ " ran off the end of script " ++ toString thread.script.id.toNat)
      return ⟨thread.terminate, world, 0, 0, none⟩
    else do
      let s ← step id thread world
      match s.ending with
      | .went .next => TurnOutcome.afterStep <$> runFor id budget s.thread s.world
      | .went _ => return ⟨s.thread, s.world, 1, 0, none⟩
      | .faulted => return ⟨s.thread, s.world, 1, 1, none⟩
      | .halted halt => return ⟨s.thread, s.world, 0, 0, some halt⟩

/-- The turn of a thread that has been lent out of the arena. -/
def turn (delta : Single) (id : ThreadId) (thread : Thread) (world : World σ) :
    Noted (TurnOutcome σ) :=
  if thread.paused then return ⟨thread, world, 0, 0, none⟩
  else
    let r := thread.poll delta world.shared.globals (Stage.status world.stage)
    if r.1 then runFor id world.shared.options.instructionsPerTick.toNat r.2 world
    else return ⟨r.2, world, 0, 0, none⟩

/-- Executed and faulted instructions of the turns of some threads, or the halt that cut them short. -/
structure TurnsOutcome (σ : Type) where
  world : World σ
  result : Except Halt (Nat × Nat)

/-- The outcome with one more turn, taken before. -/
def TurnsOutcome.afterTurn (o : TurnOutcome σ) (rest : TurnsOutcome σ) : TurnsOutcome σ :=
  { rest with result := rest.result.map fun c => (o.executed + c.1, o.faulted + c.2) }

def turns (delta : Single) : List ThreadId → World σ → Noted (TurnsOutcome σ)
  | [], world => return ⟨world, .ok (0, 0)⟩
  | id :: ids, world =>
    match world.shared.threads.checkout id with
    | none => turns delta ids world
    | some (thread, threads) => do
      let o ← turn delta id thread { world with shared.threads := threads }
      let world := { o.world with shared.threads := o.world.shared.threads.checkin id o.thread }
      match o.halt with
      | some halt => return ⟨world, .error halt⟩
      | none => TurnsOutcome.afterTurn o <$> turns delta ids world

end

namespace Machine

/-- Changes the live thread that a handle stands for. -/
def onHandle (m : Machine) (handle : Int32) (action : String) (f : Thread → Thread) : Noted Machine :=
  let threads := m.shared.threads
  match (threads.resolve handle).bind fun id => (threads.get? id).map fun t => (id, t) with
  | some (id, thread) => return { m with shared.threads := threads.put id (f thread) }
  | none => do
    Noted.note .warn .scheduler
      (action ++ " of stale thread handle " ++ hex handle.toUInt32.toNat ++ " ignored")
    return m

def unpause (t : Thread) : Thread :=
  { t with paused := false, state := if t.state = .suspended then .running else t.state }

def applyRequest (m : Machine) : LifecycleRequest → Noted Machine
  | .spawn id =>
    return if m.shared.threads.contains id then { m with order := m.order ++ [id] } else m
  | .kill handle => m.onHandle handle "kill" Thread.terminate
  | .pause handle => m.onHandle handle "pause" fun t => { t with paused := true }
  | .resume handle => m.onHandle handle "resume" unpause

def applyAll (m : Machine) : List LifecycleRequest → Noted Machine
  | [] => return m
  | r :: rs => do (← m.applyRequest r).applyAll rs

/-- Carries out the requests of the tick in the order they were made. -/
def applyRequests (m : Machine) : Noted Machine :=
  applyAll { m with shared.requests := [] } m.shared.requests.reverse

/-- Removes the ended threads of a run order. -/
def reapFrom (threads : Arena Thread) : List ThreadId → List ThreadId × Arena Thread
  | [] => ([], threads)
  | id :: ids =>
    if ((threads.get? id).map Thread.isTerminated).getD true then
      reapFrom (threads.remove id).2 ids
    else
      let r := reapFrom threads ids
      (id :: r.1, r.2)

def reap (m : Machine) : Machine :=
  let r := reapFrom m.shared.threads m.order
  { m with shared.threads := r.2, order := r.1 }

structure TickOutcome (σ : Type) where
  machine : Machine
  stage : σ
  result : Except Halt TickReport

/-- Lets every thread take its turn and then carries out what was asked for. -/
def tick {σ : Type} [Stage σ] (m : Machine) (delta : Single) (stage : σ) : Noted (TickOutcome σ) := do
  let o ← turns delta m.order ⟨m.shared, stage⟩
  let m := { m with shared := o.world.shared }
  match o.result with
  | .error halt => return ⟨m, o.world.stage, .error halt⟩
  | .ok (executed, faulted) =>
    let m := (← m.applyRequests).reap
    return ⟨m, o.world.stage, .ok ⟨executed, m.liveThreads, faulted⟩⟩

end Machine
end NovelEngine
