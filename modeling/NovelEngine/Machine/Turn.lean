import NovelEngine.Machine.Basic
import NovelEngine.Machine.Stage
import NovelEngine.Script.Instruction

/-!
# What one instruction does

An instruction reads its own operands. It works on a `Turn`: the running thread, the position behind what
has been read so far, and the world. The position becomes the thread's own only when the instruction
succeeds; whatever else was changed before a failure stays changed.
-/
namespace NovelEngine

/-- Everything outside the running thread. -/
structure World (σ : Type) where
  shared : Shared
  stage : σ

structure Turn (σ : Type) where
  thread : Thread
  pc : Nat
  world : World σ

inductive Failure
  | defect (d : Defect)
  | fault (f : Fault)
  deriving DecidableEq, Inhabited

/-- How a thread goes on after an instruction. -/
inductive Flow
  | next
  | yield
  | wait (condition : WaitCondition)
  | suspend
  | exit
  deriving DecidableEq, Inhabited

abbrev Exec (σ : Type) := ExceptT Failure (StateT (Turn σ) Noted)

namespace Exec

variable {σ : Type}

def checked {α : Type} : Except Defect α → Exec σ α
  | .ok a => pure a
  | .error d => throw (.defect d)

def permitted {α : Type} : Except Fault α → Exec σ α
  | .ok a => pure a
  | .error f => throw (.fault f)

def log (level : Level) (topic : Topic) (text : String) : Exec σ Unit :=
  ExceptT.lift (StateT.lift (Noted.note level topic text))

def thread : Exec σ Thread := return (← get).thread
def shared : Exec σ Shared := return (← get).world.shared

def setThread (thread : Thread) : Exec σ Unit := modify fun t => { t with thread }
def setShared (shared : Shared) : Exec σ Unit := modify fun t => { t with world.shared := shared }
def setPc (pc : Nat) : Exec σ Unit := modify fun t => { t with pc }
def setResult (result : Int32) : Exec σ Unit := modify fun t => { t with thread.result := result }

/-- Evaluates the expression that comes next. -/
def expr : Exec σ Int32 := do
  let t ← get
  let r := evaluate (t.thread.cursorAt t.pc) ⟨t.world.shared.globals, t.thread.locals, t.thread.result⟩
  set { t with thread.locals := r.2.locals, world.shared.globals := r.2.globals }
  let (value, cursor) ← checked r.1
  setPc cursor.pos
  return value

def readU8 : Exec σ UInt8 := do
  let t ← get
  let (value, cursor) ← checked (t.thread.cursorAt t.pc).u8
  setPc cursor.pos
  return value

def readU16 : Exec σ UInt16 := do
  let t ← get
  let (value, cursor) ← checked (t.thread.cursorAt t.pc).u16
  setPc cursor.pos
  return value

def jump (label : Int32) : Exec σ Unit := do
  setPc (← checked ((← thread).script.label label))

def request (r : LifecycleRequest) : Exec σ Unit := do
  let s ← shared
  setShared { s with requests := r :: s.requests }

/-- Hands the stage on to one of its operations. -/
def onStage (f : σ → Noted σ) : Exec σ Unit := do
  let t ← get
  let stage ← ExceptT.lift (StateT.lift (f t.world.stage))
  set { t with world.stage := stage }

end Exec

def operandText (operands : List (String × Int32)) : String :=
  ", ".intercalate (operands.map fun p => p.1 ++ ": " ++ toString p.2.toInt)

namespace Instruction

variable {σ : Type}

def callText (i : Instruction) (operands : List (String × Int32)) : String :=
  i.name ++ "(" ++ operandText operands ++ ")"

/-- Reports an instruction whose operands are known and whose effect is not. -/
def report (i : Instruction) (operands : List (String × Int32)) : Exec σ Flow := do
  Exec.log .warn .stub ("STUB instruction " ++ i.callText operands)
  return .next

def trace (i : Instruction) (operands : List (String × Int32)) : Exec σ Unit :=
  Exec.log .debug .stub (i.callText operands)

/-- Reads `count` expressions. -/
def operands : Nat → Exec σ (List Int32)
  | 0 => return []
  | count + 1 => do
    let value ← Exec.expr
    return value :: (← operands count)

/-- A wait of some milliseconds; a negative number counts as none. -/
def timer (millis : Int32) : WaitCondition :=
  .timer (Single.ofInt32 (max millis 0) / Single.ofInt32 1000)

/-- Animation numbers have 16 bits; others are reported and passed over. -/
def withAnimation (i : Instruction) (buffer animation : Int32) (f : UInt16 → Exec σ Unit) :
    Exec σ Unit :=
  if 0 ≤ animation ∧ animation ≤ 0xFFFF then f (UInt16.ofNat animation.toInt.toNat)
  else
    Exec.log .warn .characterInstruction
      (i.name ++ " on buffer " ++ toString buffer.toInt ++ ": animation " ++
        toString animation.toInt ++ " out of range, ignored")

variable [Stage σ]

def run (opcode : UInt16) (i : Instruction) : Exec σ Flow := do
  match i with
  | exit => return .exit
  | yield => return .yield
  | jump =>
    Exec.jump (← Exec.expr)
    return .next
  | jumpIf =>
    let condition ← Exec.expr
    let label ← Exec.expr
    if condition ≠ 0 then Exec.jump label
    return .next
  | call =>
    let label ← Exec.expr
    let target ←
      if (← Exec.shared).options.useReturnIds then do
        let id ← Exec.readU16
        Exec.checked ((← Exec.thread).script.returnAddress id)
      else pure (← get).pc
    let t ← Exec.thread
    let calls ← Exec.permitted (t.calls.push target)
    Exec.setThread { t with calls }
    Exec.jump label
    return .next
  | ret =>
    let t ← Exec.thread
    let (pc, calls) ← Exec.permitted t.calls.pop
    Exec.setThread { t with calls }
    Exec.setPc pc
    return .next
  | wait => return .wait (timer (← Exec.expr))
  | assign =>
    let _ ← Exec.expr
    return .next
  | threadCreate =>
    let buffer ← Exec.expr
    let label ← Exec.expr
    let (id, shared) ← Exec.permitted ((← Exec.shared).spawn buffer.toInt label)
    Exec.setShared shared
    Exec.request (.spawn id)
    Exec.setResult id.toScriptHandle
    return .next
  | threadKill =>
    Exec.request (.kill (← Exec.expr))
    return .next
  | threadPause =>
    Exec.request (.pause (← Exec.expr))
    return .next
  | threadResume =>
    Exec.request (.resume (← Exec.expr))
    return .next
  | suspend => return .suspend
  | signalSet =>
    let flag ← Exec.expr
    let s ← Exec.shared
    Exec.setShared { s with globals := ← Exec.checked (s.globals.setFlag flag.toInt true) }
    return .next
  | signalClear =>
    let flag ← Exec.expr
    let s ← Exec.shared
    Exec.setShared { s with globals := ← Exec.checked (s.globals.setFlag flag.toInt false) }
    return .next
  | signalWait =>
    let flag ← Exec.expr
    if ← Exec.checked ((← Exec.shared).globals.flag flag.toInt) then return .next
    return .wait (.signal flag.toUInt32)
  | scriptLoad =>
    let buffer ← Exec.expr
    let id ← Exec.expr
    let r ← ExceptT.lift (StateT.lift ((← Exec.shared).loadScript buffer.toInt id))
    let (loaded, shared) ← Exec.checked r
    Exec.setShared shared
    Exec.setResult (truth loaded)
    return .next
  | debugPrint =>
    let value ← Exec.expr
    let t ← get
    Exec.log .info .control
      ("script " ++ toString t.thread.script.id.toNat ++ " @ " ++ hex t.pc ++ ": " ++
        toString value.toInt)
    return .next
  | backgroundLoad =>
    let asset ← Exec.expr
    Exec.onStage fun s => Stage.load s .background asset.toUInt32
    return .next
  | backgroundRelease =>
    Exec.onStage fun s => Stage.release s .background
    return .next
  | loadWait =>
    let code ← Exec.readU8
    let index ← Exec.expr
    match Category.ofCode? code with
    | none =>
      Exec.log .warn .stageInstruction
        ("load wait on unknown resource category " ++ toString code.toNat)
      Exec.setResult 0
      return .next
    | some category =>
      let slot : SlotKey := ⟨category, index.toUInt32⟩
      let status := Stage.status (← get).world.stage slot
      if status.isSettled then
        Exec.setResult status.scriptCode
        return .next
      return .wait (.resource slot)
  | characterLoad =>
    let buffer ← Exec.expr
    let second ← Exec.expr
    let model ← Exec.expr
    trace i [("bufferId", buffer), ("unk01", second), ("modelId", model)]
    Exec.onStage fun s => Stage.load s (.character buffer.toUInt32) model.toUInt32
    return .next
  | characterRelease =>
    let buffer ← Exec.expr
    Exec.onStage fun s => Stage.release s (.character buffer.toUInt32)
    return .next
  | playAnimation =>
    let buffer ← Exec.expr
    let animation ← Exec.expr
    let mode ← Exec.readU8
    trace i [("bufferId", buffer), ("animationId", animation), ("unk01", Int32.ofNat mode.toNat)]
    withAnimation i buffer animation fun id =>
      Exec.onStage fun s => Stage.play s buffer.toUInt32 id mode
    return .next
  | setAnimation =>
    let buffer ← Exec.expr
    let animation ← Exec.expr
    trace i [("bufferId", buffer), ("animationId", animation)]
    withAnimation i buffer animation fun id =>
      Exec.onStage fun s => Stage.pose s buffer.toUInt32 id
    return .next
  | stub0207 =>
    let buffer ← Exec.expr
    let second ← Exec.readU8
    report i [("bufferId", buffer), ("unk01", Int32.ofNat second.toNat)]
  | stub0208 =>
    let values ← operands 5
    report i (["arg1", "arg2", "arg3", "arg4", "arg5"].zip values)
  | stub0219 => report i [("bufferId", ← Exec.expr)]
  | empty0204 | characterSwap | empty02xx | empty0240 => return .next
  | unknown =>
    let t ← Exec.thread
    Exec.log .warn .stub
      ("STUB unknown instruction " ++ hexUpper 4 opcode.toNat ++ " at " ++ hex t.pc ++ " in script " ++
        toString t.script.id.toNat)
    return .next

end Instruction
end NovelEngine
