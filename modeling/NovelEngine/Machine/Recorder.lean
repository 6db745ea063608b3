import NovelEngine.Machine.Stage
import NovelEngine.SlotMap

/-!
# A stage that only records

The recorder shows nothing. It writes down what it is asked for and lets its owner decide how each load
ends.
-/
namespace NovelEngine

inductive Intent
  | load (slot : SlotKey) (asset : UInt32)
  | release (slot : SlotKey)
  | play (buffer : UInt32) (animation : UInt16) (mode : UInt8)
  | pose (buffer : UInt32) (animation : UInt16)
  deriving DecidableEq, Inhabited

structure RecordedSlot where
  generation : UInt32
  status : LoadStatus
  deriving DecidableEq, Inhabited

/-- `intents` has the last one first. -/
structure Recorder where
  slots : SlotMap RecordedSlot
  intents : List Intent

namespace Recorder

def empty : Recorder := ⟨.empty, []⟩

def record (r : Recorder) (i : Intent) : Recorder := { r with intents := i :: r.intents }

def load (r : Recorder) (slot : SlotKey) (asset : UInt32) : Recorder :=
  let generation := ((r.slots.get? slot).map RecordedSlot.generation).getD 0 + 1
  { r.record (.load slot asset) with slots := r.slots.set slot ⟨generation, .loading⟩ }

def release (r : Recorder) (slot : SlotKey) : Recorder :=
  let r := r.record (.release slot)
  match r.slots.get? slot with
  | some s => { r with slots := r.slots.set slot ⟨s.generation + 1, .unloaded⟩ }
  | none => r

def status (r : Recorder) (slot : SlotKey) : LoadStatus :=
  ((r.slots.get? slot).map RecordedSlot.status).getD .unloaded

/-- Ends the load of a slot if it is the one with this generation; tells whether it was. -/
def complete (r : Recorder) (slot : SlotKey) (generation : UInt32) (status : LoadStatus) :
    Bool × Recorder :=
  if r.slots.get? slot = some ⟨generation, .loading⟩ then
    (true, { r with slots := r.slots.set slot ⟨generation, status⟩ })
  else (false, r)

/-- The intents recorded since the last call, in the order they were recorded. -/
def takeIntents (r : Recorder) : List Intent × Recorder := (r.intents.reverse, { r with intents := [] })

instance : Stage Recorder where
  load r slot asset := return r.load slot asset
  release r slot := return r.release slot
  status := status
  play r buffer animation mode := return r.record (.play buffer animation mode)
  pose r buffer animation := return r.record (.pose buffer animation)

end Recorder
end NovelEngine
