import NovelEngine.Asset.Model
import NovelEngine.Note
import NovelEngine.SlotMap

/-!
# Loads

Each slot has at most one current request. A request starts a job, which some time later delivers a result;
the result counts only if its request is still the current one of the slot when it is applied, that is, if
the slot's generation has not moved on and the slot is still loading. Results are applied by `pump` alone,
so that statuses change only there and by requests and releases.

When jobs deliver is up to the workers: at once when they work inline, at any time and in any order when
there is a pool.
-/
namespace NovelEngine

/-- Asset files by category and number; a file that cannot be read has an error text instead. -/
abbrev AssetSource := Category → UInt32 → Except String Bytes

inductive LoadError
  | unreadable (text : String)
  | malformed (error : AssetError)
  deriving DecidableEq, Inhabited

def LoadError.message : LoadError → String
  | unreadable text => "asset read failed: " ++ text
  | malformed error => "asset decode failed: " ++ error.message

/-- A loaded model. The ticket tells the resources of different requests apart. -/
structure Resource where
  ticket : Nat
  category : Category
  model : Model
  deriving DecidableEq, Inhabited

inductive Content
  | empty
  | loading (asset : UInt32)
  | loaded (asset : UInt32) (resource : Resource)
  | failed (asset : UInt32) (error : LoadError)
  deriving DecidableEq, Inhabited

namespace Content

def status : Content → LoadStatus
  | empty => .unloaded
  | loading _ => .loading
  | loaded .. => .loaded
  | failed .. => .failed

def asset? : Content → Option UInt32
  | empty => none
  | loading asset | loaded asset _ | failed asset _ => some asset

def resource? : Content → Option Resource
  | loaded _ resource => some resource
  | _ => none

def error? : Content → Option LoadError
  | failed _ error => some error
  | _ => none

end Content

structure LoadSlot where
  generation : UInt32
  content : Content
  deriving DecidableEq, Inhabited

namespace LoadSlot

def unused : LoadSlot := ⟨0, .empty⟩

/-- Generations never come back to 0, which stands for no load. -/
def nextGeneration (s : LoadSlot) : UInt32 := max (s.generation + 1) 1

end LoadSlot

/-- The work of one request. -/
structure Job where
  ticket : Nat
  slot : SlotKey
  generation : UInt32
  asset : UInt32
  deriving DecidableEq, Inhabited

def Job.handle (j : Job) : LoadHandle := j.slot.handle j.generation

structure Completion where
  job : Job
  result : Except LoadError Resource

inductive Workers
  | inline
  | pool
  deriving DecidableEq, Inhabited

structure PumpReport where
  applied : Nat
  stale : Nat
  deriving DecidableEq, Inhabited

/-- The report with one more result. -/
def PumpReport.count (r : PumpReport) (counted : Bool) : PumpReport :=
  if counted then ⟨r.applied + 1, r.stale⟩ else ⟨r.applied, r.stale + 1⟩

/-- `running` are the jobs that have not delivered, the first to start first, and `arrived` the results that
wait for the next pump, the last to arrive first. -/
structure Loads where
  source : AssetSource
  workers : Workers
  slots : SlotMap LoadSlot
  issued : Nat
  running : List Job
  arrived : List Completion

/-- What the loading of an asset comes to. -/
def AssetSource.load (source : AssetSource) (category : Category) (asset : UInt32) :
    Except LoadError Model :=
  match source category asset with
  | .error text => .error (.unreadable text)
  | .ok bytes => (Model.load bytes asset).mapError .malformed

def Job.complete (source : AssetSource) (j : Job) : Completion :=
  ⟨j, (source.load j.slot.category j.asset).map fun model => ⟨j.ticket, j.slot.category, model⟩⟩

def SlotKey.text (slot : SlotKey) : String := slot.category.name ++ " slot " ++ toString slot.index.toNat

namespace Loads

def create (source : AssetSource) (workers : Workers) : Loads := ⟨source, workers, .empty, 0, [], []⟩

def slot (l : Loads) (slot : SlotKey) : LoadSlot := (l.slots.get? slot).getD .unused

/-- Lets the running jobs that are ready deliver their results, in the order they were started. -/
def deliver (l : Loads) (ready : Job → Bool) : Loads :=
  { l with
    running := l.running.filter fun j => !ready j
    arrived := ((l.running.filter ready).map (Job.complete l.source)).reverse ++ l.arrived }

/-- Starts loading an asset into a slot; an earlier request of the slot is superseded. -/
def request (l : Loads) (slot : SlotKey) (asset : UInt32) : Noted (LoadHandle × Loads) :=
  if slot.fitsHandle then do
    let s := l.slot slot
    match s.content with
    | .loading old =>
      Noted.note .debug .loads
        (slot.text ++ " superseded: asset " ++ toString old.toNat ++ " -> " ++ toString asset.toNat)
    | _ => pure ()
    let job : Job := ⟨l.issued, slot, s.nextGeneration, asset⟩
    let l := { l with
      slots := l.slots.set slot ⟨job.generation, .loading asset⟩
      issued := l.issued + 1
      running := l.running ++ [job] }
    return (job.handle, if l.workers = .inline then l.deliver fun _ => true else l)
  else do
    Noted.note .warn .loads
      (slot.text ++ " is out of range (max " ++ toString SlotKey.maxIndex.toNat ++ "); load of asset " ++
        toString asset.toNat ++ " ignored")
    return (.nil, l)

/-- Drops what a slot holds; the result of a job that still runs for it will not count. -/
def release (l : Loads) (slot : SlotKey) : Noted Loads :=
  let s := l.slot slot
  if s.content = .empty then return l
  else do
    Noted.note .debug .loads (slot.text ++ " released")
    return { l with slots := l.slots.set slot ⟨s.nextGeneration, .empty⟩ }

/-- Applies one result if it is that of its slot's current request; tells whether it was. -/
def apply (slots : SlotMap LoadSlot) (c : Completion) : Noted (Bool × SlotMap LoadSlot) :=
  let slot := c.job.slot
  let s := (slots.get? slot).getD .unused
  match s.content, decide (s.generation = c.job.generation) with
  | .loading asset, true =>
    match c.result with
    | .ok resource => do
      Noted.note .info .loads (slot.text ++ " loaded asset " ++ toString asset.toNat)
      return (true, slots.set slot ⟨s.generation, .loaded asset resource⟩)
    | .error error => do
      Noted.note .warn .loads
        (slot.text ++ " failed to load asset " ++ toString asset.toNat ++ ": " ++ error.message)
      return (true, slots.set slot ⟨s.generation, .failed asset error⟩)
  | _, _ => do
    Noted.note .debug .loads ("dropping stale load result " ++ c.job.handle.debugText)
    return (false, slots)

def applyAll : List Completion → SlotMap LoadSlot → Noted (PumpReport × SlotMap LoadSlot)
  | [], slots => return (⟨0, 0⟩, slots)
  | c :: cs, slots => do
    let (counted, slots) ← apply slots c
    (fun r => (r.1.count counted, r.2)) <$> applyAll cs slots

/-- Applies all results that have arrived, in the order they arrived. -/
def pump (l : Loads) : Noted (PumpReport × Loads) := do
  let (report, slots) ← applyAll l.arrived.reverse l.slots
  return (report, { l with slots, arrived := [] })

def status (l : Loads) (slot : SlotKey) : LoadStatus := (l.slot slot).content.status

/-- The status of one request; a request that is not its slot's current one counts as unloaded. -/
def poll (l : Loads) (h : LoadHandle) : LoadStatus :=
  match SlotKey.ofHandle? h with
  | none => .unloaded
  | some slot => if (l.slot slot).generation = h.generation then l.status slot else .unloaded

def resource? (l : Loads) (slot : SlotKey) : Option Resource := (l.slot slot).content.resource?

def asset? (l : Loads) (slot : SlotKey) : Option UInt32 := (l.slot slot).content.asset?

def error? (l : Loads) (slot : SlotKey) : Option LoadError := (l.slot slot).content.error?

def hasPending (l : Loads) : Bool := l.slots.entries.any fun e => e.2.content.status = .loading

end Loads
end NovelEngine
