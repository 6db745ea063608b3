import NovelEngine.Asset.Playback
import NovelEngine.Machine.Stage
import NovelEngine.Scene.Loads

/-!
# The scene

What the renderer shows: a background and one character, both only when completely loaded. A load shows up
at the first update after its result has arrived. An animation asked for while the character is still being
loaded is held, the latest one only, and starts with the character.
-/
namespace NovelEngine

/-- How many character buffers a scene shows. -/
def characterBufferCount : UInt32 := 1

/-- The wish to show an animation, running or at its start. -/
structure AnimationIntent where
  animation : UInt16
  playing : Bool
  deriving DecidableEq, Inhabited

structure Character where
  resource : Resource
  playback : Option Playback
  playing : Bool
  deriving DecidableEq, Inhabited

namespace Character

def create (resource : Resource) : Character := ⟨resource, none, false⟩

def model (c : Character) : Model := c.resource.model

def currentAnimation? (c : Character) : Option UInt16 := c.playback.map fun p => p.clip.id

def pose (c : Character) : List Transform :=
  match c.playback with
  | some p => p.sample c.model
  | none => c.model.bones.map Bone.rest

/-- Starts the animation of an intent from its beginning, if the model has it. -/
def apply (c : Character) (i : AnimationIntent) : Noted Character :=
  match c.model.animation? i.animation with
  | some clip => return { c with playback := some (Playback.start clip true), playing := i.playing }
  | none => do
    Noted.note .warn .stage
      ("character model " ++ toString c.model.id.toNat ++ " has no animation " ++
        toString i.animation.toNat)
    return c

def advance (c : Character) (delta : Single) : Character :=
  if c.playing then { c with playback := c.playback.map fun p => p.advance delta } else c

end Character

structure Scene where
  loads : Loads
  background : Option Resource
  character : Option Character
  held : Option AnimationIntent

namespace Scene

def create (loads : Loads) : Scene := ⟨loads, none, none, none⟩

/-- Shows the character that the loads hold. It stays the same one as long as its resource does; a new one
gets the intent that was held for it. -/
def syncCharacter (s : Scene) : Noted Scene :=
  match s.loads.resource? (.character 0) with
  | none => return { s with character := none }
  | some resource =>
    if s.character.any fun c => c.resource.ticket = resource.ticket then return s
    else
      match s.held with
      | none => return { s with character := some (.create resource) }
      | some intent => do
        let c ← (Character.create resource).apply intent
        return { s with character := some c, held := none }

def syncBackground (s : Scene) : Scene := { s with background := s.loads.resource? .background }

/-- Adopts the loads that have ended and lets the animation run on. -/
def update (s : Scene) (delta : Single) : Noted Scene := do
  let (report, loads) ← s.loads.pump
  if report.stale > 0 then
    let stale := report.stale
    Noted.note .debug .stage s!"scene dropped {stale} stale load results"
  let s ← ({ s with loads } : Scene).syncBackground.syncCharacter
  return { s with character := s.character.map fun c => c.advance delta }

/-- The visible character of a buffer. -/
def character? (s : Scene) (buffer : UInt32) : Option Character :=
  if buffer < characterBufferCount then s.character else none

/-- Whether a buffer is one that the scene shows; other buffers are reported. -/
def isShown (buffer : UInt32) (action : String) : Noted Bool :=
  if buffer < characterBufferCount then return true
  else do
    Noted.note .warn .stage
      (action ++ " on character buffer " ++ toString buffer.toNat ++ " ignored (only " ++
        toString characterBufferCount.toNat ++ " supported)")
    return false

/-- Applies an intent to the visible character, or holds it for the one being loaded. -/
def animate (s : Scene) (buffer : UInt32) (i : AnimationIntent) (action : String) : Noted Scene := do
  if ← isShown buffer action then
    match s.character with
    | some c => return { s with character := some (← c.apply i) }
    | none =>
      match s.loads.status (.character buffer) with
      | .loading | .loaded => return { s with held := some i }
      | .unloaded | .failed =>
        Noted.note .warn .stage
          (action ++ " on empty character buffer " ++ toString buffer.toNat ++ " ignored")
        return s
  else return s

/-- Whether a slot is one that the scene shows. -/
def showsSlot (slot : SlotKey) (action : String) : Noted Bool :=
  if slot = .background then return true else isShown slot.index action

def request (s : Scene) (slot : SlotKey) (asset : UInt32) : Noted (LoadHandle × Scene) := do
  if ← showsSlot slot "load" then
    let held := if slot = .background then s.held else none
    Noted.note .info .stage
      ("requesting " ++ slot.category.name ++ " " ++ toString asset.toNat ++ " into slot " ++
        toString slot.index.toNat)
    let (handle, loads) ← s.loads.request slot asset
    return (handle, { s with loads, held })
  else return (.nil, s)

/-- Takes a slot's resource off the scene at once. -/
def release (s : Scene) (slot : SlotKey) : Noted Scene := do
  let s := { s with loads := ← s.loads.release slot }
  if slot = .background then return { s with background := none }
  else if ← isShown slot.index "release" then return { s with character := none, held := none }
  else return s

def play (s : Scene) (buffer : UInt32) (animation : UInt16) (mode : UInt8) : Noted Scene := do
  Noted.note .debug .stage
    ("play animation " ++ toString animation.toNat ++ " on buffer " ++ toString buffer.toNat ++
      " (mode " ++ toString mode.toNat ++ ")")
  s.animate buffer ⟨animation, true⟩ "play animation"

def pose (s : Scene) (buffer : UInt32) (animation : UInt16) : Noted Scene :=
  s.animate buffer ⟨animation, false⟩ "set animation"

instance : Stage Scene where
  load s slot asset := return (← s.request slot asset).2
  release := release
  status s := s.loads.status
  play := play
  pose := pose

end Scene
end NovelEngine
