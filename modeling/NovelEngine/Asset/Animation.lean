import NovelEngine.Asset.Reader

/-!
# Animation clips

A clip has two flat lists of keyframes, numbers and rotations. A track moves one bone; each of its seven
channels is a window into one of the lists, so that tracks can share keyframes. In a clip that passed the
checks every track names a bone of the skeleton, every window lies in its list, and no keyframe in a window
comes before its predecessor.
-/
namespace NovelEngine

/-- The most bones a model may have, and the most tracks a clip may have. -/
def maxBones : Nat := 160

structure Keyframe (α : Type) where
  time : Single
  value : α
  deriving DecidableEq, Inhabited

structure Window where
  offset : UInt32
  count : UInt16
  deriving DecidableEq, Inhabited

namespace Window

def stop (w : Window) : Nat := w.offset.toNat + w.count.toNat

/-- The keyframes of a window; none when the window does not fit. -/
def slice {α : Type} (w : Window) (keys : List α) : List α :=
  (keys.drop w.offset.toNat).take w.count.toNat

end Window

/-- One thing for each channel of a track, in file order. -/
structure Channels (α : Type) where
  positionX : α
  positionY : α
  positionZ : α
  scaleX : α
  scaleY : α
  scaleZ : α
  rotation : α
  deriving DecidableEq, Inhabited

namespace Channels

def scalars {α : Type} (c : Channels α) : List α :=
  [c.positionX, c.positionY, c.positionZ, c.scaleX, c.scaleY, c.scaleZ]

def toList {α : Type} (c : Channels α) : List α := c.scalars ++ [c.rotation]

def zipWith {α β γ : Type} (f : α → β → γ) (a : Channels α) (b : Channels β) : Channels γ :=
  ⟨f a.positionX b.positionX, f a.positionY b.positionY, f a.positionZ b.positionZ, f a.scaleX b.scaleX,
    f a.scaleY b.scaleY, f a.scaleZ b.scaleZ, f a.rotation b.rotation⟩

def names : Channels String :=
  ⟨"translate.x", "translate.y", "translate.z", "scale.x", "scale.y", "scale.z", "rotation"⟩

def read {α : Type} (item : Reader α) : Reader (Channels α) :=
  return ⟨← item, ← item, ← item, ← item, ← item, ← item, ← item⟩

end Channels

structure Track where
  bone : UInt16
  windows : Channels Window
  deriving DecidableEq, Inhabited

structure Animation where
  id : UInt16
  duration : Single
  tracks : List Track
  coords : List (Keyframe Single)
  rotations : List (Keyframe Quat)
  deriving DecidableEq, Inhabited

/-- Whether no time is smaller than the one before it. -/
def timesSorted : List Single → Bool
  | a :: b :: rest => !decide (b < a) && timesSorted (b :: rest)
  | _ => true

/-- Checks one channel of the track with number `track`. -/
def checkWindow {α : Type} (keys : List (Keyframe α)) (track : Nat) (channel : String) (w : Window) :
    Except AssetError Unit :=
  if keys.length < w.stop then
    .error (.trackOutOfBounds track channel w.offset w.count keys.length)
  else if timesSorted ((w.slice keys).map Keyframe.time) then .ok ()
  else .error (.unsortedKeyframes track channel)

namespace Animation

def checkTrack (a : Animation) (boneCount track : Nat) (t : Track) : Except AssetError Unit := do
  if boneCount ≤ t.bone.toNat then throw (.boneOutOfRange t.bone.toNat boneCount)
  (Channels.names.scalars.zip t.windows.scalars).forM fun c => checkWindow a.coords track c.1 c.2
  checkWindow a.rotations track Channels.names.rotation t.windows.rotation

/-- The checks that a clip has to pass to be played on a skeleton of `boneCount` bones. -/
def check (a : Animation) (boneCount : Nat) : Except AssetError Unit := do
  if maxBones < a.tracks.length then throw (.tooManyBones a.tracks.length maxBones)
  a.tracks.zipIdx.forM fun t => a.checkTrack boneCount t.2 t.1

/-- A clip of given parts that passes the checks. -/
def ofParts (id : UInt16) (duration : Single) (tracks : List Track) (coords : List (Keyframe Single))
    (rotations : List (Keyframe Quat)) (boneCount : Nat) : Except AssetError Animation := do
  let a : Animation := ⟨id, duration, tracks, coords, rotations⟩
  a.check boneCount
  return a

def readTrack : Reader Track := do
  let bone ← Reader.u16
  let _ ← Reader.u16
  let offsets ← Channels.read Reader.u32
  let counts ← Channels.read Reader.u16
  return ⟨bone, offsets.zipWith Window.mk counts⟩

def readKeyframe {α : Type} (value : Reader α) : Reader (Keyframe α) := return ⟨← Reader.single, ← value⟩

/-- Reads a clip for a skeleton of `boneCount` bones. -/
def read (id : UInt16) (boneCount : Nat) : Reader Animation := do
  let duration ← Reader.single
  let trackCount := (← Reader.u32).toNat
  let coordCount := (← Reader.u32).toNat
  let rotationCount := (← Reader.u32).toNat
  if maxBones < trackCount then throw (.tooManyBones trackCount maxBones)
  let tracks ← Reader.many readTrack trackCount
  let coords ← Reader.many (readKeyframe Reader.single) coordCount
  let rotations ← Reader.many (readKeyframe Reader.quat) rotationCount
  ofParts id duration tracks coords rotations boneCount

def load (bytes : Bytes) (id : UInt16) (boneCount : Nat) : Except AssetError Animation :=
  (read id boneCount).run bytes

def trackBytes (t : Track) : Bytes :=
  u16Bytes t.bone ++ u16Bytes 0 ++ t.windows.toList.flatMap (fun w => wordBytes w.offset) ++
    t.windows.toList.flatMap fun w => u16Bytes w.count

/-- The written form: duration, the three counts, tracks, numbers, rotations. -/
def write (a : Animation) : Bytes :=
  singleBytes a.duration ++ wordBytes (UInt32.ofNat a.tracks.length) ++
    wordBytes (UInt32.ofNat a.coords.length) ++ wordBytes (UInt32.ofNat a.rotations.length) ++
    a.tracks.flatMap trackBytes ++
    a.coords.flatMap (fun k => singleBytes k.time ++ singleBytes k.value) ++
    a.rotations.flatMap fun k => singleBytes k.time ++ quatBytes k.value

end Animation
end NovelEngine
