import NovelEngine.Asset.Model

/-!
# Playing clips

A playback is a clip and a time on it. Sampling starts from the rest pose of a model and lets each track
replace what its channels hold. Before its first keyframe a channel has the first value, after its last
keyframe the last one, and in between it is blended from the two keyframes around the time.
-/
namespace NovelEngine

/-- Halves the `size` places from `base` on, keeping the later half when `holds` its first place. -/
def bisect (holds : Nat → Bool) (base size : Nat) : Nat :=
  if size ≤ 1 then base
  else
    let half := size / 2
    bisect holds (if holds (base + half) then base + half else base) (size - half)
termination_by size

/-- The number of places before the first that does not hold, for places that hold up to some point;
`size - 1` is the last place. -/
def partitionPoint (holds : Nat → Bool) (size : Nat) : Nat :=
  if size = 0 then 0
  else
    let base := bisect holds 0 size
    if holds base then base + 1 else base

/-- How far `time` lies on the way between two key times; a way of no length is passed at once. -/
def blendFactor (start stop time : Single) : Single :=
  let span := stop - start
  if span ≤ ⟨0x34000000⟩ then .one
  else ((time - start) / span).clamp .zero .one

/-- The keyframes before and after a time. -/
def bracket {α : Type} (keys : List (Keyframe α)) (time : Single) : Option (Keyframe α × Keyframe α) :=
  let after := partitionPoint (fun i => (keys[i]?).any fun k => decide (k.time ≤ time)) keys.length
  match after with
  | 0 => none
  | before + 1 =>
    match keys[before]?, keys[before + 1]? with
    | some a, some b => some (a, b)
    | _, _ => none

/-- The value of a channel at a time; `rest` where there are no keyframes. -/
def sampleKeys {α : Type} (blend : α → α → Single → α) (keys : List (Keyframe α)) (time : Single)
    (rest : α) : α :=
  match keys.head?, keys.getLast? with
  | some first, some last =>
    if time ≤ first.time then first.value
    else
      match bracket keys time with
      | some (a, b) => blend a.value b.value (blendFactor a.time b.time time)
      | none => last.value
  | _, _ => rest

def blendNumber (a b t : Single) : Single := a + (b - a) * t

structure Playback where
  clip : Animation
  time : Single
  looping : Bool
  deriving DecidableEq, Inhabited

namespace Playback

def start (clip : Animation) (looping : Bool) : Playback := ⟨clip, .zero, looping⟩

def finished (p : Playback) : Bool := !p.looping && decide (p.clip.duration ≤ p.time)

/-- Lets time pass; negative amounts do not count. A clip of no length stays at its start, a looping one
starts over, any other stops at its end. -/
def advance (p : Playback) (delta : Single) : Playback :=
  let time := p.time + delta.max .zero
  let duration := p.clip.duration
  { p with
    time :=
      if duration ≤ .zero then .zero
      else if p.looping then time.wrap duration
      else time.min duration }

/-- What a track makes of the transform of its bone. -/
def applyTrack (p : Playback) (track : Track) (t : Transform) : Transform :=
  let w := track.windows
  let number (w : Window) (rest : Single) := sampleKeys blendNumber (w.slice p.clip.coords) p.time rest
  { position :=
      ⟨number w.positionX t.position.x, number w.positionY t.position.y, number w.positionZ t.position.z⟩
    rotation := sampleKeys Quat.slerp (w.rotation.slice p.clip.rotations) p.time t.rotation
    scale := ⟨number w.scaleX t.scale.x, number w.scaleY t.scale.y, number w.scaleZ t.scale.z⟩ }

/-- The pose of a model, one transform for each bone. Tracks of bones that it lacks are passed over. -/
def sample (p : Playback) (m : Model) : List Transform :=
  p.clip.tracks.foldl (fun pose track => pose.modify track.bone.toNat (p.applyTrack track))
    (m.bones.map Bone.rest)

end Playback
end NovelEngine
