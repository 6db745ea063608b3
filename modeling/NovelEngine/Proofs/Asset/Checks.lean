import NovelEngine.Proofs.Asset.Clips

/-!
# What is wrong with a clip

All that can be wrong with a clip, in the order in which it is looked for: too many tracks, and then track by track the
bone and the seven windows. A clip is refused for the first thing that is wrong with it, whether it is given as parts or
read from the bytes that spell them.
-/
namespace NovelEngine

variable {α : Type}

/-- A value, or the first thing that is wrong with it. -/
def orFirst (a : α) : List AssetError → Except AssetError α
  | [] => .ok a
  | e :: _ => .error e

theorem orFirst_then {x : Except AssetError α} {a : α} {es' : List AssetError} (h : x = orFirst a es')
    (es : List AssetError) : (orFirst PUnit.unit es >>= fun _ => x) = orFirst a (es ++ es') := by
  cases es with
  | nil => exact h
  | cons e es => rfl

/-- Of the checks of a list, the first one that fails decides. -/
theorem forM_eq_orFirst {f : α → Except AssetError PUnit} {faults : α → List AssetError}
    (h : ∀ a, f a = orFirst ⟨⟩ (faults a)) (l : List α) : l.forM f = orFirst ⟨⟩ (l.flatMap faults) := by
  induction l with
  | nil => rfl
  | cons a l ih =>
    have hhead := orFirst_then ih (faults a)
    rwa [← h a] at hhead

theorem guard_eq_orFirst {c : Prop} [Decidable c] {e : AssetError} {x : Except AssetError α} {a : α}
    {es : List AssetError} (h : x = orFirst a es) :
    (if c then (throw e : Except AssetError PUnit) >>= fun _ => x else x) =
      orFirst a ((if c then [e] else []) ++ es) := by
  split
  · rfl
  · exact h

/-- What is wrong with the window of a channel. Keyframes are only compared in a window that fits. -/
def Window.faults (keys : List (Keyframe α)) (track : Nat) (channel : String) (w : Window) : List AssetError :=
  if keys.length < w.stop then [.trackOutOfBounds track channel w.offset w.count keys.length]
  else if timesSorted ((w.slice keys).map Keyframe.time) then []
  else [.unsortedKeyframes track channel]

theorem checkWindow_eq (keys : List (Keyframe α)) (track : Nat) (channel : String) (w : Window) :
    checkWindow keys track channel w = orFirst () (w.faults keys track channel) := by
  unfold checkWindow Window.faults
  split
  · rfl
  · split <;> rfl

namespace Animation

def trackFaults (a : Animation) (boneCount track : Nat) (t : Track) : List AssetError :=
  (if boneCount ≤ t.bone.toNat then [.boneOutOfRange t.bone.toNat boneCount] else []) ++
    ((Channels.names.scalars.zip t.windows.scalars).flatMap (fun c => c.2.faults a.coords track c.1) ++
      t.windows.rotation.faults a.rotations track Channels.names.rotation)

def faults (a : Animation) (boneCount : Nat) : List AssetError :=
  (if maxBones < a.tracks.length then [.tooManyBones a.tracks.length maxBones] else []) ++
    a.tracks.zipIdx.flatMap fun t => a.trackFaults boneCount t.2 t.1

theorem checkTrack_eq (a : Animation) (boneCount track : Nat) (t : Track) :
    a.checkTrack boneCount track t = orFirst () (a.trackFaults boneCount track t) := by
  have hscalars := forM_eq_orFirst (fun c : String × Window => checkWindow_eq a.coords track c.1 c.2)
    (Channels.names.scalars.zip t.windows.scalars)
  have hrotation := checkWindow_eq a.rotations track Channels.names.rotation t.windows.rotation
  apply guard_eq_orFirst
  rw [hscalars]
  exact orFirst_then hrotation _

theorem check_eq (a : Animation) (boneCount : Nat) : a.check boneCount = orFirst () (a.faults boneCount) := by
  apply guard_eq_orFirst
  exact forM_eq_orFirst (fun t : Track × Nat => checkTrack_eq a boneCount t.2 t.1) a.tracks.zipIdx

theorem ofParts_eq (id : UInt16) (duration : Single) (tracks : List Track) (coords : List (Keyframe Single))
    (rotations : List (Keyframe Quat)) (boneCount : Nat) :
    ofParts id duration tracks coords rotations boneCount =
      orFirst ⟨id, duration, tracks, coords, rotations⟩ (faults ⟨id, duration, tracks, coords, rotations⟩ boneCount) := by
  have hclip : pure (⟨id, duration, tracks, coords, rotations⟩ : Animation) =
      orFirst ⟨id, duration, tracks, coords, rotations⟩ [] := rfl
  have hcheck := orFirst_then hclip (faults ⟨id, duration, tracks, coords, rotations⟩ boneCount)
  rwa [List.append_nil, ← check_eq] at hcheck

/-- The bytes that spell some parts are accepted or refused as the parts themselves, whatever follows the bytes; and both
are refused for the first thing that is wrong with them. -/
theorem load_write_append (id : UInt16) (duration : Single) (tracks : List Track) (coords : List (Keyframe Single))
    (rotations : List (Keyframe Quat)) (boneCount : Nat) (rest : Bytes) (htracks : tracks.length < wordSpan)
    (hcoords : coords.length < wordSpan) (hrotations : rotations.length < wordSpan) :
    load (write ⟨id, duration, tracks, coords, rotations⟩ ++ rest) id boneCount =
        ofParts id duration tracks coords rotations boneCount ∧
      ofParts id duration tracks coords rotations boneCount =
        orFirst ⟨id, duration, tracks, coords, rotations⟩
          (faults ⟨id, duration, tracks, coords, rotations⟩ boneCount) := by
  refine ⟨?_, ofParts_eq id duration tracks coords rotations boneCount⟩
  have hread : read id boneCount (write ⟨id, duration, tracks, coords, rotations⟩ ++ rest) = _ :=
    read_write_append (a := ⟨id, duration, tracks, coords, rotations⟩) htracks hcoords hrotations rest
  simp only [load, Reader.run, StateT.run, hread]
  cases ofParts id duration tracks coords rotations boneCount <;> rfl

/-- A clip whose first track is in order: in the second one the times of a window decrease and two windows do not fit. -/
def faulty : Animation where
  id := 3
  duration := ⟨0x40000000⟩
  tracks := [⟨1, ⟨⟨0, 2⟩, ⟨1, 1⟩, ⟨2, 1⟩, ⟨0, 1⟩, ⟨3, 0⟩, ⟨0, 0⟩, ⟨0, 1⟩⟩⟩,
    ⟨0, ⟨⟨0, 2⟩, ⟨2, 1⟩, ⟨1, 2⟩, ⟨0, 1⟩, ⟨2, 2⟩, ⟨0, 0⟩, ⟨1, 1⟩⟩⟩]
  coords := [⟨.zero, .one⟩, ⟨.one, .zero⟩, ⟨⟨0x3f000000⟩, .one⟩]
  rotations := [⟨.zero, .identity⟩]

theorem load_write_faulty : load (faulty.write ++ [255, 1]) 3 2 = .error (.unsortedKeyframes 1 "translate.z") ∧
    faulty.faults 2 = [.unsortedKeyframes 1 "translate.z", .trackOutOfBounds 1 "scale.y" 2 2 3,
      .trackOutOfBounds 1 "rotation" 1 1 1] := by
  have hfaults : faulty.faults 2 = [.unsortedKeyframes 1 "translate.z", .trackOutOfBounds 1 "scale.y" 2 2 3,
      .trackOutOfBounds 1 "rotation" 1 1 1] := by decide
  obtain ⟨hload, hparts⟩ := load_write_append 3 faulty.duration faulty.tracks faulty.coords faulty.rotations 2 [255, 1]
    (by decide) (by decide) (by decide)
  refine ⟨hload.trans (hparts.trans ?_), hfaults⟩
  show orFirst faulty (faulty.faults 2) = _
  rw [hfaults]
  rfl

end Animation
end NovelEngine
