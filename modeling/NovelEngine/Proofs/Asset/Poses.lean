import NovelEngine.Asset.Playback
import NovelEngine.Proofs.Asset.KeyOrder

/-!
# Sampled poses

Sampling cuts windows out of the keyframes without looking whether they fit, on whatever model there is by then. The
check that a clip has passed is enough for that: sampling that looks first comes to the same pose. A bone is moved by
the tracks that name it and by no other, and each of its channels by the keyframes of its own window.
-/
namespace NovelEngine

variable {α : Type}

namespace Window

variable {w : Window} {keys : List α}

/-- The keyframes of a window that has to fit. -/
def slice? (w : Window) (keys : List α) : Option (List α) :=
  if w.stop ≤ keys.length then some (w.slice keys) else none

theorem slice?_of_le (h : w.stop ≤ keys.length) : w.slice? keys = some (w.slice keys) := if_pos h

theorem length_slice (h : w.stop ≤ keys.length) : (w.slice keys).length = w.count.toNat := by
  unfold stop at h
  simp only [slice, List.length_take, List.length_drop]
  omega

theorem slice_eq_nil_iff (h : w.stop ≤ keys.length) : w.slice keys = [] ↔ w.count = 0 := by
  rw [← List.length_eq_zero_iff, length_slice h, ← UInt16.toNat_inj]
  rfl

end Window

/-- What keyframes make of a channel at a time, if there are any. -/
def keyed? (blend : α → α → Single → α) (keys : List (Keyframe α)) (time : Single) : Option α :=
  keys.head?.map fun first => sampleKeys blend keys time first.value

theorem sampleKeys_eq_getD (blend : α → α → Single → α) (keys : List (Keyframe α)) (time : Single) (rest : α) :
    sampleKeys blend keys time rest = (keyed? blend keys time).getD rest := by
  cases keys with
  | nil => rfl
  | cons first keys => rfl

theorem keyed?_eq_none_iff {blend : α → α → Single → α} {keys : List (Keyframe α)} {time : Single} :
    keyed? blend keys time = none ↔ keys = [] := by
  simp [keyed?]

/-- The numbers of a transform, in the order of the channels that move them. -/
def Transform.scalars (t : Transform) : List Single :=
  [t.position.x, t.position.y, t.position.z, t.scale.x, t.scale.y, t.scale.z]

/-- What the keyframes of a track make of the numbers, channel by channel. -/
def Animation.numbers (a : Animation) (track : Track) (time : Single) : List (Option Single) :=
  track.windows.scalars.map fun w => keyed? blendNumber (w.slice a.coords) time

/-- What the keyframes of a track make of the rotation. -/
def Animation.rotation? (a : Animation) (track : Track) (time : Single) : Option Quat :=
  keyed? Quat.slerp (track.windows.rotation.slice a.rotations) time

namespace Playback

variable {p : Playback} {m : Model} {boneCount : Nat} {track : Track} {tracks : List Track} {pose : List Transform}

theorem scalars_applyTrack (p : Playback) (track : Track) (t : Transform) :
    (p.applyTrack track t).scalars =
      List.zipWith (fun value rest => value.getD rest) (p.clip.numbers track p.time) t.scalars := by
  simp [applyTrack, Transform.scalars, Animation.numbers, Channels.scalars, sampleKeys_eq_getD]

theorem rotation_applyTrack (p : Playback) (track : Track) (t : Transform) :
    (p.applyTrack track t).rotation = (p.clip.rotation? track p.time).getD t.rotation :=
  sampleKeys_eq_getD _ _ _ _

def moved (p : Playback) (tracks : List Track) (pose : List Transform) : List Transform :=
  tracks.foldl (fun pose track => pose.modify track.bone.toNat (p.applyTrack track)) pose

/-- A bone is moved by the tracks that name it, one after the other. -/
theorem getElem?_moved (p : Playback) (tracks : List Track) (pose : List Transform) (i : Nat) :
    (p.moved tracks pose)[i]? = (pose[i]?).map fun t =>
      (tracks.filter fun track => track.bone.toNat = i).foldl (fun t track => p.applyTrack track t) t := by
  induction tracks generalizing pose with
  | nil => simp [moved]
  | cons track tracks ih =>
    have hrest := ih (pose.modify track.bone.toNat (p.applyTrack track))
    rw [moved] at hrest ⊢
    rw [List.foldl_cons, hrest, List.getElem?_modify]
    by_cases hbone : track.bone.toNat = i
    · simp [hbone, Function.comp_def]
    · simp [hbone]

theorem length_moved (p : Playback) (tracks : List Track) (pose : List Transform) :
    (p.moved tracks pose).length = pose.length := by
  induction tracks generalizing pose with
  | nil => rfl
  | cons track tracks ih =>
    have hrest := ih (pose.modify track.bone.toNat (p.applyTrack track))
    rwa [List.length_modify] at hrest

def applyTrack? (p : Playback) (track : Track) (t : Transform) : Option Transform := do
  let w := track.windows
  let number (w : Window) (rest : Single) : Option Single :=
    (w.slice? p.clip.coords).map fun keys => sampleKeys blendNumber keys p.time rest
  let position : Vec3 :=
    ⟨← number w.positionX t.position.x, ← number w.positionY t.position.y, ← number w.positionZ t.position.z⟩
  let scale : Vec3 := ⟨← number w.scaleX t.scale.x, ← number w.scaleY t.scale.y, ← number w.scaleZ t.scale.z⟩
  let keys ← w.rotation.slice? p.clip.rotations
  return ⟨position, sampleKeys Quat.slerp keys p.time t.rotation, scale⟩

/-- What some tracks make of a pose, when each window has to fit. Tracks of bones that are not there are passed over. -/
def moved? (p : Playback) : List Track → List Transform → Option (List Transform)
  | [], pose => some pose
  | track :: tracks, pose =>
    match pose[track.bone.toNat]? with
    | none => p.moved? tracks pose
    | some t => (p.applyTrack? track t).bind fun t' => p.moved? tracks (pose.set track.bone.toNat t')

def sample? (p : Playback) (m : Model) : Option (List Transform) := p.moved? p.clip.tracks (m.bones.map Bone.rest)

theorem applyTrack?_eq (h : p.clip.FitsTrack boneCount track) (t : Transform) :
    p.applyTrack? track t = some (p.applyTrack track t) := by
  have hscalars := h.scalars
  simp only [Channels.scalars, List.forall_mem_cons] at hscalars
  obtain ⟨hpx, hpy, hpz, hsx, hsy, hsz, -⟩ := hscalars
  simp only [applyTrack?, Window.slice?_of_le hpx.stop_le, Window.slice?_of_le hpy.stop_le,
    Window.slice?_of_le hpz.stop_le, Window.slice?_of_le hsx.stop_le, Window.slice?_of_le hsy.stop_le,
    Window.slice?_of_le hsz.stop_le, Window.slice?_of_le h.rotation.stop_le]
  rfl

theorem moved?_eq (h : ∀ track ∈ tracks, p.clip.FitsTrack boneCount track) (pose : List Transform) :
    p.moved? tracks pose = some (p.moved tracks pose) := by
  induction tracks generalizing pose with
  | nil => rfl
  | cons track tracks ih =>
    obtain ⟨hfirst, hrest⟩ := List.forall_mem_cons.mp h
    have hmodify := List.modify_eq_set_getElem? (p.applyTrack track) track.bone.toNat pose
    rw [moved?]
    cases ht : pose[track.bone.toNat]? with
    | none =>
      rw [ht] at hmodify
      have hsame : p.moved (track :: tracks) pose = p.moved tracks pose := congrArg (p.moved tracks) hmodify
      rw [hsame]
      exact ih hrest pose
    | some t =>
      rw [ht] at hmodify
      have hnext : p.moved (track :: tracks) pose = p.moved tracks (pose.set track.bone.toNat (p.applyTrack track t)) :=
        congrArg (p.moved tracks) hmodify
      dsimp only
      rw [hnext, applyTrack?_eq hfirst]
      exact ih hrest _

theorem sample?_eq (h : p.clip.Fits boneCount) (m : Model) : p.sample? m = some (p.sample m) := moved?_eq h.tracks _

/-- The transform of a bone that one track moves. Where the track has keyframes for a channel, they and the time decide,
and everywhere else the bone is at rest. -/
structure Channeled (a : Animation) (track : Track) (time : Single) (rest t : Transform) : Prop where
  scalars_eq : t.scalars = List.zipWith (fun value rest => value.getD rest) (a.numbers track time) rest.scalars
  rotation_eq : t.rotation = (a.rotation? track time).getD rest.rotation

variable {a a' : Animation} {track' : Track} {time : Single} {rest rest' t t' : Transform}

theorem Channeled.getElem?_scalars (h : Channeled a track time rest t) (h' : Channeled a' track' time rest' t')
    {k : Nat} {w w' : Window} (hw : track.windows.scalars[k]? = some w) (hw' : track'.windows.scalars[k]? = some w')
    (hkeys : w'.slice a'.coords = w.slice a.coords) (hsome : w.slice a.coords ≠ []) :
    t'.scalars[k]? = t.scalars[k]? := by
  have hlength : k < 6 := (List.getElem?_eq_some_iff.mp hw).1
  obtain ⟨value, hvalue⟩ : ∃ value, keyed? blendNumber (w.slice a.coords) time = some value :=
    Option.ne_none_iff_exists'.mp (keyed?_eq_none_iff.not.mpr hsome)
  have hnumber : (a.numbers track time)[k]? = some (some value) := by simp [Animation.numbers, hw, hvalue]
  have hnumber' : (a'.numbers track' time)[k]? = some (some value) := by simp [Animation.numbers, hw', hkeys, hvalue]
  obtain ⟨x, hx⟩ : ∃ x, rest.scalars[k]? = some x := ⟨_, List.getElem?_eq_getElem (l := rest.scalars) hlength⟩
  obtain ⟨x', hx'⟩ : ∃ x, rest'.scalars[k]? = some x := ⟨_, List.getElem?_eq_getElem (l := rest'.scalars) hlength⟩
  rw [h.scalars_eq, h'.scalars_eq]
  simp [List.getElem?_zipWith, hnumber, hnumber', hx, hx']

theorem Channeled.rotation_congr (h : Channeled a track time rest t) (h' : Channeled a' track' time rest' t')
    (hkeys : track'.windows.rotation.slice a'.rotations = track.windows.rotation.slice a.rotations)
    (hsome : track.windows.rotation.slice a.rotations ≠ []) : t'.rotation = t.rotation := by
  obtain ⟨value, hvalue⟩ : ∃ value, a.rotation? track time = some value :=
    Option.ne_none_iff_exists'.mp (keyed?_eq_none_iff.not.mpr hsome)
  have hvalue' : a'.rotation? track' time = some value := by rw [← hvalue, Animation.rotation?, hkeys]; rfl
  rw [h.rotation_eq, h'.rotation_eq, hvalue, hvalue']
  rfl

def MovedBy (a : Animation) (i : Nat) (track : Track) : Prop :=
  (a.tracks.filter fun t => t.bone.toNat = i) = [track]

variable {i : Nat} {b : Bone}

theorem getElem?_sample (p : Playback) (hb : m.bones[i]? = some b) : (p.sample m)[i]? =
    some ((p.clip.tracks.filter fun t => t.bone.toNat = i).foldl (fun t track => p.applyTrack track t) b.rest) := by
  have hmoved : (p.sample m)[i]? = _ := p.getElem?_moved p.clip.tracks (m.bones.map Bone.rest) i
  rw [hmoved, List.getElem?_map, hb]
  rfl

theorem getElem?_sample_of_unnamed (hb : m.bones[i]? = some b)
    (hnone : ∀ track ∈ p.clip.tracks, track.bone.toNat ≠ i) : (p.sample m)[i]? = some b.rest := by
  have hfilter : (p.clip.tracks.filter fun t => t.bone.toNat = i) = [] := by
    simpa [List.filter_eq_nil_iff] using hnone
  rw [getElem?_sample p hb, hfilter]
  rfl

theorem exists_channeled (hb : m.bones[i]? = some b) (hmoved : MovedBy p.clip i track) :
    ∃ t, (p.sample m)[i]? = some t ∧ Channeled p.clip track p.time b.rest t := by
  refine ⟨p.applyTrack track b.rest, ?_, p.scalars_applyTrack track b.rest, p.rotation_applyTrack track b.rest⟩
  rw [getElem?_sample p hb, hmoved]
  rfl

/-- What the pose of a model is like. -/
structure Poses (p : Playback) (m : Model) (pose : List Transform) : Prop where
  /-- Each window that is cut out fits. -/
  inside : p.sample? m = some pose
  length_eq : pose.length = m.bones.length
  unnamed : ∀ i b, m.bones[i]? = some b → (∀ track ∈ p.clip.tracks, track.bone.toNat ≠ i) → pose[i]? = some b.rest
  channels : ∀ i b track, m.bones[i]? = some b → MovedBy p.clip i track →
    ∃ t, pose[i]? = some t ∧ Channeled p.clip track p.time b.rest t
  /-- The channels at rest are those with empty windows. -/
  scalar_rests : ∀ track ∈ p.clip.tracks, ∀ (k : Nat) (w : Window), track.windows.scalars[k]? = some w →
    ((p.clip.numbers track p.time)[k]? = some none ↔ w.count = 0)
  rotation_rests : ∀ track ∈ p.clip.tracks,
    (p.clip.rotation? track p.time = none ↔ track.windows.rotation.count = 0)
  /-- On another model, by another clip that has the same keyframes in the window of a channel, the channel comes out
  the same at the same time. -/
  elsewhere : ∀ (p' : Playback) (m' : Model) (i i' : Nat) (b b' : Bone) (track track' : Track) (t t' : Transform),
    p'.time = p.time → m.bones[i]? = some b → m'.bones[i']? = some b' → MovedBy p.clip i track →
    MovedBy p'.clip i' track' → pose[i]? = some t → (p'.sample m')[i']? = some t' →
    (∀ (k : Nat) (w w' : Window), track.windows.scalars[k]? = some w → track'.windows.scalars[k]? = some w' →
      w'.slice p'.clip.coords = w.slice p.clip.coords → w.slice p.clip.coords ≠ [] → t'.scalars[k]? = t.scalars[k]?) ∧
    (track'.windows.rotation.slice p'.clip.rotations = track.windows.rotation.slice p.clip.rotations →
      track.windows.rotation.slice p.clip.rotations ≠ [] → t'.rotation = t.rotation)

/-- A clip that was accepted for any skeleton can be sampled at any time on any model. -/
theorem sample_poses (p : Playback) (h : p.clip.Accepted boneCount) (m : Model) : Poses p m (p.sample m) := by
  have hfits := Animation.accepted_iff.mp h
  constructor
  · exact sample?_eq hfits m
  · exact (p.length_moved _ _).trans (List.length_map _)
  · intro i b hb hnone
    exact getElem?_sample_of_unnamed hb hnone
  · intro i b track hb hmoved
    exact exists_channeled hb hmoved
  · intro track htrack k w hw
    have hfit := (hfits.tracks track htrack).scalars w (List.mem_of_getElem? hw)
    simp [Animation.numbers, hw, keyed?_eq_none_iff, Window.slice_eq_nil_iff hfit.stop_le]
  · intro track htrack
    have hfit := (hfits.tracks track htrack).rotation
    exact keyed?_eq_none_iff.trans (Window.slice_eq_nil_iff hfit.stop_le)
  · intro p' m' i i' b b' track track' t t' htime hb hb' hmoved hmoved' ht ht'
    obtain ⟨u, hu, hchannels⟩ := exists_channeled hb hmoved
    obtain ⟨u', hu', hchannels'⟩ := exists_channeled hb' hmoved'
    cases ht.symm.trans hu
    cases ht'.symm.trans hu'
    rw [htime] at hchannels'
    constructor
    · intro k w w' hw hw' hkeys hsome
      exact hchannels.getElem?_scalars hchannels' hw hw' hkeys hsome
    · intro hkeys hsome
      exact hchannels.rotation_congr hchannels' hkeys hsome

/-- A clip for three bones, two windows of which overlap. The last bone has two tracks. -/
def overlapping : Animation where
  id := 4
  duration := .one
  tracks := [⟨0, ⟨⟨0, 2⟩, ⟨3, 0⟩, ⟨0, 0⟩, ⟨0, 0⟩, ⟨1, 2⟩, ⟨0, 0⟩, ⟨0, 1⟩⟩⟩,
    ⟨2, ⟨⟨0, 1⟩, ⟨0, 1⟩, ⟨0, 1⟩, ⟨0, 0⟩, ⟨0, 0⟩, ⟨0, 0⟩, ⟨0, 0⟩⟩⟩,
    ⟨2, ⟨⟨2, 1⟩, ⟨0, 0⟩, ⟨0, 0⟩, ⟨0, 0⟩, ⟨0, 0⟩, ⟨0, 0⟩, ⟨0, 1⟩⟩⟩]
  coords := [⟨.zero, .zero⟩, ⟨.one, ⟨0x40000000⟩⟩, ⟨⟨0x40000000⟩, ⟨0x40400000⟩⟩]
  rotations := [⟨.one, ⟨.one, .zero, .zero, .zero⟩⟩]

/-- At a time that is no number, on a model that lacks the last bone. -/
theorem sample_poses_overlapping :
    let p : Playback := ⟨overlapping, .nan, true⟩
    let m : Model := ⟨1, [.root, ⟨some 0, ⟨.one, .identity, .zero⟩⟩], [], []⟩
    overlapping.Accepted 3 ∧ Poses p m (p.sample m) ∧
      p.sample? m = some [⟨⟨⟨0x40000000⟩, .zero, .zero⟩, ⟨.one, .zero, .zero, .zero⟩, ⟨.one, ⟨0x40400000⟩, .one⟩⟩,
        ⟨.one, .identity, .zero⟩] := by
  intro p m
  have haccepted : overlapping.Accepted 3 := .given (Animation.ofParts_eq_ok_iff.mpr ⟨rfl, by decide⟩)
  have hposes := sample_poses p haccepted m
  exact ⟨haccepted, hposes, by decide +kernel⟩

end Playback
end NovelEngine
