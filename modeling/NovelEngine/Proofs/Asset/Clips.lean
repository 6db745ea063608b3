import NovelEngine.Asset.Animation
import NovelEngine.Proofs.Asset.Reading

/-!
# Clips in files

A clip that passes the checks of a skeleton is read off its written form, if its keyframes can be counted in 32 bits;
and every clip that is read passes the checks.
-/
namespace NovelEngine

variable {α : Type}

/-- The counts of written lists are exact below this length. -/
def wordSpan : Nat := 0x100000000

theorem toNat_ofNat_of_lt_wordSpan {n : Nat} (h : n < wordSpan) : (UInt32.ofNat n).toNat = n :=
  UInt32.toNat_ofNat_of_lt' h

def Channels.map {β : Type} (f : α → β) (c : Channels α) : Channels β := c.zipWith (fun a _ => f a) c

theorem Channels.reads_read {β : Type} {item : Reader β} {bytes : α → Bytes} {f : α → β}
    (h : ∀ a, Reader.Reads item (bytes a) (f a)) (c : Channels α) :
    Reader.Reads (Channels.read item) (c.toList.flatMap bytes) (c.map f) := by
  apply Reader.Reads.of_eq
  · exact (h c.positionX).bind ((h c.positionY).bind ((h c.positionZ).bind ((h c.scaleX).bind
      ((h c.scaleY).bind ((h c.scaleZ).bind ((h c.rotation).bind (Reader.reads_pure _)))))))
  · simp [Channels.toList, Channels.scalars]

namespace Animation

variable {a : Animation} {boneCount : Nat} {id : UInt16} {blob : Bytes}

theorem reads_readTrack (t : Track) : Reader.Reads readTrack (trackBytes t) t := by
  have hoffsets := Channels.reads_read (fun w : Window => Reader.reads_u32 w.offset) t.windows
  have hcounts := Channels.reads_read (fun w : Window => Reader.reads_u16 w.count) t.windows
  apply Reader.Reads.of_eq
  · exact (Reader.reads_u16 t.bone).bind ((Reader.reads_u16 0).bind
      (hoffsets.bind (hcounts.bind (Reader.reads_pure _))))
  · simp [trackBytes]

theorem reads_readKeyframe {value : Reader α} {bytes : α → Bytes} {k : Keyframe α}
    (h : Reader.Reads value (bytes k.value) k.value) :
    Reader.Reads (readKeyframe value) (singleBytes k.time ++ bytes k.value) k := by
  apply Reader.Reads.of_eq
  · exact (Reader.reads_single k.time).bind (h.bind (Reader.reads_pure _))
  · simp

theorem length_tracks_le (h : a.check boneCount = .ok ()) : a.tracks.length ≤ maxBones := by
  unfold check at h
  split at h
  · cases h
  · omega

theorem ofParts_eq_ok_iff {duration : Single} {tracks : List Track} {coords : List (Keyframe Single)}
    {rotations : List (Keyframe Quat)} : ofParts id duration tracks coords rotations boneCount = .ok a ↔
      a = ⟨id, duration, tracks, coords, rotations⟩ ∧ a.check boneCount = .ok () := by
  simp only [ofParts, bind_eq_ok_iff_exists]
  constructor
  · rintro ⟨done, hcheck, h⟩
    cases h
    exact ⟨rfl, hcheck⟩
  · rintro ⟨rfl, hcheck⟩
    exact ⟨⟨⟩, hcheck, rfl⟩

theorem ofParts_eq_of_lt {duration : Single} {tracks : List Track} {coords : List (Keyframe Single)}
    {rotations : List (Keyframe Quat)} (h : maxBones < tracks.length) :
    ofParts id duration tracks coords rotations boneCount = .error (.tooManyBones tracks.length maxBones) := by
  simp only [ofParts, check, if_pos h]
  rfl

/-- The parts of any clip, sound or not, are read off their written form, and then they are checked. -/
theorem read_write_append (htracks : a.tracks.length < wordSpan) (hcoords : a.coords.length < wordSpan)
    (hrotations : a.rotations.length < wordSpan) (rest : Bytes) : read a.id boneCount (a.write ++ rest) =
      (liftM (ofParts a.id a.duration a.tracks a.coords a.rotations boneCount) : Reader Animation) rest := by
  have htrackList : Reader.Reads (Reader.many readTrack a.tracks.length) (a.tracks.flatMap trackBytes) a.tracks :=
    Reader.reads_many fun t _ => reads_readTrack t
  have hcoordList : Reader.Reads (Reader.many (readKeyframe Reader.single) a.coords.length)
      (a.coords.flatMap fun k => singleBytes k.time ++ singleBytes k.value) a.coords :=
    Reader.reads_many fun k _ => reads_readKeyframe (Reader.reads_single k.value)
  have hrotationList : Reader.Reads (Reader.many (readKeyframe Reader.quat) a.rotations.length)
      (a.rotations.flatMap fun k => singleBytes k.time ++ quatBytes k.value) a.rotations :=
    Reader.reads_many fun k _ => reads_readKeyframe (Reader.reads_quat k.value)
  simp only [read, write, List.append_assoc]
  rw [(Reader.reads_single a.duration).bind_append, (Reader.reads_u32 _).bind_append,
    (Reader.reads_u32 _).bind_append, (Reader.reads_u32 _).bind_append, toNat_ofNat_of_lt_wordSpan htracks,
    toNat_ofNat_of_lt_wordSpan hcoords, toNat_ofNat_of_lt_wordSpan hrotations]
  by_cases hmax : maxBones < a.tracks.length
  · -- The reader gives up before the tracks; the checks of the parts begin with the same one.
    rw [if_pos hmax, ofParts_eq_of_lt hmax]
    rfl
  · rw [if_neg hmax, htrackList.bind_append, hcoordList.bind_append, hrotationList.bind_append]

theorem reads_read (hcheck : a.check boneCount = .ok ()) (hcoords : a.coords.length < wordSpan)
    (hrotations : a.rotations.length < wordSpan) : Reader.Reads (read a.id boneCount) a.write a := by
  have hle := length_tracks_le hcheck
  have hmax : maxBones < wordSpan := by decide
  have hparts : ofParts a.id a.duration a.tracks a.coords a.rotations boneCount = .ok a :=
    ofParts_eq_ok_iff.mpr ⟨rfl, hcheck⟩
  intro rest
  rw [read_write_append (by omega) hcoords hrotations]
  exact Reader.reads_lift hparts rest

theorem load_of_check (hcheck : a.check boneCount = .ok ()) (hcoords : a.coords.length < wordSpan)
    (hrotations : a.rotations.length < wordSpan) : load a.write a.id boneCount = .ok a :=
  (reads_read hcheck hcoords hrotations).run_eq

theorem check_of_load (h : load blob id boneCount = .ok a) : a.check boneCount = .ok () := by
  refine Reader.Grants.run_eq (p := fun a => a.check boneCount = .ok ()) ?_ h
  refine Reader.grants_bind fun duration => Reader.grants_bind fun trackCount => Reader.grants_bind fun coordCount =>
    Reader.grants_bind fun rotationCount => Reader.grants_ite (fun _ => ?_) fun _ => ?_
  · exact Reader.grants_throw_bind _ _
  · refine Reader.grants_bind fun tracks => Reader.grants_bind fun coords => Reader.grants_bind fun rotations => ?_
    apply Reader.grants_lift
    intro clip hclip
    exact (ofParts_eq_ok_iff.mp hclip).2

theorem length_keys_le (a : Animation) :
    a.coords.length ≤ a.write.length ∧ a.rotations.length ≤ a.write.length := by
  have hcoords := length_le_length_flatMap (fun k : Keyframe Single => singleBytes k.time ++ singleBytes k.value)
    (by simp [singleBytes]) a.coords
  have hrotations := length_le_length_flatMap (fun k : Keyframe Quat => singleBytes k.time ++ quatBytes k.value)
    (by intro k; simp only [singleBytes, List.length_append, length_wordBytes]; omega) a.rotations
  simp only [write, List.length_append]
  omega

end Animation
end NovelEngine
