import Mathlib.Data.List.Forall2
import NovelEngine.Proofs.Asset.Clips
import NovelEngine.Proofs.Asset.Extent

/-!
# Writing what was read

Two bytes of every track mean nothing; they are skipped when a clip is read, and written as zero. All other bytes of a
clip are written as they were read, those of keyframes that no track uses and of windows with nothing in them too. So the
bytes of a clip, apart from the pads, can be told from the clip.
-/
namespace NovelEngine

open Reader

/-- Whether a byte of a clip is one of the two that every track leaves open. -/
def IsPad (tracks i : Nat) : Prop := 16 ≤ i ∧ i < 16 + 46 * tracks ∧ ((i - 16) % 46 = 2 ∨ (i - 16) % 46 = 3)

instance (tracks : Nat) : DecidablePred (IsPad tracks) := fun i =>
  inferInstanceAs (Decidable (16 ≤ i ∧ i < 16 + 46 * tracks ∧ ((i - 16) % 46 = 2 ∨ (i - 16) % 46 = 3)))

/-- The bytes of a clip with zeros for pads. -/
def clearPads (tracks : Nat) (bytes : Bytes) : Bytes := bytes.mapIdx fun i b => if IsPad tracks i then 0 else b

/-- The pads of a clip in front of other bytes are zero. -/
def ZeroPads (tracks : Nat) (bytes : Bytes) : Prop := ∀ i, IsPad tracks i → bytes[i]? = some 0

/-- The pads of tracks, counted from the first of them. -/
def clearTracks (bytes : Bytes) : Bytes := bytes.mapIdx fun i b => if i % 46 = 2 ∨ i % 46 = 3 then 0 else b

theorem mapIdx_eq_self {f : Nat → UInt8 → UInt8} {bytes : Bytes} (h : ∀ i < bytes.length, ∀ b, f i b = b) :
    bytes.mapIdx f = bytes := by
  apply List.ext_getElem
  · exact List.length_mapIdx
  · intro i hi hi'
    rw [List.getElem_mapIdx, h i hi']

@[simp] theorem length_clearPads (tracks : Nat) (bytes : Bytes) : (clearPads tracks bytes).length = bytes.length :=
  List.length_mapIdx

theorem clearPads_append {tracks : Nat} {front chunks : Bytes} (hfront : front.length = 16)
    (hchunks : chunks.length = 46 * tracks) (rest : Bytes) :
    clearPads tracks (front ++ (chunks ++ rest)) = front ++ (clearTracks chunks ++ rest) := by
  have hbefore : front.mapIdx (fun i b => if IsPad tracks i then 0 else b) = front :=
    mapIdx_eq_self fun i hi b => if_neg (by simp only [IsPad]; omega)
  have hbehind : rest.mapIdx (fun i b => if IsPad tracks (i + chunks.length + front.length) then 0 else b) = rest :=
    mapIdx_eq_self fun i hi b => if_neg (by simp only [IsPad]; omega)
  rw [clearPads, List.mapIdx_append, List.mapIdx_append, hbefore, hbehind, clearTracks]
  congr 2
  apply List.mapIdx_eq_mapIdx_iff.mpr
  intro i hi
  have hpad : IsPad tracks (i + front.length) ↔ i % 46 = 2 ∨ i % 46 = 3 := by
    simp only [IsPad, hfront, Nat.add_sub_cancel]
    omega
  simp only [hpad]

theorem clearTracks_append {chunk chunks : Bytes} (h : chunk.length = 46) :
    clearTracks (chunk ++ chunks) = clearTracks chunk ++ clearTracks chunks := by
  simp only [clearTracks, List.mapIdx_append, h, Nat.add_mod_right]

theorem clearTracks_pad {bone pad windows : Bytes} (hbone : bone.length = 2) (hpad : pad.length = 2)
    (hwindows : windows.length = 42) : clearTracks (bone ++ (pad ++ windows)) = bone ++ (u16Bytes 0 ++ windows) := by
  have hbefore : bone.mapIdx (fun i b => if i % 46 = 2 ∨ i % 46 = 3 then 0 else b) = bone :=
    mapIdx_eq_self fun i hi b => if_neg (by omega)
  have hbehind : windows.mapIdx (fun i b => if (i + pad.length + bone.length) % 46 = 2 ∨
      (i + pad.length + bone.length) % 46 = 3 then 0 else b) = windows :=
    mapIdx_eq_self fun i hi b => if_neg (by omega)
  rw [clearTracks, List.mapIdx_append, List.mapIdx_append, hbefore, hbehind]
  obtain ⟨x, y, rfl⟩ := List.length_eq_two.mp hpad
  simp [hbone, u16Bytes, toLittleEndian]

theorem ZeroPads.clearPads_take {tracks : Nat} {bytes : Bytes} (h : ZeroPads tracks bytes) (n : Nat) :
    clearPads tracks (bytes.take n) = bytes.take n := by
  apply List.ext_getElem
  · exact length_clearPads tracks _
  · intro i hi hi'
    simp only [clearPads, List.getElem_mapIdx, List.getElem_take]
    split
    · rename_i hpad
      have hzero := h i hpad
      rw [List.length_take] at hi'
      rw [List.getElem?_eq_getElem (by omega), Option.some.injEq] at hzero
      exact hzero.symm
    · rfl

namespace Animation

variable {a b : Animation} {id : UInt16} {boneCount : Nat} {blob : Bytes}

theorem spells_channels {α : Type} {item : Reader α} {form : α → Bytes}
    (h : Spells item fun chunk a => chunk = form a) :
    Spells (Channels.read item) fun chunk c => chunk = c.toList.flatMap form := by
  refine h.bind fun _ _ h₁ => h.bind fun _ _ h₂ => h.bind fun _ _ h₃ => h.bind fun _ _ h₄ => h.bind fun _ _ h₅ =>
    h.bind fun _ _ h₆ => h.bind fun _ _ h₇ => spells_pure ?_
  simp [Channels.toList, Channels.scalars, h₁, h₂, h₃, h₄, h₅, h₆, h₇]

theorem length_trackBytes (t : Track) : (trackBytes t).length = 46 := by
  simp [trackBytes, u16Bytes, Channels.toList, Channels.scalars]

theorem spells_readTrack : Spells readTrack fun chunk t => chunk.length = 46 ∧ clearTracks chunk = trackBytes t := by
  refine spells_u16.bind fun _ bone h₁ => spells_u16.bind fun _ pad h₂ =>
    (spells_channels spells_u32).bind fun _ offsets h₃ => (spells_channels spells_u16).bind fun _ counts h₄ =>
      spells_pure ?_
  have hwindows : (offsets.toList.flatMap wordBytes ++ counts.toList.flatMap u16Bytes).length = 42 := by
    simp [Channels.toList, Channels.scalars]
  have hform : trackBytes ⟨bone, offsets.zipWith Window.mk counts⟩ =
      u16Bytes bone ++ (u16Bytes 0 ++ (offsets.toList.flatMap wordBytes ++ counts.toList.flatMap u16Bytes)) := by
    simp [trackBytes, Channels.zipWith, Channels.toList, Channels.scalars]
  rw [h₁, h₂, h₃, h₄, List.append_nil]
  refine ⟨?_, ?_⟩
  · rw [List.length_append, List.length_append, hwindows, length_u16Bytes, length_u16Bytes]
  · rw [hform, clearTracks_pad (length_u16Bytes bone) (length_u16Bytes pad) hwindows]

theorem spells_readKeyframe {α : Type} {value : Reader α} {form : α → Bytes}
    (h : Spells value fun chunk a => chunk = form a) :
    Spells (readKeyframe value) fun chunk k => chunk = singleBytes k.time ++ form k.value := by
  refine spells_single.bind fun _ time h₁ => h.bind fun _ v h₂ => spells_pure ?_
  simp [h₁, h₂]

theorem spells_keyframes {α : Type} {value : Reader α} {form : α → Bytes}
    (h : Spells value fun chunk a => chunk = form a) (count : Nat) :
    Spells (many (readKeyframe value) count) fun chunks l =>
      l.length = count ∧ chunks = l.flatMap fun k => singleBytes k.time ++ form k.value := by
  refine spells_many (spells_readKeyframe h) rfl ?_ count
  intro chunk k chunks l hk hl
  rw [hk, hl, List.flatMap_cons]

theorem spells_tracks (count : Nat) : Spells (many readTrack count) fun chunks l =>
    l.length = count ∧ chunks.length = 46 * l.length ∧ clearTracks chunks = l.flatMap trackBytes := by
  refine spells_many spells_readTrack ⟨rfl, rfl⟩ ?_ count
  intro chunk t chunks l ht hl
  refine ⟨?_, ?_⟩
  · rw [List.length_append, ht.1, hl.1, List.length_cons]
    omega
  · rw [clearTracks_append ht.1, ht.2, hl.2, List.flatMap_cons]

theorem spells_read (id : UInt16) (boneCount : Nat) :
    Spells (read id boneCount) fun chunk a => clearPads a.tracks.length chunk = a.write := by
  refine spells_single.bind fun c₁ duration h₁ => spells_u32.bind fun c₂ trackCount h₂ =>
    spells_u32.bind fun c₃ coordCount h₃ => spells_u32.bind fun c₄ rotationCount h₄ => ?_
  apply spells_ite
  · exact spells_throw_bind _ _
  · refine (spells_tracks _).bind fun cs tracks htracks => (spells_keyframes spells_single _).bind fun ks coords hcoords =>
      (spells_keyframes spells_quat _).bind fun qs rotations hrotations => spells_lift fun a ha => ?_
    obtain ⟨rfl, -⟩ := ofParts_eq_ok_iff.mp ha
    have hfront : (c₁ ++ (c₂ ++ (c₃ ++ c₄))).length = 16 := by simp [h₁, h₂, h₃, h₄]
    have hpads := clearPads_append hfront htracks.2.1 (ks ++ qs)
    have hwrite : c₁ ++ (c₂ ++ (c₃ ++ c₄)) ++ (tracks.flatMap trackBytes ++ (ks ++ qs)) =
        write ⟨id, duration, tracks, coords, rotations⟩ := by
      simp [write, h₁, h₂, h₃, h₄, htracks.1, hcoords, hrotations]
    rw [htracks.2.2, hwrite] at hpads
    simpa using hpads

def size (a : Animation) : Nat := 16 + 46 * a.tracks.length + 8 * a.coords.length + 20 * a.rotations.length

theorem length_write (a : Animation) : a.write.length = a.size := by
  simp [write, size, length_trackBytes]
  omega

/-- A clip that is loaded takes the front of its bytes, and writing it again changes nothing there but the pads. -/
theorem clearPads_of_load (h : load blob id boneCount = .ok a) : a.size ≤ blob.length ∧
    read id boneCount blob = .ok (a, blob.drop a.size) ∧ a.write = clearPads a.tracks.length (blob.take a.size) := by
  obtain ⟨rest, hread⟩ := run_eq_ok_iff.mp h
  obtain ⟨chunk, rfl, hchunk⟩ := spells_read id boneCount blob a rest hread
  have hlength : chunk.length = a.size := by rw [← length_clearPads a.tracks.length chunk, hchunk, length_write]
  rw [← hlength, List.take_left, List.drop_left]
  exact ⟨by simp, hread, hchunk.symm⟩

theorem take_size_of_load (h : load blob id boneCount = .ok a) (hpads : ZeroPads a.tracks.length blob) :
    blob.take a.size = a.write := by
  rw [(clearPads_of_load h).2.2, hpads.clearPads_take]

end Animation

/-- The same number, or none both times. -/
def Single.Same (x y : Single) : Prop := x = y ∨ x.isNaN = true ∧ y.isNaN = true

def Keyframe.Same {α : Type} (same : α → α → Prop) (k l : Keyframe α) : Prop :=
  k.time.Same l.time ∧ same k.value l.value

/-- The same clip, whatever its id, when values that are no numbers are not told apart. -/
structure Animation.Same (a b : Animation) : Prop where
  duration : a.duration.Same b.duration
  tracks : a.tracks = b.tracks
  coords : List.Forall₂ (Keyframe.Same Single.Same) a.coords b.coords
  rotations : List.Forall₂ (Keyframe.Same fun q r => List.Forall₂ Single.Same q.toList r.toList) a.rotations b.rotations

/-- The numbers in the bytes of a clip: the duration in front, and behind the tracks those of the keyframes. -/
def singlesAt (tracks : Nat) (bytes : Bytes) : List Single :=
  (words (bytes.take 4 ++ bytes.drop (16 + 46 * tracks))).map Single.mk

structure SameBytes (tracks : Nat) (bytes bytes' : Bytes) : Prop where
  length_eq : bytes.length = bytes'.length
  between : (bytes.take (16 + 46 * tracks)).drop 4 = (bytes'.take (16 + 46 * tracks)).drop 4
  singles : List.Forall₂ Single.Same (singlesAt tracks bytes) (singlesAt tracks bytes')

namespace Animation

variable {a b : Animation} {id : UInt16} {boneCount : Nat} {blob : Bytes}

def betweenBytes (a : Animation) : Bytes :=
  wordBytes (UInt32.ofNat a.tracks.length) ++ wordBytes (UInt32.ofNat a.coords.length) ++
    wordBytes (UInt32.ofNat a.rotations.length) ++ a.tracks.flatMap trackBytes

/-- The numbers of the keyframes in the order in which they are written. -/
def keySingles (a : Animation) : List Single :=
  a.coords.flatMap (fun k => [k.time, k.value]) ++ a.rotations.flatMap fun k => k.time :: k.value.toList

theorem write_eq (a : Animation) :
    a.write = singleBytes a.duration ++ (a.betweenBytes ++ a.keySingles.flatMap singleBytes) := by
  simp [write, betweenBytes, keySingles, quatBytes, List.flatMap_assoc]

theorem length_betweenBytes (a : Animation) : a.betweenBytes.length = 12 + 46 * a.tracks.length := by
  simp [betweenBytes, length_trackBytes]
  omega

theorem words_singles (l : List Single) : (words (l.flatMap singleBytes)).map Single.mk = l := by
  have hwords := words_flatMap_append (l.map Single.bits) []
  rw [List.flatMap_map, List.append_nil, words_nil, List.append_nil] at hwords
  show (words (l.flatMap fun x => wordBytes x.bits)).map Single.mk = l
  rw [hwords, List.map_map]
  exact List.map_id l

theorem singlesAt_write (a : Animation) : singlesAt a.tracks.length a.write = a.duration :: a.keySingles := by
  have hfront : a.write.take 4 = singleBytes a.duration := by
    rw [write_eq]
    exact List.take_left' (length_singleBytes _)
  have hkeys : a.write.drop (16 + 46 * a.tracks.length) = a.keySingles.flatMap singleBytes := by
    rw [write_eq, ← List.append_assoc]
    apply List.drop_left'
    rw [List.length_append, length_singleBytes, length_betweenBytes]
    omega
  rw [singlesAt, hfront, hkeys, ← List.flatMap_cons, words_singles]

theorem between_write (a : Animation) :
    (a.write.take (16 + 46 * a.tracks.length)).drop 4 = a.betweenBytes := by
  have hfront : (singleBytes a.duration ++ a.betweenBytes).length = 16 + 46 * a.tracks.length := by
    rw [List.length_append, length_singleBytes, length_betweenBytes]
    omega
  rw [write_eq, ← List.append_assoc, List.take_left' hfront, List.drop_left' (length_singleBytes _)]

theorem Same.keySingles (h : a.Same b) : List.Forall₂ Single.Same a.keySingles b.keySingles := by
  apply List.rel_append
  · refine List.rel_flatMap h.coords fun k l hkey => ?_
    exact .cons hkey.1 (.cons hkey.2 .nil)
  · refine List.rel_flatMap h.rotations fun k l hkey => ?_
    exact .cons hkey.1 hkey.2

theorem Same.betweenBytes (h : a.Same b) : a.betweenBytes = b.betweenBytes := by
  simp only [Animation.betweenBytes, h.tracks, h.coords.length_eq, h.rotations.length_eq]

theorem Same.write (h : a.Same b) : SameBytes a.tracks.length a.write b.write where
  length_eq := by
    simp only [length_write, size, h.tracks, h.coords.length_eq, h.rotations.length_eq]
  between := by
    rw [between_write, h.betweenBytes, h.tracks, between_write]
  singles := by
    rw [singlesAt_write, h.tracks, singlesAt_write]
    exact .cons h.duration h.keySingles

/-- Writing a clip that was loaded gives back the bytes that it took, with zeros for pads; so clips that are the same come
from the same bytes, pads apart. -/
theorem write_of_load (h : load blob id boneCount = .ok a) :
    (a.size ≤ blob.length ∧ read id boneCount blob = .ok (a, blob.drop a.size)) ∧
      a.write = clearPads a.tracks.length (blob.take a.size) ∧
      ∀ (blob' : Bytes) (id' : UInt16) (boneCount' : Nat) (a' : Animation), load blob' id' boneCount' = .ok a' →
        ZeroPads a.tracks.length blob → ZeroPads a'.tracks.length blob' →
        (a = a' → blob.take a.size = blob'.take a'.size) ∧
          (a.Same a' → SameBytes a.tracks.length (blob.take a.size) (blob'.take a'.size)) := by
  obtain ⟨hsize, hread, hwrite⟩ := clearPads_of_load h
  refine ⟨⟨hsize, hread⟩, hwrite, ?_⟩
  intro blob' id' boneCount' a' h' hpads hpads'
  rw [take_size_of_load h hpads, take_size_of_load h' hpads']
  exact ⟨congrArg write, Same.write⟩

/-- A clip with a keyframe outside its one window, and an empty window that begins behind the first rotation. -/
def spareClip (nan : UInt32) : Animation :=
  ⟨4, ⟨nan⟩, [⟨0, ⟨⟨1, 1⟩, ⟨0, 0⟩, ⟨0, 0⟩, ⟨0, 0⟩, ⟨0, 0⟩, ⟨0, 0⟩, ⟨1, 0⟩⟩⟩], [⟨.one, ⟨nan⟩⟩, ⟨.zero, .one⟩],
    [⟨⟨nan⟩, .identity⟩]⟩

def spareFile (pad : UInt16) (nan : UInt32) : Bytes :=
  wordBytes nan ++ wordBytes 1 ++ wordBytes 2 ++ wordBytes 1 ++
    (u16Bytes 0 ++ u16Bytes pad ++ wordBytes 1 ++ List.replicate 20 0 ++ wordBytes 1 ++ u16Bytes 1 ++
      List.replicate 12 0) ++
    (singleBytes .one ++ wordBytes nan ++ singleBytes .zero ++ singleBytes .one) ++
    (wordBytes nan ++ quatBytes .identity) ++ [7, 7]

theorem write_of_load_spare :
    (load (spareFile 9 0x7FC00001) 4 1 = .ok (spareClip 0x7FC00001) ∧
      (spareClip 0x7FC00001).write = clearPads 1 ((spareFile 9 0x7FC00001).take 98)) ∧
    load (spareFile 0 0x7FC00001) 4 1 = .ok (spareClip 0x7FC00001) ∧
      load (spareFile 0 0xFFC00000) 4 1 = .ok (spareClip 0xFFC00000) ∧
      SameBytes 1 ((spareFile 0 0x7FC00001).take 98) ((spareFile 0 0xFFC00000).take 98) := by
  have hpadded : load (spareFile 9 0x7FC00001) 4 1 = .ok (spareClip 0x7FC00001) := by rfl
  have hload : load (spareFile 0 0x7FC00001) 4 1 = .ok (spareClip 0x7FC00001) := by rfl
  have hload' : load (spareFile 0 0xFFC00000) 4 1 = .ok (spareClip 0xFFC00000) := by rfl
  have hpads (nan : UInt32) : ZeroPads 1 (spareFile 0 nan) := by
    intro i hi
    have hpad : i = 18 ∨ i = 19 := by
      simp only [IsPad] at hi
      omega
    obtain rfl | rfl := hpad <;> rfl
  have hsame : (spareClip 0x7FC00001).Same (spareClip 0xFFC00000) := by
    refine ⟨.inr ⟨rfl, rfl⟩, rfl, .cons ⟨.inl rfl, .inr ⟨rfl, rfl⟩⟩ (.cons ⟨.inl rfl, .inl rfl⟩ .nil), ?_⟩
    exact .cons ⟨.inr ⟨rfl, rfl⟩, List.forall₂_same.mpr fun x _ => .inl rfl⟩ .nil
  obtain ⟨-, hwrite, -⟩ := write_of_load hpadded
  obtain ⟨-, -, hsingle⟩ := write_of_load hload
  exact ⟨⟨hpadded, hwrite⟩, hload, hload', (hsingle _ 4 1 _ hload' (hpads _) (hpads _)).2 hsame⟩

end Animation
end NovelEngine
