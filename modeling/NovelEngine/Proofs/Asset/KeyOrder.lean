import Mathlib.Data.List.Chain
import NovelEngine.Proofs.Asset.Checks

/-!
# The order of keyframes

The check of a window compares each time with the one before it. A time that is no number compares with nothing, so that
it cuts a window into stretches: times are in order within a stretch, but not across the cut. A window whose times are
all numbers is one stretch.
-/
namespace NovelEngine

variable {α : Type}

namespace Single

theorem le_of_not_lt {a b : Single} (ha : a.isNaN = false) (hb : b.isNaN = false) (h : ¬ b < a) : a ≤ b :=
  (not_lt_iff_le hb ha).mp h

theorem not_lt_of_le {a b : Single} (h : a ≤ b) : ¬ b < a := (not_lt_iff_le h.2.1 h.1).mpr h

instance : Trans (fun a b : Single => a ≤ b) (fun a b => a ≤ b) (fun a b => a ≤ b) := ⟨le_trans⟩

end Single

/-- In each stretch of numbers no time is after a later one. -/
def InOrder (times : List Single) : Prop :=
  ∀ stretch, stretch <:+: times → (∀ x ∈ stretch, x.isNaN = false) → stretch.Pairwise (· ≤ ·)

theorem timesSorted_iff_isChain (times : List Single) : timesSorted times = true ↔ times.IsChain fun a b => ¬ b < a := by
  fun_induction timesSorted times with
  | case1 a b rest ih => simp [ih, List.isChain_cons_cons]
  | case2 times hshort =>
    match times, hshort with
    | [], _ => simp
    | [a], _ => simp
    | a :: b :: rest, hshort => exact absurd rfl (hshort a b rest)

/-- Comparing neighbours is as good as comparing all pairs, stretch by stretch. -/
theorem timesSorted_iff_inOrder (times : List Single) : timesSorted times = true ↔ InOrder times := by
  rw [timesSorted_iff_isChain]
  constructor
  · intro hchain stretch hstretch hnumbers
    have hpart := List.IsChain.infix hchain hstretch
    have hle : stretch.IsChain (· ≤ ·) := by
      refine hpart.imp_of_mem_imp ?_
      intro a b ha hb hab
      exact Single.le_of_not_lt (hnumbers a ha) (hnumbers b hb) hab
    exact hle.pairwise
  · intro horder
    refine (List.isChain_isInfix times).imp ?_
    intro a b hpair hlt
    -- Two times that compare are numbers, so that the pair is a stretch.
    have hnumbers : ∀ x ∈ [a, b], x.isNaN = false := by
      simp [hlt.1, hlt.2.1]
    have hle : a ≤ b := (List.pairwise_pair).mp (horder [a, b] hpair hnumbers)
    exact Single.not_lt_of_le hle hlt

structure Window.Fits (keys : List (Keyframe α)) (w : Window) : Prop where
  stop_le : w.stop ≤ keys.length
  inOrder : InOrder ((w.slice keys).map Keyframe.time)

theorem Window.faults_eq_nil_iff (keys : List (Keyframe α)) (track : Nat) (channel : String) (w : Window) :
    w.faults keys track channel = [] ↔ w.Fits keys := by
  unfold faults
  split
  · rename_i hlt
    simp only [reduceCtorEq, false_iff]
    intro hfits
    exact absurd hfits.stop_le (Nat.not_le_of_lt hlt)
  · rename_i hle
    split
    · rename_i hsorted
      simp only [true_iff]
      exact ⟨Nat.le_of_not_lt hle, (timesSorted_iff_inOrder _).mp hsorted⟩
    · rename_i hsorted
      simp only [reduceCtorEq, false_iff]
      intro hfits
      exact hsorted ((timesSorted_iff_inOrder _).mpr hfits.inOrder)

namespace Animation

variable {a : Animation} {boneCount : Nat}

structure FitsTrack (a : Animation) (boneCount : Nat) (t : Track) : Prop where
  bone_lt : t.bone.toNat < boneCount
  scalars : ∀ w ∈ t.windows.scalars, w.Fits a.coords
  rotation : t.windows.rotation.Fits a.rotations

/-- What the checks of a clip make sure of. -/
structure Fits (a : Animation) (boneCount : Nat) : Prop where
  length_tracks : a.tracks.length ≤ maxBones
  tracks : ∀ t ∈ a.tracks, a.FitsTrack boneCount t

/-- A clip that is read from a file or given as parts. -/
inductive Accepted (a : Animation) (boneCount : Nat) : Prop
  | loaded {blob : Bytes} {id : UInt16} (h : load blob id boneCount = .ok a)
  | given {id : UInt16} {duration : Single} {tracks : List Track} {coords : List (Keyframe Single)}
      {rotations : List (Keyframe Quat)} (h : ofParts id duration tracks coords rotations boneCount = .ok a)

/-- The times that each of the seven channels of a track goes through. -/
def channelTimes (a : Animation) (t : Track) : List (List Single) :=
  t.windows.scalars.map (fun w => (w.slice a.coords).map Keyframe.time) ++
    [(t.windows.rotation.slice a.rotations).map Keyframe.time]

theorem trackFaults_eq_nil_iff (track : Nat) (t : Track) :
    a.trackFaults boneCount track t = [] ↔ a.FitsTrack boneCount t := by
  have hscalars : (∀ c ∈ Channels.names.scalars.zip t.windows.scalars, c.2.Fits a.coords) ↔
      ∀ w ∈ t.windows.scalars, w.Fits a.coords := by simp [Channels.names, Channels.scalars]
  simp only [trackFaults, List.append_eq_nil_iff, List.flatMap_eq_nil_iff, Window.faults_eq_nil_iff, hscalars]
  constructor
  · rintro ⟨hbone, hwindows, hrotation⟩
    exact ⟨by simpa using hbone, hwindows, hrotation⟩
  · intro h
    exact ⟨if_neg (Nat.not_le_of_lt h.bone_lt), h.scalars, h.rotation⟩

theorem faults_eq_nil_iff : a.faults boneCount = [] ↔ a.Fits boneCount := by
  have htracks : (∀ t ∈ a.tracks.zipIdx, a.FitsTrack boneCount t.1) ↔ ∀ t ∈ a.tracks, a.FitsTrack boneCount t := by
    rw [← List.forall_mem_map (P := a.FitsTrack boneCount), List.zipIdx_map_fst]
  simp only [faults, List.append_eq_nil_iff, List.flatMap_eq_nil_iff, trackFaults_eq_nil_iff, htracks]
  constructor
  · rintro ⟨hlength, hall⟩
    exact ⟨by simpa using hlength, hall⟩
  · intro h
    exact ⟨if_neg (Nat.not_lt_of_le h.length_tracks), h.tracks⟩

theorem check_eq_ok_iff : a.check boneCount = .ok () ↔ a.Fits boneCount := by
  rw [check_eq, ← faults_eq_nil_iff]
  cases a.faults boneCount <;> simp [orFirst]

theorem accepted_iff : a.Accepted boneCount ↔ a.Fits boneCount := by
  rw [← check_eq_ok_iff]
  constructor
  · rintro (h | h)
    · exact check_of_load h
    · obtain ⟨rfl, hcheck⟩ := ofParts_eq_ok_iff.mp h
      exact hcheck
  · intro hcheck
    exact .given (ofParts_eq_ok_iff.mpr ⟨rfl, hcheck⟩)

theorem Fits.inOrder (h : a.Fits boneCount) {t : Track} (ht : t ∈ a.tracks) {times : List Single}
    (htimes : times ∈ a.channelTimes t) : InOrder times := by
  rcases List.mem_append.mp htimes with hscalar | hrotation
  · obtain ⟨w, hw, rfl⟩ := List.mem_map.mp hscalar
    exact ((h.tracks t ht).scalars w hw).inOrder
  · rw [List.mem_singleton.mp hrotation]
    exact (h.tracks t ht).rotation.inOrder

/-- The accepted clips are those whose tracks name bones, whose windows fit and whose times are in order stretch by
stretch. So where all times of a window are numbers, any two of them are in order, and every time parts the window into
the keyframes up to it and those after it. -/
theorem accepted_iff_fits (a : Animation) (boneCount : Nat) : (a.Accepted boneCount ↔ a.Fits boneCount) ∧
    (a.Accepted boneCount → ∀ t ∈ a.tracks, ∀ times ∈ a.channelTimes t, InOrder times ∧
      ((∀ x ∈ times, x.isNaN = false) → times.Pairwise (· ≤ ·) ∧
        ∀ time : Single, times.Pairwise fun x y => y ≤ time → x ≤ time)) := by
  refine ⟨accepted_iff, ?_⟩
  intro haccepted t ht times htimes
  have horder := (accepted_iff.mp haccepted).inOrder ht htimes
  refine ⟨horder, ?_⟩
  intro hnumbers
  have hpairs : times.Pairwise (· ≤ ·) := horder times List.infix_rfl hnumbers
  refine ⟨hpairs, ?_⟩
  intro time
  exact hpairs.imp fun hle htime => Single.le_trans hle htime

/-- A clip that goes back in time from 2 to 1, over a time that is no number, and in another window on to 1.5. -/
def disordered : Animation where
  id := 0
  duration := .one
  tracks := [⟨0, ⟨⟨0, 3⟩, ⟨2, 2⟩, ⟨0, 0⟩, ⟨0, 0⟩, ⟨0, 0⟩, ⟨0, 0⟩, ⟨0, 0⟩⟩⟩]
  coords := [⟨⟨0x40000000⟩, .zero⟩, ⟨.nan, .zero⟩, ⟨.one, .zero⟩, ⟨⟨0x3fc00000⟩, .zero⟩]
  rotations := []

theorem accepted_iff_fits_disordered : disordered.Accepted 1 ∧ InOrder [⟨0x40000000⟩, .nan, .one] ∧
    [Single.one, ⟨0x3fc00000⟩].Pairwise (· ≤ ·) := by
  have haccepted : disordered.Accepted 1 := .given (ofParts_eq_ok_iff.mpr ⟨rfl, by decide⟩)
  have hall := (accepted_iff_fits disordered 1).2 haccepted (disordered.tracks.head (by decide)) (by decide)
  exact ⟨haccepted, (hall _ (by decide)).1, ((hall _ (by decide)).2 (by decide)).1⟩

theorem load_disordered : load disordered.write 0 1 = .ok disordered ∧
    ∃ t ∈ disordered.tracks, ∃ times ∈ disordered.channelTimes t, ¬ times.Pairwise (· ≤ ·) :=
  ⟨load_of_check (a := disordered) (by decide) (by decide) (by decide), by decide⟩

end Animation
end NovelEngine
