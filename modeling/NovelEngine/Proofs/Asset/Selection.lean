import NovelEngine.Asset.Playback
import NovelEngine.Proofs.Asset.KeyOrder

/-!
# The keyframes around a time

In a window of times in order, a time parts the keyframes into those up to it and those after it. The search for the
bracket finds that place. So a value comes from the last keyframe up to the time and the one behind it, and from no
other. The time of the first keyframe is the exception: there the first keyframe counts, even if others share its time.
-/
namespace NovelEngine

variable {α : Type}

/-- The search ends at the last place that holds, or at the first place if none does. -/
theorem bisect_eq {holds : Nat → Bool} {base size cut : Nat} (hsize : 0 < size)
    (hholds : ∀ i < base + size, holds i = true ↔ i < cut) (hbase : base ≤ cut - 1) (hcut : cut ≤ base + size) :
    bisect holds base size = cut - 1 := by
  fun_induction bisect holds base size with
  | case1 base size hsmall => omega
  | case2 base size hlarge half ih =>
    have hhalf : half = size / 2 := rfl
    have hprobe := hholds (base + half) (by omega)
    by_cases hin : holds (base + half) = true
    · rw [dif_pos hin] at ih
      rw [if_pos hin]
      have hlt := hprobe.mp hin
      refine ih (by omega) ?_ (by omega) (by omega)
      intro i hi
      exact hholds i (by omega)
    · rw [dif_neg hin] at ih
      rw [if_neg hin]
      have hle := hprobe.not.mp hin
      refine ih (by omega) ?_ (by omega) (by omega)
      intro i hi
      exact hholds i (by omega)

theorem partitionPoint_eq {holds : Nat → Bool} {size cut : Nat} (hholds : ∀ i < size, holds i = true ↔ i < cut)
    (hcut : cut ≤ size) : partitionPoint holds size = cut := by
  unfold partitionPoint
  split
  · omega
  · have hbase : bisect holds 0 size = cut - 1 :=
      bisect_eq (by omega) (by simpa using hholds) (by omega) (by omega)
    have hlast := hholds (cut - 1) (by omega)
    dsimp only
    rw [hbase, if_congr hlast rfl rfl]
    split <;> omega

/-- `k` is the last keyframe that is not after the time. -/
structure PartsAt (keys : List (Keyframe α)) (time : Single) (before : List (Keyframe α)) (k : Keyframe α)
    (after : List (Keyframe α)) : Prop where
  keys_eq : keys = before ++ k :: after
  before_le : ∀ x ∈ before, x.time ≤ time
  le : k.time ≤ time
  lt_after : ∀ x ∈ after, time < x.time

def between (blend : α → α → Single → α) (k : Keyframe α) (next? : Option (Keyframe α)) (time : Single) : α :=
  match next? with
  | none => k.value
  | some next => blend k.value next.value (blendFactor k.time next.time time)

theorem exists_split {p : α → Prop} {l : List α} (h : l.Pairwise fun x y => p y → p x) :
    ∃ upTo later, l = upTo ++ later ∧ (∀ x ∈ upTo, p x) ∧ ∀ x ∈ later, ¬ p x := by
  induction l with
  | nil => exact ⟨[], [], by simp⟩
  | cons a l ih =>
    obtain ⟨hhead, htail⟩ := List.pairwise_cons.mp h
    by_cases ha : p a
    · obtain ⟨upTo, later, rfl, hupTo, hlater⟩ := ih htail
      exact ⟨a :: upTo, later, rfl, by simpa [ha] using hupTo, hlater⟩
    · refine ⟨[], a :: l, rfl, by simp, ?_⟩
      intro x hx hp
      rcases List.mem_cons.mp hx with rfl | hmem
      · exact ha hp
      · exact ha (hhead x hmem hp)

namespace Single

variable {a b c : Single}

theorem lt_of_not_le (ha : a.isNaN = false) (hb : b.isNaN = false) (h : ¬ a ≤ b) : b < a := by
  rw [← not_lt_iff_le hb ha, Decidable.not_not] at h
  exact h

theorem not_le_of_lt (h : a < b) : ¬ b ≤ a := by
  rw [← not_lt_iff_le h.1 h.2.1, Decidable.not_not]
  exact h

theorem le_of_lt (h : a < b) : a ≤ b := ⟨h.1, h.2.1, Int.le_of_lt h.2.2⟩

end Single

theorem exists_partsAt {first : Keyframe α} {rest : List (Keyframe α)} {time : Single}
    (horder : (first :: rest).Pairwise fun x y => y.time ≤ time → x.time ≤ time)
    (hnumbers : ∀ x ∈ first :: rest, x.time.isNaN = false) (htime : time.isNaN = false) (hle : first.time ≤ time) :
    ∃ before k after, PartsAt (first :: rest) time before k after := by
  obtain ⟨upTo, later, hkeys, hupTo, hlater⟩ := exists_split horder
  rcases List.eq_nil_or_concat' upTo with rfl | ⟨before, k, rfl⟩
  · have hfirst : first ∈ later := by
      rw [List.nil_append] at hkeys
      exact hkeys ▸ List.mem_cons_self
    exact absurd hle (hlater first hfirst)
  · refine ⟨before, k, later, by simp [hkeys], fun x hx => hupTo x (by simp [hx]), hupTo k (by simp), ?_⟩
    intro x hx
    have hnumber := hnumbers x (by simp [hkeys, hx])
    exact Single.lt_of_not_le hnumber htime (hlater x hx)

/-- The bracket is the last keyframe up to the time with the one behind it. -/
theorem PartsAt.bracket_eq {keys before after : List (Keyframe α)} {k : Keyframe α} {time : Single}
    (h : PartsAt keys time before k after) : bracket keys time = after.head?.map fun next => (k, next) := by
  obtain ⟨rfl, hbefore, hk, hafter⟩ := h
  have hpoint : partitionPoint (fun i => ((before ++ k :: after)[i]?).any fun x => decide (x.time ≤ time))
      (before ++ k :: after).length = before.length + 1 := by
    apply partitionPoint_eq
    · intro i hi
      rw [List.getElem?_eq_getElem hi]
      simp only [Option.any_some, decide_eq_true_eq]
      constructor
      · intro hle
        apply Decidable.byContradiction
        intro hlt
        obtain ⟨j, rfl⟩ : ∃ j, i = before.length + (j + 1) := ⟨i - before.length - 1, by omega⟩
        rw [List.getElem_append_right (by omega)] at hle
        simp only [Nat.add_sub_cancel_left, List.getElem_cons_succ] at hle
        exact Single.not_le_of_lt (hafter _ (List.getElem_mem _)) hle
      · intro hlt
        rcases Nat.lt_or_eq_of_le (Nat.le_of_lt_succ hlt) with hlt | rfl
        · rw [List.getElem_append_left hlt]
          exact hbefore _ (List.getElem_mem _)
        · simpa using hk
    · simp
  rw [bracket, hpoint]
  cases after <;> simp

theorem PartsAt.sampleKeys_eq {first : Keyframe α} {rest before after : List (Keyframe α)} {k : Keyframe α}
    {time : Single} (h : PartsAt (first :: rest) time before k after) (hafter : ¬ time ≤ first.time)
    (blend : α → α → Single → α) (restValue : α) :
    sampleKeys blend (first :: rest) time restValue = between blend k after.head? time := by
  have hlast : (first :: rest).getLast? = (before ++ k :: after).getLast? := by rw [h.keys_eq]
  unfold sampleKeys
  rw [hlast, h.bracket_eq]
  cases after with
  | nil => simp [between, hafter]
  | cons next after =>
    rw [List.getLast?_append_cons, List.getLast?_cons_cons, List.getLast?_cons]
    simp [between, hafter]

theorem sampleKeys_eq_first {first : Keyframe α} {time : Single} (h : time ≤ first.time) (rest : List (Keyframe α))
    (blend : α → α → Single → α) (restValue : α) :
    sampleKeys blend (first :: rest) time restValue = first.value := by
  rw [sampleKeys, List.head?_cons, List.getLast?_cons]
  exact if_pos h

/-- The value of a channel with keyframes, at a time. -/
structure Selects (blend : α → α → Single → α) (first : Keyframe α) (rest : List (Keyframe α)) (time : Single)
    (value : α) : Prop where
  early : time < first.time → value = first.value
  /-- From the first keyframe on there is one that the value is taken from. -/
  parted : ¬ time < first.time → ∃ before k after, PartsAt (first :: rest) time before k after
  late : ∀ before k after, PartsAt (first :: rest) time before k after → first.time < time →
    value = between blend k after.head? time
  /-- At the time of the first keyframe the value is the first one, also where others follow at that time. -/
  start : ∀ before k after, PartsAt (first :: rest) time before k after → time ≤ first.time →
    value = first.value ∧ (before = [] → value = k.value)

theorem Window.Fits.pairwise_le {keys : List (Keyframe α)} {w : Window} (h : w.Fits keys)
    (hnumbers : ∀ k ∈ w.slice keys, k.time.isNaN = false) :
    (w.slice keys).Pairwise fun x y => x.time ≤ y.time := by
  have htimes : ∀ t ∈ (w.slice keys).map Keyframe.time, t.isNaN = false := by simpa using hnumbers
  exact List.pairwise_map.mp (h.inOrder _ List.infix_rfl htimes)

/-- In a window that was checked and whose times are numbers, at a time that is a number. It makes no difference how two
values are blended, so that this holds of the numbers of a bone and of its rotation. -/
theorem sampleKeys_selects {keys : List (Keyframe α)} {w : Window} {track : Nat} {channel : String}
    (hchecked : checkWindow keys track channel w = .ok ()) (hnumbers : ∀ k ∈ w.slice keys, k.time.isNaN = false)
    {first : Keyframe α} {rest : List (Keyframe α)} (hslice : w.slice keys = first :: rest) {time : Single}
    (htime : time.isNaN = false) (blend : α → α → Single → α) (restValue : α) :
    Selects blend first rest time (sampleKeys blend (w.slice keys) time restValue) := by
  have hfits : w.Fits keys := by
    rw [← Window.faults_eq_nil_iff keys track channel]
    rw [checkWindow_eq] at hchecked
    cases hfaults : w.faults keys track channel with
    | nil => rfl
    | cons e es => simp [hfaults, orFirst] at hchecked
  have hpairs := hfits.pairwise_le hnumbers
  rw [hslice] at hnumbers hpairs ⊢
  have hfirst := hnumbers first List.mem_cons_self
  constructor
  · intro hlt
    exact sampleKeys_eq_first (Single.le_of_lt hlt) rest blend restValue
  · intro hle
    refine exists_partsAt ?_ hnumbers htime (Single.le_of_not_lt hfirst htime hle)
    exact hpairs.imp fun hxy hy => Single.le_trans hxy hy
  · intro before k after hparts hlt
    exact hparts.sampleKeys_eq (Single.not_le_of_lt hlt) blend restValue
  · intro before k after hparts hle
    have hvalue := sampleKeys_eq_first hle rest blend restValue
    refine ⟨hvalue, ?_⟩
    rintro rfl
    cases hparts.keys_eq
    exact hvalue

/-- Keyframes at 0, 0.5, 0.5 and 1, of which the later one at 0.5 counts there. -/
def coincident : List (Keyframe Single) :=
  [⟨.zero, .one⟩, ⟨⟨0x3f000000⟩, ⟨0x40000000⟩⟩, ⟨⟨0x3f000000⟩, ⟨0x40e00000⟩⟩, ⟨.one, ⟨0x41000000⟩⟩]

theorem sampleKeys_selects_coincident :
    Selects blendNumber ⟨.zero, .one⟩ (coincident.drop 1) ⟨0x3f000000⟩
        (sampleKeys blendNumber coincident ⟨0x3f000000⟩ .zero) ∧
      sampleKeys blendNumber coincident ⟨0x3f000000⟩ .zero = ⟨0x40e00000⟩ :=
  have hchecked : checkWindow coincident 0 "translate.x" ⟨0, 4⟩ = .ok () := by decide
  ⟨sampleKeys_selects hchecked (by decide) rfl (by decide) blendNumber .zero, by decide +kernel⟩

/-- Two keyframes at the start of a window that was checked. The earlier one counts, although the later one is the last
keyframe up to the time. -/
theorem sampleKeys_ne_of_start : ∃ (keys : List (Keyframe Single)) (w : Window) (before : List (Keyframe Single))
    (k : Keyframe Single), checkWindow keys 0 "translate.x" w = .ok () ∧ (∀ x ∈ w.slice keys, x.time.isNaN = false) ∧
      PartsAt (w.slice keys) .zero before k [] ∧ sampleKeys blendNumber (w.slice keys) .zero .zero ≠ k.value :=
  ⟨[⟨.zero, .one⟩, ⟨.zero, ⟨0x40e00000⟩⟩], ⟨0, 2⟩, [⟨.zero, .one⟩], ⟨.zero, ⟨0x40e00000⟩⟩, by decide, by decide,
    ⟨by decide, by decide, by decide, by decide⟩, by decide +kernel⟩

end NovelEngine
