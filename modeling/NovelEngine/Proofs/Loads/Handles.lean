import NovelEngine.Proofs.Loads.Workers

/-!
# Handles of loads

As long as no generation starts over, a handle stands for one request for good. Nobody else gets it, it reads
what its slot shows until the slot is requested again or given up, and unloaded from then on; what is done to
other slots is nothing to it.
-/
namespace NovelEngine

/-- Whether the event makes the handles of a slot so far stale: it requests the slot, or releases it while
there is something to release. -/
def LoadEvent.Renews (l : Loads) (slot : SlotKey) : LoadEvent → Prop
  | .request other _ => other = slot
  | .release other => other = slot ∧ l.status slot ≠ .unloaded
  | .pump | .deliver _ => False

def LoadEvent.slot? : LoadEvent → Option SlotKey
  | .request slot _ | .release slot => some slot
  | .pump | .deliver _ => none

theorem Content.status_eq_unloaded_iff {c : Content} : c.status = .unloaded ↔ c = .empty := by
  cases c <;> simp [status]

theorem SlotKey.ofHandle?_nil : ofHandle? .nil = none := by decide

namespace Loads

/-- The handle that a request returns at the end of a history. -/
def answer (sources : Nat → AssetSource) (workers : Workers) (slot : SlotKey) (asset : UInt32)
    (earlier : List LoadEvent) : LoadHandle :=
  ({ run sources workers earlier with source := sources earlier.length }.request slot asset).value.1

/-- No generation of a slot starts over. -/
def NeverWraps (sources : Nat → AssetSource) (workers : Workers) : List LoadEvent → Prop
  | [] => True
  | e :: earlier =>
    NeverWraps sources workers earlier ∧ ∀ slot,
      ((run sources workers earlier).slot slot).generation ≤
        ((run sources workers (e :: earlier)).slot slot).generation

def Renewed (sources : Nat → AssetSource) (workers : Workers) (slot : SlotKey) (later earlier : List LoadEvent) :
    Prop :=
  ∃ after e before, later = after ++ e :: before ∧ e.Renews (run sources workers (before ++ earlier)) slot

variable {sources : Nat → AssetSource} {workers : Workers} {l : Loads} {slot other : SlotKey} {asset : UInt32}
  {h : LoadHandle} {e : LoadEvent} {earlier later history : List LoadEvent}

theorem answer_eq : answer sources workers slot asset earlier =
    if slot.fitsHandle then slot.handle ((run sources workers earlier).slot slot).nextGeneration else .nil :=
  handle_request

theorem poll_nil : l.poll .nil = .unloaded := by
  simp only [poll, SlotKey.ofHandle?_nil]

theorem answer_ne_nil_iff : answer sources workers slot asset earlier ≠ .nil ↔ slot.fitsHandle = true := by
  rw [answer_eq]
  split
  · rename_i hfits
    apply iff_of_true _ hfits
    intro hnil
    apply LoadSlot.nextGeneration_ne_zero ((run sources workers earlier).slot slot)
    exact congrArg LoadHandle.generation hnil
  · rename_i hfits
    simp [hfits]

theorem ofHandle?_answer (hfits : slot.fitsHandle = true) :
    SlotKey.ofHandle? (answer sources workers slot asset earlier) = some slot := by
  rw [answer_eq, if_pos hfits]
  apply SlotKey.ofHandle?_handle _ _ hfits

theorem generation_answer (hfits : slot.fitsHandle = true) :
    (answer sources workers slot asset earlier).generation =
      ((run sources workers (.request slot asset :: earlier)).slot slot).generation := by
  rw [answer_eq, if_pos hfits, run, slot_request, if_pos ⟨hfits, rfl⟩]
  rfl

theorem poll_answer (hfits : slot.fitsHandle = true) : l.poll (answer sources workers slot asset earlier) =
    if (l.slot slot).generation = ((run sources workers (.request slot asset :: earlier)).slot slot).generation then
      l.status slot
    else .unloaded := by
  simp only [poll, ofHandle?_answer hfits, generation_answer hfits]

theorem poll_eq_of_slot_eq {l l' : Loads}
    (hslot : ∀ slot, SlotKey.ofHandle? h = some slot → l'.slot slot = l.slot slot) : l'.poll h = l.poll h := by
  simp only [poll]
  cases hof : SlotKey.ofHandle? h with
  | none => rfl
  | some slot => simp only [status, hslot slot hof]

theorem slot_after_of_slot?_ne (hcall : e.slot? = some other) (hne : slot ≠ other) :
    (l.after e).slot slot = l.slot slot := by
  cases e with
  | request s a =>
    cases hcall
    simp [slot_request, hne.symm]
  | release s =>
    cases hcall
    simp [slot_release, hne.symm]
  | pump | deliver ready => cases hcall

theorem generation_after_of_not_renews (hnot : ¬ e.Renews l slot) :
    ((l.after e).slot slot).generation = (l.slot slot).generation := by
  cases e with
  | request s a =>
    rw [slot_request, if_neg]
    rintro ⟨-, hs⟩
    exact hnot hs
  | release s =>
    rw [slot_release, if_neg]
    rintro ⟨hcontent, hs⟩
    subst hs
    apply hnot
    exact ⟨rfl, fun hstatus => hcontent (Content.status_eq_unloaded_iff.mp hstatus)⟩
  | pump => exact generation_pump
  | deliver ready => rfl

theorem generation_after_of_renews (hfits : slot.fitsHandle = true) (hrenews : e.Renews l slot) :
    ((l.after e).slot slot).generation = (l.slot slot).nextGeneration := by
  cases e with
  | request s a =>
    obtain rfl : s = slot := hrenews
    rw [slot_request, if_pos ⟨hfits, rfl⟩]
  | release s =>
    obtain ⟨rfl, hstatus⟩ := hrenews
    rw [slot_release, if_pos]
    exact ⟨fun hcontent => hstatus (Content.status_eq_unloaded_iff.mpr hcontent), rfl⟩
  | pump | deliver ready => cases hrenews

theorem generation_run_of_not_renews (hnot : ¬ e.Renews (run sources workers earlier) slot) :
    ((run sources workers (e :: earlier)).slot slot).generation =
      ((run sources workers earlier).slot slot).generation := by
  rw [run]
  apply generation_after_of_not_renews
  cases e <;> exact hnot

theorem generation_run_of_renews (hfits : slot.fitsHandle = true)
    (hrenews : e.Renews (run sources workers earlier) slot) :
    ((run sources workers (e :: earlier)).slot slot).generation =
      ((run sources workers earlier).slot slot).nextGeneration := by
  rw [run]
  apply generation_after_of_renews hfits
  cases e <;> exact hrenews

theorem NeverWraps.lt_of_renews (hw : NeverWraps sources workers (e :: earlier)) (hfits : slot.fitsHandle = true)
    (hrenews : e.Renews (run sources workers earlier) slot) :
    ((run sources workers earlier).slot slot).generation <
      ((run sources workers (e :: earlier)).slot slot).generation := by
  have hle := hw.2 slot
  rw [generation_run_of_renews hfits hrenews] at hle ⊢
  rcases ((run sources workers earlier).slot slot).lt_nextGeneration_or with hlt | hgt
  · exact hlt
  · exact absurd hgt (UInt32.not_lt.mpr hle)

theorem NeverWraps.generation_le (hw : NeverWraps sources workers (later ++ earlier)) (slot : SlotKey) :
    ((run sources workers earlier).slot slot).generation ≤
      ((run sources workers (later ++ earlier)).slot slot).generation := by
  induction later with
  | nil => exact UInt32.le_refl _
  | cons e later ih => exact UInt32.le_trans (ih hw.1) (hw.2 slot)

theorem not_renewed_nil : ¬ Renewed sources workers slot [] earlier := by
  rintro ⟨after, e, before, heq, -⟩
  simp at heq

theorem renewed_cons_iff : Renewed sources workers slot (e :: later) earlier ↔
    e.Renews (run sources workers (later ++ earlier)) slot ∨ Renewed sources workers slot later earlier := by
  constructor
  · rintro ⟨after, d, before, heq, hrenews⟩
    rcases List.cons_eq_append_iff.mp heq with ⟨-, hcons⟩ | ⟨after', -, hlater⟩
    · cases hcons
      exact .inl hrenews
    · exact .inr ⟨after', d, before, hlater, hrenews⟩
  · rintro (hrenews | ⟨after, d, before, rfl, hrenews⟩)
    · exact ⟨[], e, later, rfl, hrenews⟩
    · exact ⟨e :: after, d, before, rfl, hrenews⟩

/-- A slot's generation tells whether the slot has been renewed. -/
theorem NeverWraps.generation_eq_iff (hw : NeverWraps sources workers (later ++ earlier))
    (hfits : slot.fitsHandle = true) :
    ((run sources workers (later ++ earlier)).slot slot).generation =
      ((run sources workers earlier).slot slot).generation ↔ ¬ Renewed sources workers slot later earlier := by
  induction later with
  | nil => exact iff_of_true rfl not_renewed_nil
  | cons e later ih =>
    rw [renewed_cons_iff, not_or]
    by_cases hrenews : e.Renews (run sources workers (later ++ earlier)) slot
    · have hlt := UInt32.lt_of_le_of_lt (NeverWraps.generation_le hw.1 slot) (hw.lt_of_renews hfits hrenews)
      exact iff_of_false (UInt32.ne_of_lt hlt).symm fun hand => hand.1 hrenews
    · rw [List.cons_append, generation_run_of_not_renews hrenews, ih hw.1]
      simp [hrenews]

theorem NeverWraps.reached (hw : NeverWraps sources workers history) (hmem : h ∈ handles sources workers history) :
    h = .nil ∨ ∃ slot, slot.fitsHandle = true ∧
      ∃ generation ≤ ((run sources workers history).slot slot).generation, h = slot.handle generation := by
  induction history with
  | nil => cases hmem
  | cons e earlier ih =>
    have hlater : h ∈ handles sources workers earlier → h = .nil ∨ ∃ slot, slot.fitsHandle = true ∧
        ∃ generation ≤ ((run sources workers (e :: earlier)).slot slot).generation, h = slot.handle generation := by
      intro hold
      rcases ih hw.1 hold with hnil | ⟨slot, hfits, generation, hle, heq⟩
      · exact .inl hnil
      · exact .inr ⟨slot, hfits, generation, UInt32.le_trans hle (hw.2 slot), heq⟩
    cases e with
    | request slot asset =>
      rcases List.mem_cons.mp hmem with hnew | hold
      · by_cases hfits : slot.fitsHandle = true
        · have hanswer : h = answer sources workers slot asset earlier := hnew
          have hrenews : (LoadEvent.request slot asset).Renews (run sources workers earlier) slot := rfl
          have hgeneration := generation_run_of_renews hfits hrenews
          rw [answer_eq, if_pos hfits] at hanswer
          exact .inr ⟨slot, hfits, _, UInt32.le_of_eq hgeneration.symm, hanswer⟩
        · rw [hnew, handle_request, if_neg hfits]
          exact .inl rfl
      · exact hlater hold
    | release slot => exact hlater hmem
    | pump => exact hlater hmem
    | deliver ready => exact hlater hmem

theorem NeverWraps.nodup_handles (hw : NeverWraps sources workers history) :
    ((handles sources workers history).filter (· ≠ .nil)).Nodup := by
  induction history with
  | nil => exact List.nodup_nil
  | cons e earlier ih =>
    cases e with
    | request slot asset =>
      have hanswer : handles sources workers (.request slot asset :: earlier) =
          answer sources workers slot asset earlier :: handles sources workers earlier := rfl
      rw [hanswer, List.filter_cons]
      split
      · rename_i hne
        apply List.nodup_cons.mpr
        refine ⟨fun hmem => ?_, ih hw.1⟩
        obtain ⟨hmem, hne⟩ := List.mem_filter.mp hmem
        have hfits : slot.fitsHandle = true := answer_ne_nil_iff.mp (of_decide_eq_true hne)
        have hrenews : (LoadEvent.request slot asset).Renews (run sources workers earlier) slot := rfl
        have hlt := hw.lt_of_renews hfits hrenews
        rw [generation_run_of_renews hfits hrenews] at hlt
        rcases hw.1.reached hmem with hnil | ⟨other, hother, generation, hle, heq⟩
        · exact of_decide_eq_true hne hnil
        · -- the slot has never had the generation that the new handle has
          rw [answer_eq, if_pos hfits, SlotKey.handle_inj hfits hother] at heq
          obtain ⟨rfl, rfl⟩ := heq
          exact UInt32.not_lt.mpr hle hlt
      · exact ih hw.1
    | release slot => exact ih hw.1
    | pump => exact ih hw.1
    | deliver ready => exact ih hw.1

/-- What the handles of a history stand for at its end. -/
structure HandlesExact (sources : Nat → AssetSource) (workers : Workers) (history : List LoadEvent) : Prop where
  fits : ∀ later slot asset earlier, history = later ++ .request slot asset :: earlier →
    (answer sources workers slot asset earlier ≠ .nil ↔ slot.index ≤ 0x00FFFFFF) ∧
      (answer sources workers slot asset earlier ≠ .nil →
        SlotKey.ofHandle? (answer sources workers slot asset earlier) = some slot)
  distinct : ((handles sources workers history).filter (· ≠ .nil)).Nodup
  current : ∀ later slot asset earlier, history = later ++ .request slot asset :: earlier →
    answer sources workers slot asset earlier ≠ .nil →
    ¬ Renewed sources workers slot later (.request slot asset :: earlier) →
    (run sources workers history).poll (answer sources workers slot asset earlier) =
      (run sources workers history).status slot
  stale : ∀ later slot asset earlier, history = later ++ .request slot asset :: earlier →
    Renewed sources workers slot later (.request slot asset :: earlier) →
    (run sources workers history).poll (answer sources workers slot asset earlier) = .unloaded
  others : ∀ h e other, e.slot? = some other → SlotKey.ofHandle? h ≠ some other →
    (run sources workers (e :: history)).poll h = (run sources workers history).poll h

/-- While no generation starts over, handles are exact. -/
theorem handlesExact_run (history : List LoadEvent) (hw : NeverWraps sources workers history) :
    HandlesExact sources workers history := by
  refine ⟨?_, hw.nodup_handles, ?_, ?_, ?_⟩
  · intro later slot asset earlier _
    rw [answer_ne_nil_iff]
    exact ⟨decide_eq_true_iff, ofHandle?_answer⟩
  · rintro later slot asset earlier rfl hne hnot
    have hfits := answer_ne_nil_iff.mp hne
    rw [poll_answer hfits, if_pos ((hw.generation_eq_iff hfits).mpr hnot)]
  · rintro later slot asset earlier rfl hrenewed
    by_cases hfits : slot.fitsHandle = true
    · rw [poll_answer hfits, if_neg fun heq => (hw.generation_eq_iff hfits).mp heq hrenewed]
    · rw [answer_eq, if_neg hfits, poll_nil]
  · intro h e other hcall hne
    rw [run]
    apply poll_eq_of_slot_eq
    intro slot hof
    apply slot_after_of_slot?_ne hcall
    rintro rfl
    exact hne hof

theorem neverWraps_of_length_lt (hlength : history.length < 0xFFFFFFFF) : NeverWraps sources workers history := by
  induction history with
  | nil => trivial
  | cons e earlier ih =>
    rw [List.length_cons] at hlength
    have hshort : earlier.length < 0xFFFFFFFF := by omega
    refine ⟨ih hshort, fun slot => ?_⟩
    have hle : ((run sources workers earlier).slot slot).generation.toNat ≤ earlier.length :=
      (unwrapped_of_length_lt hshort).2 slot
    rw [UInt32.le_iff_toNat_le]
    exact (generation_after_le (l := { run sources workers earlier with source := sources earlier.length }) slot e
      (Nat.lt_of_le_of_lt hle hshort)).1

/-- A slot that is requested, given up and requested again, and one next to it whose index does not fit: the last
handle alone is good. -/
theorem handlesExact_run_reused :
    let sources : Nat → AssetSource := fun _ _ asset =>
      if asset = 2 then .ok (Model.write ⟨2, [], [], []⟩) else .error "no such asset"
    let earlier : List LoadEvent := [.release (.character 0), .release (.character 0), .pump,
      .request (.character 0) 1]
    let history : List LoadEvent := [.request (.character 0x01000000) 1, .pump, .request (.character 0) 2] ++ earlier
    NeverWraps sources .inline history ∧ HandlesExact sources .inline history ∧
      handles sources .inline history =
        [.nil, (SlotKey.character 0).handle 3, (SlotKey.character 0).handle 1] ∧
      (handles sources .inline history).map (run sources .inline history).poll = [.unloaded, .loaded, .unloaded] := by
  intro sources earlier history
  have hw : NeverWraps sources .inline history := neverWraps_of_length_lt (by decide)
  exact ⟨hw, handlesExact_run history hw, by decide, by decide⟩

end Loads
end NovelEngine
