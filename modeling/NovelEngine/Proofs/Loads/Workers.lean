import NovelEngine.Proofs.Loads.Provenance

/-!
# Inline work and pooled work

A pool delivers when it likes, inline work at once. Slots see other statuses meanwhile, and pumps apply other
results; but a slot's generation, and whether it holds anything at all, are decided by the calls alone. So all
handles are the same, and when everything has been delivered and applied all slots are.
-/
namespace NovelEngine

def LoadEvent.isCall : LoadEvent → Bool
  | .deliver _ => false
  | .request .. | .release _ | .pump => true

theorem Content.eq_settle {c : Content} (hempty : c ≠ .empty) (hstatus : c.status ≠ .loading) :
    ∃ asset result, c = settle asset result := by
  cases c with
  | empty => exact absurd rfl hempty
  | loading asset => exact absurd rfl hstatus
  | loaded asset resource => exact ⟨asset, .ok resource, rfl⟩
  | failed asset error => exact ⟨asset, .error error, rfl⟩

theorem LoadSlot.eq_of_content {s s' : LoadSlot} (hgeneration : s.generation = s'.generation)
    (hcontent : s.content = s'.content) : s = s' := by
  cases s
  cases s'
  simp_all

namespace Loads

def calls (history : List LoadEvent) : List LoadEvent := history.filter LoadEvent.isCall

/-- The handles that the requests of a history return, the last one first. -/
def handles (sources : Nat → AssetSource) (workers : Workers) : List LoadEvent → List LoadHandle
  | [] => []
  | .request slot asset :: earlier =>
    ({ run sources workers earlier with source := sources earlier.length }.request slot asset).value.1 ::
      handles sources workers earlier
  | .release _ :: earlier | .pump :: earlier | .deliver _ :: earlier => handles sources workers earlier

variable {sources : Nat → AssetSource} {source : AssetSource} {workers : Workers} {p i l : Loads}
  {slot : SlotKey} {asset : UInt32} {history : List LoadEvent}

theorem handle_request : (l.request slot asset).value.1 =
    if slot.fitsHandle then slot.handle (l.slot slot).nextGeneration else .nil := by
  simp only [request]
  split
  · cases (l.slot slot).content <;> rfl
  · rfl

theorem content_pump_eq_empty_iff :
    ((l.after .pump).slot slot).content = .empty ↔ (l.slot slot).content = .empty := by
  constructor
  · intro h
    rcases l.slot_pump slot with hslot | ⟨c, -, -, -, hslot⟩
    · rwa [hslot] at h
    · rw [hslot, LoadSlot.settle] at h
      exact absurd h (Content.settle_ne_empty _ _)
  · exact content_pump_eq_empty

/-- What the same calls have in common, made on loads with any workers and on loads that work inline. -/
structure Alike (p i : Loads) : Prop where
  workers_eq : i.workers = .inline
  running_eq : i.running = []
  issued_eq : p.issued = i.issued
  generation_eq : ∀ slot, (p.slot slot).generation = (i.slot slot).generation
  empty_iff : ∀ slot, (p.slot slot).content = .empty ↔ (i.slot slot).content = .empty
  outstanding : ∀ j ∈ i.outstanding, j ∈ p.outstanding

theorem Alike.nextGeneration_eq (h : Alike p i) (slot : SlotKey) :
    (p.slot slot).nextGeneration = (i.slot slot).nextGeneration := by
  simp only [LoadSlot.nextGeneration, h.generation_eq]

theorem Alike.jobFor_eq (h : Alike p i) (slot : SlotKey) (asset : UInt32) :
    p.jobFor slot asset = i.jobFor slot asset := by
  simp only [jobFor, h.issued_eq, h.nextGeneration_eq]

theorem Alike.request (h : Alike p i) (slot : SlotKey) (asset : UInt32) :
    Alike (p.after (.request slot asset)) (i.after (.request slot asset)) := by
  by_cases hfits : slot.fitsHandle = true
  · have hi : i.after (.request slot asset) = (i.start slot asset).deliver fun _ => true := by
      rw [after_request, if_pos hfits, if_pos h.workers_eq]
    refine ⟨?_, ?_, ?_, ?_, ?_, ?_⟩
    · rw [hi]
      exact h.workers_eq
    · rw [hi]
      simp [deliver]
    · rw [issued_request hfits, issued_request hfits, h.issued_eq]
    · intro other
      rw [slot_request, slot_request]
      split
      · exact h.nextGeneration_eq slot
      · exact h.generation_eq other
    · intro other
      rw [slot_request, slot_request]
      split
      · simp
      · exact h.empty_iff other
    · intro j hj
      rw [mem_outstanding_request] at hj ⊢
      rw [h.jobFor_eq]
      exact hj.imp_left (h.outstanding j)
  · rw [after_request, if_neg hfits, after_request, if_neg hfits]
    exact h

theorem Alike.release (h : Alike p i) (slot : SlotKey) :
    Alike (p.after (.release slot)) (i.after (.release slot)) := by
  refine ⟨?_, ?_, ?_, ?_, ?_, ?_⟩
  · rw [after_release]
    split <;> exact h.workers_eq
  · rw [after_release]
    split <;> exact h.running_eq
  · rw [issued_release, issued_release, h.issued_eq]
  · intro other
    simp only [slot_release, ne_eq, h.empty_iff]
    split
    · exact h.nextGeneration_eq slot
    · exact h.generation_eq other
  · intro other
    simp only [slot_release, ne_eq, h.empty_iff]
    split
    · simp
    · exact h.empty_iff other
  · intro j hj
    rw [outstanding_release] at hj ⊢
    exact h.outstanding j hj

theorem Alike.pumped (h : Alike p i) : Alike p (i.after .pump) := by
  refine ⟨h.workers_eq, h.running_eq, h.issued_eq, ?_, ?_, ?_⟩
  · intro slot
    rw [generation_pump, h.generation_eq]
  · intro slot
    rw [content_pump_eq_empty_iff, h.empty_iff]
  · intro j hj
    rw [outstanding_pump, h.running_eq] at hj
    cases hj

theorem Alike.pump (h : Alike p i) : Alike (p.after .pump) (i.after .pump) := by
  refine ⟨h.workers_eq, h.running_eq, h.issued_eq, ?_, ?_, ?_⟩
  · intro slot
    rw [generation_pump, h.pumped.generation_eq]
  · intro slot
    rw [content_pump_eq_empty_iff, h.pumped.empty_iff]
  · intro j hj
    rw [outstanding_pump, h.running_eq] at hj
    cases hj

theorem Alike.deliver (h : Alike p i) (ready : Job → Bool) : Alike (p.deliver ready) (i.deliver ready) := by
  refine ⟨h.workers_eq, ?_, h.issued_eq, h.generation_eq, h.empty_iff, ?_⟩
  · simp [Loads.deliver, h.running_eq]
  · intro j hj
    rw [mem_outstanding_deliver] at hj ⊢
    exact h.outstanding j hj

theorem alike_run (sources : Nat → AssetSource) (workers : Workers) (history : List LoadEvent) :
    Alike (run sources workers history) (run sources .inline history) := by
  induction history with
  | nil => exact ⟨rfl, rfl, rfl, fun _ => rfl, fun _ => Iff.rfl, fun _ hj => hj⟩
  | cons e earlier ih =>
    have hnow : Alike { run sources workers earlier with source := sources earlier.length }
        { run sources .inline earlier with source := sources earlier.length } :=
      ⟨ih.workers_eq, ih.running_eq, ih.issued_eq, ih.generation_eq, ih.empty_iff, ih.outstanding⟩
    rw [run, run]
    cases e with
    | request slot asset => exact hnow.request slot asset
    | release slot => exact hnow.release slot
    | pump => exact hnow.pump
    | deliver ready => exact hnow.deliver ready

theorem latest?_workers (slot : SlotKey) (history : List LoadEvent) :
    latest? sources workers slot history = latest? sources .inline slot history := by
  induction history with
  | nil => rfl
  | cons e earlier ih =>
    cases e with
    | request other asset =>
      rw [latest?, latest?, ih, (alike_run sources workers earlier).jobFor_eq]
    | release other => rw [latest?, latest?, ih]
    | pump => exact ih
    | deliver ready => exact ih

theorem handles_workers (history : List LoadEvent) :
    handles sources workers history = handles sources .inline history := by
  induction history with
  | nil => rfl
  | cons e earlier ih =>
    cases e with
    | request slot asset =>
      have hnext := (alike_run sources workers earlier).nextGeneration_eq slot
      rw [handles, handles, ih, handle_request, handle_request]
      exact congrArg (fun generation => (if slot.fitsHandle then slot.handle generation else .nil) :: _) hnext
    | release slot => exact ih
    | pump => exact ih
    | deliver ready => exact ih

/-- Generations start over in both runs at once, and inline work has no more results outstanding. -/
theorem Unwrapped.inline (h : Unwrapped sources workers history) : Unwrapped sources .inline history := by
  induction history with
  | nil => trivial
  | cons e earlier ih =>
    refine ⟨ih h.1, ?_⟩
    intro slot hlt j hj
    rw [← (alike_run sources workers _).generation_eq, ← (alike_run sources workers _).generation_eq] at hlt
    exact h.2 slot hlt j ((alike_run sources workers earlier).outstanding j hj)

theorem run_source (source : AssetSource) (workers : Workers) (history : List LoadEvent) :
    (run (fun _ => source) workers history).source = source := by
  cases history with
  | nil => rfl
  | cons e earlier => rw [run, source_after]

theorem run_cons (e : LoadEvent) (earlier : List LoadEvent) :
    run (fun _ => source) workers (e :: earlier) = (run (fun _ => source) workers earlier).after e := by
  have hsource := run_source source workers earlier
  rw [run]
  revert hsource
  generalize run (fun _ => source) workers earlier = l
  intro hsource
  cases hsource
  rfl

theorem run_calls (source : AssetSource) (history : List LoadEvent) :
    run (fun _ => source) .inline (calls history) = run (fun _ => source) .inline history := by
  induction history with
  | nil => rfl
  | cons e earlier ih =>
    rw [run_cons]
    cases e with
    | deliver ready =>
      have hidle := (alike_run (fun _ => source) .inline earlier).running_eq
      show run _ _ (calls earlier) = _
      rw [ih]
      revert hidle
      generalize run (fun _ => source) .inline earlier = l
      intro hidle
      obtain ⟨_, _, _, _, running, _⟩ := l
      obtain rfl : running = [] := hidle
      rfl
    | request slot asset | release slot | pump =>
      show run _ _ (_ :: calls earlier) = _
      rw [run_cons, ih]

theorem handles_calls (source : AssetSource) (history : List LoadEvent) :
    handles (fun _ => source) .inline (calls history) = handles (fun _ => source) .inline history := by
  induction history with
  | nil => rfl
  | cons e earlier ih =>
    cases e with
    | request slot asset =>
      have hrun := run_calls source earlier
      show handles _ _ (_ :: calls earlier) = _
      rw [handles, handles, ih, hrun]
    | release slot => exact ih
    | pump => exact ih
    | deliver ready => exact ih

/-- With nothing outstanding a slot is empty or has what its latest request comes to. -/
theorem slot_eq_of_idle (hw : Unwrapped (fun _ => source) workers history)
    (hidle : (run (fun _ => source) workers history).outstanding = []) (slot : SlotKey) :
    ((run (fun _ => source) workers history).slot slot).content = .empty ∨
      ∃ r, latest? (fun _ => source) workers slot history = some r ∧
        ((run (fun _ => source) workers history).slot slot).content =
          .settle r.job.asset (r.job.complete source).result := by
  have hbalanced := balanced_run history hw
  rw [hidle] at hbalanced
  by_cases hempty : ((run (fun _ => source) workers history).slot slot).content = .empty
  · exact .inl hempty
  · obtain ⟨asset, result, hcontent⟩ := Content.eq_settle hempty (hbalanced.idle.1 slot)
    obtain ⟨r, hr, rfl, t, -, -, rfl⟩ := (tracked_run slot history hw).settled asset result hcontent
    exact .inr ⟨r, hr, hcontent⟩

/-- How pooled work compares with inline work after the same calls. -/
structure MatchesInline (source : AssetSource) (workers : Workers) (history : List LoadEvent) : Prop where
  handles_eq : handles (fun _ => source) workers history = handles (fun _ => source) .inline (calls history)
  slot_eq : (run (fun _ => source) workers history).outstanding = [] → ∀ slot,
    (run (fun _ => source) workers history).slot slot =
      (run (fun _ => source) .inline (.pump :: calls history)).slot slot

/-- Whatever the workers do and when, all handles are those of inline work, and with nothing outstanding so is
every slot. -/
theorem matchesInline_run (history : List LoadEvent) (hw : Unwrapped (fun _ => source) workers history) :
    MatchesInline source workers history := by
  refine ⟨by rw [handles_workers, handles_calls], ?_⟩
  intro hidle slot
  have hinline : run (fun _ => source) .inline (.pump :: calls history) =
      run (fun _ => source) .inline (.pump :: history) := by
    rw [run_cons, run_calls, run_cons]
  have halike : Alike (run (fun _ => source) workers history) (run (fun _ => source) .inline (.pump :: history)) := by
    rw [run_cons]
    exact (alike_run (fun _ => source) workers history).pumped
  have hwinline : Unwrapped (fun _ => source) .inline (.pump :: history) := by
    refine ⟨hw.inline, ?_⟩
    intro other hlt
    rw [run_cons, generation_pump] at hlt
    exact absurd hlt (UInt32.lt_irrefl _)
  have hidleinline : (run (fun _ => source) .inline (.pump :: history)).outstanding = [] := by
    rw [run_cons, outstanding_pump]
    exact (alike_run (fun _ => source) .inline history).running_eq
  rw [hinline]
  apply LoadSlot.eq_of_content (halike.generation_eq slot)
  rcases slot_eq_of_idle hw hidle slot with hnone | ⟨r, hr, hcontent⟩
  · rw [hnone, (halike.empty_iff slot).mp hnone]
  · rcases slot_eq_of_idle hwinline hidleinline slot with hnone | ⟨r', hr', hcontent'⟩
    · rw [(halike.empty_iff slot).mpr hnone] at hcontent
      exact absurd hcontent.symm (Content.settle_ne_empty _ _)
    · -- both runs have the same latest request
      have hlatest : latest? (fun _ => source) .inline slot history = some r' := hr'
      rw [← latest?_workers, hr] at hlatest
      cases hlatest
      rw [hcontent, hcontent']

/-- Two requests of one slot whose results arrive in the wrong order, one of a slot that is released while its job
runs, and pumps that inline work has other results for. -/
theorem matchesInline_run_late :
    let source : AssetSource := fun _ asset =>
      if asset = 2 then .ok (Model.write ⟨2, [], [], []⟩) else .error "no such asset"
    let history : List LoadEvent := [.pump, .deliver fun _ => true, .release (.character 0), .pump,
      .deliver fun j => j.ticket = 2, .request .background 2, .request (.character 0) 2, .pump,
      .request .background 1]
    Unwrapped (fun _ => source) .pool history ∧ MatchesInline source .pool history ∧
      (run (fun _ => source) .pool history).outstanding = [] ∧
      (run (fun _ => source) .pool history).slot .background =
        ⟨2, .loaded 2 ⟨2, .background, ⟨2, [], [], []⟩⟩⟩ ∧
      (run (fun _ => source) .inline (.pump :: calls history)).slot .background =
        ⟨2, .loaded 2 ⟨2, .background, ⟨2, [], [], []⟩⟩⟩ := by
  intro source history
  have hw : Unwrapped (fun _ => source) .pool history := (unwrapped_of_length_lt (by decide)).1
  have hmatches := matchesInline_run history hw
  have hidle : (run (fun _ => source) .pool history).outstanding = [] := by decide
  have hslot : (run (fun _ => source) .pool history).slot .background =
      ⟨2, .loaded 2 ⟨2, .background, ⟨2, [], [], []⟩⟩⟩ := by decide
  exact ⟨hw, hmatches, hidle, hslot, hmatches.slot_eq hidle .background ▸ hslot⟩

end Loads
end NovelEngine
