import NovelEngine.Proofs.Loads.History

/-!
# Superseded loads

A slot only ever shows the result of its latest request: the result of a request that has been superseded
or released is dropped, whenever it arrives. Generations tell the requests of a slot apart as long as they
do not start over while a result of the slot is outstanding.
-/
namespace NovelEngine

/-- The request has come to this result, by the files as they stood at some moment since. -/
def LoadRequest.Yields (sources : Nat → AssetSource) (time : Nat) (r : LoadRequest)
    (result : Except LoadError Resource) : Prop :=
  ∃ t, r.moment ≤ t ∧ t < time ∧ (r.job.complete (sources t)).result = result

theorem Content.settle_ne_empty (asset : UInt32) (result : Except LoadError Resource) :
    settle asset result ≠ empty := by
  cases result <;> simp [settle]

theorem Content.settle_ne_loading (asset other : UInt32) (result : Except LoadError Resource) :
    settle asset result ≠ loading other := by
  cases result <;> simp [settle]

theorem Content.settle_inj {asset other : UInt32} {result result' : Except LoadError Resource} :
    settle asset result = settle other result' ↔ asset = other ∧ result = result' := by
  cases result <;> cases result' <;> simp [settle]

theorem LoadSlot.toNat_nextGeneration (s : LoadSlot) :
    s.nextGeneration.toNat = if s.generation.toNat = 0xFFFFFFFF then 1 else s.generation.toNat + 1 := by
  have hlt := s.generation.toNat_lt
  have hadd : (s.generation + 1).toNat = (s.generation.toNat + 1) % 0x100000000 := UInt32.toNat_add ..
  have hmax : s.nextGeneration = if s.generation + 1 ≤ 1 then 1 else s.generation + 1 := rfl
  rw [hmax]
  split
  · rename_i h
    rw [UInt32.le_iff_toNat_le, hadd] at h
    simp only [UInt32.toNat_one] at *
    split <;> omega
  · rename_i h
    rw [UInt32.le_iff_toNat_le, hadd] at h
    simp only [UInt32.toNat_one] at *
    split <;> omega

/-- A generation moves forward, or it falls back to its start. -/
theorem LoadSlot.lt_nextGeneration_or (s : LoadSlot) :
    s.generation < s.nextGeneration ∨ s.nextGeneration < s.generation := by
  have h := s.toNat_nextGeneration
  rw [UInt32.lt_iff_toNat_lt, UInt32.lt_iff_toNat_lt]
  split at h <;> omega

namespace Loads

/-- What ties a slot to its latest request: of the outstanding results at most that of this request has the
slot's generation, and what the slot has settled on is what the request has come to. -/
structure Tracked (sources : Nat → AssetSource) (time : Nat) (l : Loads) (slot : SlotKey)
    (latest : Option LoadRequest) : Prop where
  unfit : slot.fitsHandle = false → (l.slot slot).content = .empty
  generation_le : ∀ j ∈ l.outstanding, j.slot = slot → j.generation ≤ (l.slot slot).generation
  loading : ∀ asset, (l.slot slot).content = .loading asset → ∃ r, latest = some r ∧
    r.job.slot = slot ∧ r.job.asset = asset ∧
    (∀ j ∈ l.outstanding, j.slot = slot → j.generation = (l.slot slot).generation → j = r.job) ∧
    ∀ c ∈ l.arrived, c.job = r.job → r.Yields sources time c.result
  settled : ∀ asset result, (l.slot slot).content = .settle asset result → ∃ r, latest = some r ∧
    r.job.asset = asset ∧ r.Yields sources time result

variable {sources : Nat → AssetSource} {workers : Workers} {time : Nat} {l l' : Loads}
  {slot other : SlotKey} {asset : UInt32} {latest : Option LoadRequest}

theorem mem_outstanding_of_arrived {c : Completion} (hc : c ∈ l.arrived) : c.job ∈ l.outstanding :=
  List.mem_append_right _ (List.mem_map_of_mem hc)

theorem Tracked.of_empty (hempty : (l.slot slot).content = .empty)
    (hle : ∀ j ∈ l.outstanding, j.slot = slot → j.generation ≤ (l.slot slot).generation) :
    Tracked sources time l slot latest where
  unfit _ := hempty
  generation_le := hle
  loading asset h := by simp [hempty] at h
  settled asset result h := absurd (h.symm.trans hempty) (Content.settle_ne_empty asset result)

theorem Tracked.keep (h : Tracked sources time l slot latest)
    (hslot : l'.slot slot = l.slot slot)
    (hout : ∀ j ∈ l'.outstanding, j.slot = slot → j ∈ l.outstanding)
    (harrived : ∀ c ∈ l'.arrived, c ∈ l.arrived ∨ ∃ j : Job, c = j.complete (sources time))
    (hlatest : ∀ r, latest = some r → r.moment ≤ time) :
    Tracked sources (time + 1) l' slot latest where
  unfit hu := by rw [hslot]; exact h.unfit hu
  generation_le j hj hs := by rw [hslot]; exact h.generation_le j (hout j hj hs) hs
  loading asset ha := by
    rw [hslot] at ha
    obtain ⟨r, hr, hjs, hasset, huniq, hyields⟩ := h.loading asset ha
    refine ⟨r, hr, hjs, hasset, ?_, ?_⟩
    · intro j hj hs hg
      rw [hslot] at hg
      exact huniq j (hout j hj hs) hs hg
    · intro c hc hjob
      rcases harrived c hc with hold | ⟨j, rfl⟩
      · obtain ⟨t, hle, hlt, heq⟩ := hyields c hold hjob
        exact ⟨t, hle, by omega, heq⟩
      · have hj : j = r.job := hjob
        subst hj
        exact ⟨time, hlatest r hr, by omega, rfl⟩
  settled asset result ha := by
    rw [hslot] at ha
    obtain ⟨r, hr, hasset, t, hle, hlt, heq⟩ := h.settled asset result ha
    exact ⟨r, hr, hasset, t, hle, by omega, heq⟩

theorem Tracked.lt_nextGeneration (h : Tracked sources time l slot latest)
    (hwrap : (l.slot slot).nextGeneration < (l.slot slot).generation →
      ∀ j ∈ l.outstanding, j.slot ≠ slot) :
    ∀ j ∈ l.outstanding, j.slot = slot → j.generation < (l.slot slot).nextGeneration := by
  intro j hj hs
  rcases (l.slot slot).lt_nextGeneration_or with hlt | hgt
  · exact UInt32.lt_of_le_of_lt (h.generation_le j hj hs) hlt
  · exact absurd hs (hwrap hgt j hj)

theorem mem_arrived_deliver {c : Completion} {ready : Job → Bool} (hc : c ∈ (l.deliver ready).arrived) :
    c ∈ l.arrived ∨ ∃ j : Job, c = j.complete l.source := by
  simp only [deliver, List.mem_append, List.mem_reverse, List.mem_map] at hc
  rcases hc with ⟨j, -, rfl⟩ | hc
  · exact .inr ⟨j, rfl⟩
  · exact .inl hc

theorem mem_arrived_request {c : Completion} (hc : c ∈ (l.after (.request slot asset)).arrived) :
    c ∈ l.arrived ∨ ∃ j : Job, c = j.complete l.source := by
  rw [after_request] at hc
  split at hc
  · split at hc
    · exact mem_arrived_deliver (l := l.start slot asset) hc
    · exact .inl hc
  · exact .inl hc

theorem arrived_release : (l.after (.release slot)).arrived = l.arrived := by
  rw [after_release]
  split <;> rfl

theorem Tracked.request (h : Tracked sources time l slot latest) (hsource : l.source = sources time)
    (hwrap : ((l.after (.request slot asset)).slot slot).generation < (l.slot slot).generation →
      ∀ j ∈ l.outstanding, j.slot ≠ slot) :
    Tracked sources (time + 1) (l.after (.request slot asset)) slot
      (some ⟨time, l.jobFor slot asset⟩) := by
  by_cases hf : slot.fitsHandle = true
  · have hslot : (l.after (.request slot asset)).slot slot =
        ⟨(l.slot slot).nextGeneration, .loading asset⟩ := by simp [slot_request, hf]
    have hlt := h.lt_nextGeneration (by rw [hslot] at hwrap; exact hwrap)
    refine ⟨fun hu => absurd hf (by simp [hu]), ?_, ?_, ?_⟩
    · intro j hj hs
      rw [hslot]
      rcases mem_outstanding_request.mp hj with hold | ⟨-, rfl⟩
      · exact UInt32.le_of_lt (hlt j hold hs)
      · exact UInt32.le_refl _
    · intro a ha
      rw [hslot] at ha
      cases ha
      refine ⟨_, rfl, rfl, rfl, ?_, ?_⟩
      · intro j hj hs hg
        rw [hslot] at hg
        rcases mem_outstanding_request.mp hj with hold | ⟨-, hnew⟩
        · exact absurd hg (UInt32.ne_of_lt (hlt j hold hs))
        · exact hnew
      · intro c hc hjob
        have hjob : c.job = l.jobFor slot asset := hjob
        rcases mem_arrived_request hc with hold | ⟨j, rfl⟩
        · have hc := hlt c.job (mem_outstanding_of_arrived hold) (by rw [hjob]; rfl)
          rw [hjob] at hc
          exact absurd hc (UInt32.lt_irrefl _)
        · have hj : j = l.jobFor slot asset := hjob
          subst hj
          exact ⟨time, Nat.le_refl _, by omega, by rw [hsource]⟩
    · intro a result ha
      rw [hslot] at ha
      exact absurd ha.symm (Content.settle_ne_loading a asset result)
  · have hf : slot.fitsHandle = false := by simpa using hf
    have hafter : l.after (.request slot asset) = l := by simp [after_request, hf]
    rw [hafter]
    exact .of_empty (h.unfit hf) h.generation_le

theorem Tracked.release (h : Tracked sources time l slot latest)
    (hwrap : ((l.after (.release slot)).slot slot).generation < (l.slot slot).generation →
      ∀ j ∈ l.outstanding, j.slot ≠ slot) :
    Tracked sources (time + 1) (l.after (.release slot)) slot none := by
  by_cases he : (l.slot slot).content = .empty
  · have hafter : l.after (.release slot) = l := by simp [after_release, he]
    rw [hafter]
    exact .of_empty he h.generation_le
  · have hslot : (l.after (.release slot)).slot slot = ⟨(l.slot slot).nextGeneration, .empty⟩ := by
      simp [slot_release, he]
    have hlt := h.lt_nextGeneration (by rw [hslot] at hwrap; exact hwrap)
    refine .of_empty (by rw [hslot]) ?_
    intro j hj hs
    rw [outstanding_release] at hj
    rw [hslot]
    exact UInt32.le_of_lt (hlt j hj hs)

/-- The only result that a slot in reach of a pump can await is that of its latest request. -/
theorem Tracked.job_eq (h : Tracked sources time l slot latest) {c : Completion} {s : LoadSlot}
    (hc : c ∈ l.arrived) (hs : c.job.slot = slot) (hawaits : s.awaits c)
    (hgen : s.generation = (l.slot slot).generation)
    (hloading : ∀ asset, s.content = .loading asset → (l.slot slot).content = .loading asset) :
    ∃ r, latest = some r ∧ c.job = r.job ∧ s.content = .loading r.job.asset ∧
      r.Yields sources time c.result := by
  simp only [LoadSlot.awaits, Bool.and_eq_true, decide_eq_true_eq] at hawaits
  obtain ⟨hstatus, hg⟩ := hawaits
  cases hcontent : s.content with
  | loading asset =>
    obtain ⟨r, hr, -, hasset, huniq, hyields⟩ := h.loading asset (hloading asset hcontent)
    have hjob := huniq c.job (mem_outstanding_of_arrived hc) hs (by rw [← hg, hgen])
    exact ⟨r, hr, hjob, by rw [hasset], hyields c hc hjob⟩
  | empty => simp [hcontent, Content.status] at hstatus
  | loaded asset resource => simp [hcontent, Content.status] at hstatus
  | failed asset error => simp [hcontent, Content.status] at hstatus

/-- What a pump keeps true of a slot while it applies one result after another. -/
structure Pumped (sources : Nat → AssetSource) (time : Nat) (slot : SlotKey) (latest : Option LoadRequest)
    (old s : LoadSlot) : Prop where
  generation : s.generation = old.generation
  unfit : slot.fitsHandle = false → s.content = .empty
  loading : ∀ asset, s.content = .loading asset → old.content = .loading asset
  settled : ∀ asset result, s.content = .settle asset result → ∃ r, latest = some r ∧
    r.job.asset = asset ∧ r.Yields sources time result

theorem Tracked.pumped (h : Tracked sources time l slot latest) (results : List Completion)
    (hresults : ∀ c ∈ results, c ∈ l.arrived) :
    Pumped sources time slot latest (l.slot slot)
      ({ l with slots := (applyAll results l.slots).value.2 }.slot slot) := by
  apply slot_applyAll (P := Pumped sources time slot latest (l.slot slot))
  · exact ⟨rfl, h.unfit, fun _ ha => ha, h.settled⟩
  · intro c hc hs s hawaits hp
    obtain ⟨r, hr, -, hcontent, hyields⟩ :=
      h.job_eq (hresults c hc) hs hawaits hp.generation hp.loading
    have hsettle : s.settle c = ⟨s.generation, .settle r.job.asset c.result⟩ := by
      simp [LoadSlot.settle, hcontent, Content.asset?]
    rw [hsettle]
    refine ⟨hp.generation, fun hu => ?_, fun a ha => ?_, fun a result ha => ?_⟩
    · rw [hp.unfit hu] at hcontent
      cases hcontent
    · exact absurd ha (Content.settle_ne_loading _ _ _)
    · obtain ⟨rfl, rfl⟩ := Content.settle_inj.mp ha
      exact ⟨r, hr, rfl, hyields⟩

theorem Tracked.pump (h : Tracked sources time l slot latest) :
    Tracked sources (time + 1) (l.after .pump) slot latest := by
  have hp := h.pumped l.arrived.reverse fun c hc => List.mem_reverse.mp hc
  have hslot : (l.after .pump).slot slot =
      { l with slots := (applyAll l.arrived.reverse l.slots).value.2 }.slot slot := rfl
  have hout : ∀ j ∈ (l.after .pump).outstanding, j ∈ l.outstanding := by
    intro j hj
    have hrunning : j ∈ l.running ++ [] := hj
    exact List.mem_append_left _ (by simpa using hrunning)
  rw [← hslot] at hp
  refine ⟨hp.unfit, fun j hj hs => ?_, fun a ha => ?_, fun a result ha => ?_⟩
  · rw [hp.generation]
    exact h.generation_le j (hout j hj) hs
  · obtain ⟨r, hr, hs, hasset, huniq, -⟩ := h.loading a (hp.loading a ha)
    refine ⟨r, hr, hs, hasset, fun j hj hjs hg => ?_, fun c hc => ?_⟩
    · exact huniq j (hout j hj) hjs (by rw [hg, hp.generation])
    · exact absurd hc List.not_mem_nil
  · obtain ⟨r, hr, hasset, t, hle, hlt, heq⟩ := hp.settled a result ha
    exact ⟨r, hr, hasset, t, hle, by omega, heq⟩

theorem latest?_moment_lt {history : List LoadEvent} {r : LoadRequest}
    (h : latest? sources workers slot history = some r) : r.moment < history.length := by
  induction history with
  | nil => simp [latest?] at h
  | cons e earlier ih =>
    cases e with
    | request s a =>
      rw [latest?] at h
      split at h
      · cases h
        simp
      · exact Nat.lt_succ_of_lt (ih h)
    | release s =>
      rw [latest?] at h
      split at h
      · cases h
      · exact Nat.lt_succ_of_lt (ih h)
    | pump => exact Nat.lt_succ_of_lt (ih h)
    | deliver ready => exact Nat.lt_succ_of_lt (ih h)

theorem tracked_run (slot : SlotKey) (history : List LoadEvent) (hw : Unwrapped sources workers history) :
    Tracked sources history.length (run sources workers history) slot
      (latest? sources workers slot history) := by
  induction history with
  | nil => exact .of_empty rfl fun j hj => absurd hj List.not_mem_nil
  | cons e earlier ih =>
    have ih := ih hw.1
    have hmoment : ∀ r, latest? sources workers slot earlier = some r → r.moment ≤ earlier.length :=
      fun r hr => Nat.le_of_lt (latest?_moment_lt hr)
    -- the files of this moment are in place before the event, and nothing else has changed
    have hnow : Tracked sources earlier.length
        { run sources workers earlier with source := sources earlier.length } slot
        (latest? sources workers slot earlier) := ⟨ih.unfit, ih.generation_le, ih.loading, ih.settled⟩
    have hwrap := hw.2 slot
    rw [List.length_cons, run]
    cases e with
    | request s a =>
      rw [latest?]
      split
      · rename_i hs
        subst hs
        exact hnow.request rfl hwrap
      · rename_i hs
        exact hnow.keep (by simp [slot_request, hs])
          (fun j hj hjs => (mem_outstanding_request.mp hj).resolve_right
            fun hnew => hs (by rw [hnew.2] at hjs; exact hjs))
          (fun c hc => mem_arrived_request hc) hmoment
    | release s =>
      rw [latest?]
      split
      · rename_i hs
        subst hs
        exact hnow.release hwrap
      · rename_i hs
        exact hnow.keep (by simp [slot_release, hs])
          (fun j hj _ => by rwa [outstanding_release] at hj)
          (fun c hc => .inl (by rwa [arrived_release] at hc)) hmoment
    | pump => exact hnow.pump
    | deliver ready =>
      exact hnow.keep rfl (fun j hj _ => (mem_outstanding_deliver ready).mp hj)
        (fun c hc => mem_arrived_deliver hc) hmoment

/-- What slots show after a history, and which results cannot change it. -/
structure ShowsLatest (sources : Nat → AssetSource) (workers : Workers) (history : List LoadEvent) :
    Prop where
  loaded : ∀ slot, (run sources workers history).status slot = .loaded →
    ∃ r t model, latest? sources workers slot history = some r ∧ r.moment ≤ t ∧ t < history.length ∧
      (sources t).load slot.category r.job.asset = .ok model ∧
      (run sources workers history).resource? slot = some ⟨r.job.ticket, slot.category, model⟩ ∧
      (run sources workers history).asset? slot = some r.job.asset
  failed : ∀ slot, (run sources workers history).status slot = .failed →
    ∃ r t error, latest? sources workers slot history = some r ∧ r.moment ≤ t ∧ t < history.length ∧
      (sources t).load slot.category r.job.asset = .error error ∧
      (run sources workers history).error? slot = some error ∧
      (run sources workers history).asset? slot = some r.job.asset
  hidden : ∀ slot, (run sources workers history).status slot ≠ .loaded →
    (run sources workers history).resource? slot = none
  stale : ∀ c before later, (run sources workers history).arrived.reverse = before ++ c :: later →
    (∀ r, latest? sources workers c.job.slot history = some r → r.job ≠ c.job) →
    let slots := (applyAll before (run sources workers history).slots).value.2
    (apply slots c).value = (false, slots)

theorem latest?_slot {history : List LoadEvent} {r : LoadRequest}
    (h : latest? sources workers slot history = some r) : r.job.slot = slot := by
  induction history with
  | nil => simp [latest?] at h
  | cons e earlier ih =>
    cases e with
    | request s a =>
      rw [latest?] at h
      split at h
      · cases h
        rfl
      · exact ih h
    | release s =>
      rw [latest?] at h
      split at h
      · cases h
      · exact ih h
    | pump => exact ih h
    | deliver ready => exact ih h

theorem complete_ok_iff {source : AssetSource} {j : Job} {resource : Resource} :
    (j.complete source).result = .ok resource ↔
      ∃ model, source.load j.slot.category j.asset = .ok model ∧
        resource = ⟨j.ticket, j.slot.category, model⟩ := by
  cases h : source.load j.slot.category j.asset <;> simp [Job.complete, h, Except.map, eq_comm]

theorem complete_error_iff {source : AssetSource} {j : Job} {error : LoadError} :
    (j.complete source).result = .error error ↔
      source.load j.slot.category j.asset = .error error := by
  cases h : source.load j.slot.category j.asset <;> simp [Job.complete, h, Except.map]

/-- Slots show what their latest requests have come to, and results of other requests change nothing. -/
theorem showsLatest_run (history : List LoadEvent) (hw : Unwrapped sources workers history) :
    ShowsLatest sources workers history := by
  refine ⟨fun slot hs => ?_, fun slot hs => ?_, fun slot hs => ?_, fun c before later hc hstale => ?_⟩
  · have h := tracked_run slot history hw
    cases hcontent : ((run sources workers history).slot slot).content with
    | loaded asset resource =>
      obtain ⟨r, hr, rfl, t, hle, hlt, heq⟩ := h.settled asset (.ok resource) hcontent
      obtain ⟨model, hload, rfl⟩ := complete_ok_iff.mp heq
      rw [latest?_slot hr] at hload hcontent
      exact ⟨r, t, model, hr, hle, hlt, hload, by rw [Loads.resource?, hcontent]; rfl,
        by rw [Loads.asset?, hcontent]; rfl⟩
    | empty => simp [Loads.status, hcontent, Content.status] at hs
    | loading asset => simp [Loads.status, hcontent, Content.status] at hs
    | failed asset error => simp [Loads.status, hcontent, Content.status] at hs
  · have h := tracked_run slot history hw
    cases hcontent : ((run sources workers history).slot slot).content with
    | failed asset error =>
      obtain ⟨r, hr, rfl, t, hle, hlt, heq⟩ := h.settled asset (.error error) hcontent
      have hload := complete_error_iff.mp heq
      rw [latest?_slot hr] at hload
      exact ⟨r, t, error, hr, hle, hlt, hload, by rw [Loads.error?, hcontent]; rfl,
        by rw [Loads.asset?, hcontent]; rfl⟩
    | empty => simp [Loads.status, hcontent, Content.status] at hs
    | loading asset => simp [Loads.status, hcontent, Content.status] at hs
    | loaded asset resource => simp [Loads.status, hcontent, Content.status] at hs
  · cases hcontent : ((run sources workers history).slot slot).content <;>
      simp_all [Loads.status, Loads.resource?, Content.status, Content.resource?]
  · have h := tracked_run c.job.slot history hw
    have harrived : ∀ d ∈ before ++ c :: later, d ∈ (run sources workers history).arrived := by
      intro d hd
      rw [← hc] at hd
      exact List.mem_reverse.mp hd
    have hp := h.pumped before fun d hd => harrived d (List.mem_append_left _ hd)
    intro slots
    rw [apply_eq]
    split
    · rename_i hawaits
      obtain ⟨r, hr, hjob, -⟩ := h.job_eq (harrived c (by simp)) rfl hawaits hp.generation hp.loading
      exact absurd hjob.symm (hstale r hr)
    · rfl

theorem generation_after_le (slot : SlotKey) (e : LoadEvent)
    (h : (l.slot slot).generation.toNat < 0xFFFFFFFF) :
    (l.slot slot).generation.toNat ≤ ((l.after e).slot slot).generation.toNat ∧
      ((l.after e).slot slot).generation.toNat ≤ (l.slot slot).generation.toNat + 1 := by
  have hnext := (l.slot slot).toNat_nextGeneration
  rw [if_neg (by omega)] at hnext
  cases e with
  | request s a =>
    rw [slot_request]
    split
    · rename_i hs
      rw [hs.2]
      exact ⟨by simp only [hnext]; omega, by simp only [hnext]; omega⟩
    · omega
  | release s =>
    rw [slot_release]
    split
    · rename_i hs
      rw [hs.2]
      exact ⟨by simp only [hnext]; omega, by simp only [hnext]; omega⟩
    · omega
  | pump =>
    rw [generation_pump]
    omega
  | deliver ready => exact ⟨Nat.le_refl _, Nat.le_succ _⟩

/-- A generation takes more than four billion events to start over. -/
theorem unwrapped_of_length_lt {history : List LoadEvent} (h : history.length < 0xFFFFFFFF) :
    Unwrapped sources workers history ∧
      ∀ slot, ((run sources workers history).slot slot).generation.toNat ≤ history.length := by
  induction history with
  | nil => exact ⟨trivial, fun slot => by simp [run, create, Loads.slot, LoadSlot.unused]⟩
  | cons e earlier ih =>
    rw [List.length_cons] at h
    obtain ⟨hw, hle⟩ := ih (by omega)
    have hstep (slot : SlotKey) :=
      generation_after_le (l := { run sources workers earlier with source := sources earlier.length })
        slot e (Nat.lt_of_le_of_lt (hle slot) (by omega))
    refine ⟨⟨hw, fun slot hlt => ?_⟩, fun slot => ?_⟩
    · rw [UInt32.lt_iff_toNat_lt] at hlt
      exact absurd (hstep slot).1 (Nat.not_le_of_lt hlt)
    · exact Nat.le_trans (hstep slot).2 (Nat.succ_le_succ (hle slot))

/-- The second request of a slot ends first and the first one last: the second is shown. -/
theorem showsLatest_run_overtaken :
    let sources : Nat → AssetSource := fun _ _ asset =>
      if asset = 2 then .ok (Model.write ⟨2, [], [], []⟩) else .error "no such asset"
    let history : List LoadEvent := [.deliver fun j => j.ticket = 0, .pump, .deliver fun j => j.ticket = 1,
      .request .background 2, .request .background 1]
    Unwrapped sources .pool history ∧ ShowsLatest sources .pool history ∧
      (run sources .pool history).resource? .background = some ⟨1, .background, ⟨2, [], [], []⟩⟩ ∧
      (run sources .pool history).arrived.map (fun c => c.job.ticket) = [0] :=
  have hw := (unwrapped_of_length_lt (by decide)).1
  ⟨hw, showsLatest_run _ hw, by decide, by decide⟩

theorem slot_pump_of_oldest {newer : List Completion} {c : Completion} (harrived : l.arrived = newer ++ [c])
    (hawaits : (l.slot c.job.slot).awaits c) : (l.after .pump).slot c.job.slot = (l.slot c.job.slot).settle c := by
  have hfirst : ({ l with slots := (apply l.slots c).value.2 } : Loads).slot c.job.slot =
      (l.slot c.job.slot).settle c := by
    rw [slot_apply, if_pos ⟨rfl, hawaits⟩]
  have hpump : (l.after .pump).slot c.job.slot =
      ({ l with slots := (applyAll newer.reverse (apply l.slots c).value.2).value.2 } : Loads).slot c.job.slot := by
    show ({ l with slots := (applyAll l.arrived.reverse l.slots).value.2 } : Loads).slot c.job.slot = _
    rw [harrived, List.reverse_append]
    rfl
  rw [hpump]
  refine slot_applyAll (P := (· = (l.slot c.job.slot).settle c)) newer.reverse _ hfirst ?_
  rintro d - - s hd rfl
  exact absurd (LoadSlot.awaits_eq_true_iff.mp hd).1 (LoadSlot.status_settle_ne_loading _ c)

/-- A slot that has been requested `n` times since its first request, with nothing applied meanwhile. -/
structure Overrun (l : Loads) (slot : SlotKey) (first : Completion) (n : Nat) : Prop where
  workers_eq : l.workers = .inline
  running_eq : l.running = []
  generation_eq : (l.slot slot).generation.toNat = n % 0xFFFFFFFF + 1
  arrived : ∃ newer, l.arrived = newer ++ [first]

theorem Overrun.request {first : Completion} {n : Nat} (h : l.Overrun slot first n) (hslot : slot.fitsHandle = true)
    (asset : UInt32) : (l.after (.request slot asset)).Overrun slot first (n + 1) := by
  have hafter : l.after (.request slot asset) = (l.start slot asset).deliver fun _ => true := by
    rw [after_request, if_pos hslot, if_pos h.workers_eq]
  refine ⟨?_, ?_, ?_, ?_⟩
  · rw [hafter]
    exact h.workers_eq
  · rw [hafter]
    simp [deliver]
  · have hnext := (l.slot slot).toNat_nextGeneration
    rw [h.generation_eq] at hnext
    rw [slot_request, if_pos ⟨hslot, rfl⟩, hnext]
    split <;> omega
  · obtain ⟨newer, harrived⟩ := h.arrived
    have hone : (l.start slot asset).running = [l.jobFor slot asset] := by simp [start, h.running_eq]
    have hold : (l.start slot asset).arrived = newer ++ [first] := harrived
    rw [hafter]
    refine ⟨(l.jobFor slot asset).complete l.source :: newer, ?_⟩
    simp only [deliver, hone, hold]
    rfl

theorem overrun_replicate (sources : Nat → AssetSource) (hslot : slot.fitsHandle = true) (asset later : UInt32)
    (n : Nat) : (run sources .inline (List.replicate n (.request slot later) ++ [.request slot asset])).Overrun slot
      (Job.complete (sources 0) ⟨0, slot, 1, asset⟩) n := by
  induction n with
  | zero =>
    have hrun : run sources .inline [.request slot asset] =
        ((create (sources 0) .inline).start slot asset).deliver fun _ => true :=
      after_request.trans ((if_pos hslot).trans (if_pos rfl))
    have hfirst : ((create (sources 0) .inline).slot slot).nextGeneration = 1 := rfl
    show (run sources .inline [.request slot asset]).Overrun slot _ 0
    rw [hrun]
    refine ⟨rfl, rfl, ?_, [], rfl⟩
    rw [slot_deliver, slot_start, if_pos rfl, hfirst]
    rfl
  | succ n ih =>
    rw [List.replicate_succ, List.cons_append, run]
    refine Overrun.request ?_ hslot later
    exact ⟨ih.workers_eq, ih.running_eq, ih.generation_eq, ih.arrived⟩

/-- When the generations have gone round, the first result counts as that of the latest request. -/
theorem content_of_wrapped (sources : Nat → AssetSource) (slot : SlotKey) (hslot : slot.fitsHandle = true)
    (asset later : UInt32) {n : Nat} (hn : n ≠ 0) (hround : n % 0xFFFFFFFF = 0) : ((run sources .inline
      (.pump :: (List.replicate n (.request slot later) ++ [.request slot asset]))).slot slot).content =
        .settle later (Job.complete (sources 0) ⟨0, slot, 1, asset⟩).result := by
  let earlier := List.replicate n (LoadEvent.request slot later) ++ [.request slot asset]
  let l : Loads := { run sources .inline earlier with source := sources earlier.length }
  have hover := overrun_replicate sources hslot asset later n
  obtain ⟨newer, harrived⟩ := hover.arrived
  have hgeneration : (l.slot slot).generation = 1 := by
    have heq : (l.slot slot).generation.toNat = n % 0xFFFFFFFF + 1 := hover.generation_eq
    rw [hround] at heq
    exact UInt32.toNat_inj.mp heq
  have hcontent : (l.slot slot).content = .loading later := by
    obtain ⟨k, rfl⟩ := Nat.exists_eq_succ_of_ne_zero hn
    have hlatest : earlier = .request slot later :: (List.replicate k (.request slot later) ++ [.request slot asset]) :=
      rfl
    show ((run sources .inline earlier).slot slot).content = _
    rw [hlatest, run, slot_request, if_pos ⟨hslot, rfl⟩]
  -- The first result is taken for that of the latest request: both have generation 1.
  have hawaits : (l.slot slot).awaits (Job.complete (sources 0) ⟨0, slot, 1, asset⟩) = true := by
    rw [LoadSlot.awaits_eq_true_iff, hcontent, hgeneration]
    exact ⟨rfl, rfl⟩
  have hpump : (l.after .pump).slot slot = (l.slot slot).settle (Job.complete (sources 0) ⟨0, slot, 1, asset⟩) :=
    slot_pump_of_oldest harrived hawaits
  show ((l.after .pump).slot slot).content = _
  rw [hpump, LoadSlot.settle, hcontent]
  rfl

theorem exists_latest?_replicate (sources : Nat → AssetSource) (workers : Workers) (slot : SlotKey) (asset : UInt32)
    {n : Nat} (hn : n ≠ 0) (earlier : List LoadEvent) :
    ∃ r, latest? sources workers slot (.pump :: (List.replicate n (.request slot asset) ++ earlier)) = some r ∧
      r.job.asset = asset := by
  obtain ⟨k, rfl⟩ := Nat.exists_eq_succ_of_ne_zero hn
  exact ⟨_, if_pos rfl, rfl⟩

end Loads
end NovelEngine
