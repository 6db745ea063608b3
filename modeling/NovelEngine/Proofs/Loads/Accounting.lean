import NovelEngine.Machine.Schedule
import NovelEngine.Proofs.Loads.Supersession

/-!
# Loads by count

A slot is loading exactly as long as one outstanding result carries its handle, and a pump disposes of every
result that has arrived, once. With nothing outstanding no slot is loading, so nobody waits for a result that
has been there.
-/
namespace NovelEngine

theorem SlotKey.handle_inj {slot other : SlotKey} {generation generation' : UInt32}
    (h : slot.fitsHandle = true) (h' : other.fitsHandle = true) :
    slot.handle generation = other.handle generation' ↔ slot = other ∧ generation = generation' := by
  constructor
  · intro heq
    have hslot := ofHandle?_handle slot generation h
    rw [heq, ofHandle?_handle other generation' h', Option.some_inj] at hslot
    exact ⟨hslot.symm, congrArg LoadHandle.generation heq⟩
  · rintro ⟨rfl, rfl⟩
    rfl

theorem LoadSlot.nextGeneration_ne_zero (s : LoadSlot) : s.nextGeneration ≠ 0 := by
  intro h
  have hnext := s.toNat_nextGeneration
  rw [h, UInt32.toNat_zero] at hnext
  split at hnext <;> omega

namespace Loads

variable {sources : Nat → AssetSource} {workers : Workers} {l l' : Loads}
  {slot other : SlotKey} {asset : UInt32} {jobs jobs' : List Job}
  {time : Nat} {latest : Option LoadRequest}

def currentHandle (l : Loads) (slot : SlotKey) : LoadHandle := slot.handle (l.slot slot).generation

/-- How many outstanding results carry the current handle of a slot. -/
def due (l : Loads) (slot : SlotKey) : Nat :=
  l.outstanding.countP fun j => j.handle = l.currentHandle slot

/-- Those of some results that count when they are applied one after another. -/
def counted : List Completion → SlotMap LoadSlot → List Completion
  | [], _ => []
  | c :: cs, slots =>
    let r := (apply slots c).value
    if r.1 then c :: counted cs r.2 else counted cs r.2

/-- The books of loads that still owe the results of some jobs. -/
structure Balanced (l : Loads) (jobs : List Job) : Prop where
  distinct : l.slots.Distinct
  job_fits : ∀ j ∈ jobs, j.slot.fitsHandle = true
  job_generation : ∀ j ∈ jobs, j.generation ≠ 0
  unfit : ∀ slot, slot.fitsHandle = false → l.slot slot = .unused
  owed_eq : ∀ slot, jobs.countP (fun j => j.slot = slot ∧ j.generation = (l.slot slot).generation) =
    if l.status slot = .loading then 1 else 0

theorem Balanced.of_slots (h : l.Balanced jobs) (hslots : l'.slots = l.slots) : l'.Balanced jobs := by
  obtain ⟨source, workers, slots, issued, running, arrived⟩ := l'
  obtain rfl : slots = l.slots := hslots
  exact ⟨h.distinct, h.job_fits, h.job_generation, h.unfit, h.owed_eq⟩

theorem balanced_create (source : AssetSource) : (create source workers).Balanced [] :=
  ⟨SlotMap.distinct_empty, nofun, nofun, fun _ _ => rfl, fun _ => rfl⟩

theorem Balanced.perm (h : l.Balanced jobs) (hperm : jobs.Perm jobs') : l.Balanced jobs' where
  distinct := h.distinct
  job_fits j hj := h.job_fits j (hperm.mem_iff.mpr hj)
  job_generation j hj := h.job_generation j (hperm.mem_iff.mpr hj)
  unfit := h.unfit
  owed_eq slot := by rw [← hperm.countP_eq, h.owed_eq]

theorem Balanced.renew (h : l.Balanced jobs) (hfits : slot.fitsHandle = true)
    (hlt : ∀ j ∈ jobs, j.slot = slot → j.generation < (l.slot slot).nextGeneration) (content : Content)
    (fresh : List Job) (hnew : ∀ j ∈ fresh, j.slot = slot ∧ j.generation = (l.slot slot).nextGeneration)
    (hlength : fresh.length = if content.status = .loading then 1 else 0) :
    Balanced { l with slots := l.slots.set slot ⟨(l.slot slot).nextGeneration, content⟩ } (fresh ++ jobs) where
  distinct := h.distinct.set slot _
  job_fits j hj := by
    rcases List.mem_append.mp hj with hj | hj
    · rw [(hnew j hj).1]
      exact hfits
    · exact h.job_fits j hj
  job_generation j hj := by
    rcases List.mem_append.mp hj with hj | hj
    · rw [(hnew j hj).2]
      exact LoadSlot.nextGeneration_ne_zero _
    · exact h.job_generation j hj
  unfit other hother := by
    rw [slot_set, if_neg (by rintro rfl; simp_all)]
    exact h.unfit other hother
  owed_eq other := by
    rw [List.countP_append]
    by_cases hs : slot = other
    · subst hs
      have hold : jobs.countP (fun j => j.slot = slot ∧ j.generation = (l.slot slot).nextGeneration) = 0 := by
        rw [List.countP_eq_zero]
        intro j hj hand
        simp only [decide_eq_true_eq] at hand
        exact UInt32.ne_of_lt (hlt j hj hand.1) hand.2
      have hall : fresh.countP (fun j => j.slot = slot ∧ j.generation = (l.slot slot).nextGeneration) =
          fresh.length := by
        rw [List.countP_eq_length]
        intro j hj
        simpa using hnew j hj
      simp only [status, slot_set, if_true, hold, hall, hlength, Nat.add_zero]
    · have hnone : fresh.countP (fun j => j.slot = other ∧ j.generation = (l.slot other).generation) = 0 := by
        rw [List.countP_eq_zero]
        intro j hj hand
        simp only [decide_eq_true_eq] at hand
        exact hs ((hnew j hj).1.symm.trans hand.1)
      simp only [status, slot_set, hs, if_false]
      rw [hnone, Nat.zero_add]
      exact h.owed_eq other

theorem Balanced.apply {c : Completion} {slots : SlotMap LoadSlot}
    (h : Balanced { l with slots } (c.job :: jobs)) :
    Balanced { l with slots := (apply slots c).value.2 } jobs where
  distinct := by
    rw [apply_eq]
    split
    · exact h.distinct.set c.job.slot _
    · exact h.distinct
  job_fits j hj := h.job_fits j (List.mem_cons_of_mem _ hj)
  job_generation j hj := h.job_generation j (List.mem_cons_of_mem _ hj)
  unfit slot hslot := by
    have hfits := h.job_fits c.job List.mem_cons_self
    rw [slot_apply, if_neg (by rintro ⟨rfl, -⟩; simp_all)]
    exact h.unfit slot hslot
  owed_eq slot := by
    have howed := h.owed_eq slot
    rw [List.countP_cons] at howed
    simp only [status, slot_apply] at howed ⊢
    by_cases hs : c.job.slot = slot
    · by_cases hawaits : (({ l with slots } : Loads).slot slot).awaits c = true
      · have hand := LoadSlot.awaits_eq_true_iff.mp hawaits
        rw [if_pos ⟨hs, hawaits⟩, if_neg (LoadSlot.status_settle_ne_loading _ c)]
        simp only [hs, hand.1, ← hand.2, and_self, decide_true, if_true] at howed
        exact Nat.succ.inj howed
      · rw [if_neg (fun hand => hawaits hand.2)]
        -- a result that does not count has no share in what is owed to its slot
        by_cases hgen : c.job.generation = (({ l with slots } : Loads).slot slot).generation
        · simp only [LoadSlot.awaits, hgen, decide_true, Bool.and_true, decide_eq_true_eq] at hawaits
          simp [hs, hgen, hawaits] at howed
        · simp only [hgen, and_false, decide_false, Bool.false_eq_true, if_false, Nat.add_zero] at howed
          exact howed
    · rw [if_neg (fun hand => hs hand.1)]
      simp only [hs, false_and, decide_false, Bool.false_eq_true, if_false, Nat.add_zero] at howed
      exact howed

theorem Balanced.applyAll {results : List Completion} {slots : SlotMap LoadSlot}
    (h : Balanced { l with slots } (results.map Completion.job ++ jobs)) :
    Balanced { l with slots := (applyAll results slots).value.2 } jobs := by
  induction results generalizing slots with
  | nil => exact h
  | cons c cs ih => exact ih (Balanced.apply h)

theorem outstanding_deliver_perm (ready : Job → Bool) :
    (l.deliver ready).outstanding.Perm l.outstanding := by
  have hjobs : (((l.running.filter ready).map (Job.complete l.source)).reverse ++ l.arrived).map
      Completion.job = (l.running.filter ready).reverse ++ l.arrived.map Completion.job := by
    rw [List.map_append, List.map_reverse, List.map_map]
    exact congrArg (fun jobs => jobs.reverse ++ _) (List.map_id _)
  have hparts : (l.running.filter (fun j => !ready j) ++ (l.running.filter ready).reverse).Perm l.running :=
    ((List.reverse_perm _).append_left _).trans
      (List.perm_append_comm.trans (List.filter_append_perm ready l.running))
  rw [outstanding, deliver, hjobs, ← List.append_assoc]
  exact hparts.append_right _

theorem outstanding_request_perm (hfits : slot.fitsHandle = true) :
    (l.after (.request slot asset)).outstanding.Perm ([l.jobFor slot asset] ++ l.outstanding) := by
  have hstart : (l.start slot asset).outstanding.Perm ([l.jobFor slot asset] ++ l.outstanding) := by
    rw [outstanding, start, outstanding, ← List.append_assoc]
    exact List.perm_append_comm.append_right _
  rw [after_request, if_pos hfits]
  split
  · exact (outstanding_deliver_perm _).trans hstart
  · exact hstart

theorem Balanced.request (h : l.Balanced l.outstanding) (ht : Tracked sources time l slot latest)
    (hwrap : ((l.after (.request slot asset)).slot slot).generation < (l.slot slot).generation →
      ∀ j ∈ l.outstanding, j.slot ≠ slot) :
    (l.after (.request slot asset)).Balanced (l.after (.request slot asset)).outstanding := by
  by_cases hfits : slot.fitsHandle = true
  · rw [slot_request, if_pos ⟨hfits, rfl⟩] at hwrap
    have hrenewed := h.renew hfits (ht.lt_nextGeneration hwrap) (.loading asset) [l.jobFor slot asset]
      (by simp [jobFor]) (by simp [Content.status])
    refine (hrenewed.perm (outstanding_request_perm hfits).symm).of_slots ?_
    rw [after_request, if_pos hfits]
    split <;> rfl
  · rwa [after_request, if_neg hfits]

theorem Balanced.release (h : l.Balanced l.outstanding) (ht : Tracked sources time l slot latest)
    (hwrap : ((l.after (.release slot)).slot slot).generation < (l.slot slot).generation →
      ∀ j ∈ l.outstanding, j.slot ≠ slot) :
    (l.after (.release slot)).Balanced (l.after (.release slot)).outstanding := by
  rw [outstanding_release]
  by_cases hempty : (l.slot slot).content = .empty
  · rwa [after_release, if_pos hempty]
  · have hfits : slot.fitsHandle = true := by
      cases hf : slot.fitsHandle with
      | true => rfl
      | false => exact absurd (congrArg LoadSlot.content (h.unfit slot hf)) hempty
    rw [slot_release, if_pos ⟨hempty, rfl⟩] at hwrap
    rw [after_release, if_neg hempty]
    exact h.renew hfits (ht.lt_nextGeneration hwrap) .empty [] nofun rfl

theorem Balanced.deliver (h : l.Balanced l.outstanding) (ready : Job → Bool) :
    (l.deliver ready).Balanced (l.deliver ready).outstanding :=
  (h.perm (outstanding_deliver_perm ready).symm).of_slots rfl

theorem Balanced.pump (h : l.Balanced l.outstanding) :
    (l.after .pump).Balanced (l.after .pump).outstanding := by
  have hall : Balanced { l with slots := l.slots }
      (l.arrived.reverse.map Completion.job ++ (l.after .pump).outstanding) := by
    refine h.perm (List.perm_append_comm.trans ?_)
    rw [List.map_reverse]
    have hrest : (l.after .pump).outstanding = l.running := List.append_nil _
    rw [hrest]
    exact (List.reverse_perm _).symm.append_right _
  exact hall.applyAll.of_slots rfl

theorem balanced_run (history : List LoadEvent) (hw : Unwrapped sources workers history) :
    (run sources workers history).Balanced (run sources workers history).outstanding := by
  induction history with
  | nil => exact balanced_create _
  | cons e earlier ih =>
    have hnow : Balanced { run sources workers earlier with source := sources earlier.length }
        (run sources workers earlier).outstanding := (ih hw.1).of_slots rfl
    have ht (slot : SlotKey) : Tracked sources earlier.length
        { run sources workers earlier with source := sources earlier.length } slot
        (latest? sources workers slot earlier) :=
      let h := tracked_run slot earlier hw.1
      ⟨h.unfit, h.generation_le, h.loading, h.settled⟩
    rw [run]
    cases e with
    | request slot asset => exact hnow.request (ht slot) (hw.2 slot)
    | release slot => exact hnow.release (ht slot) (hw.2 slot)
    | pump => exact hnow.pump
    | deliver ready => exact hnow.deliver ready

theorem Balanced.due_eq (h : l.Balanced l.outstanding) (slot : SlotKey) :
    l.due slot = if l.status slot = .loading then 1 else 0 := by
  rw [← h.owed_eq slot, due]
  refine List.countP_congr fun j hj => ?_
  rw [decide_eq_true_iff, decide_eq_true_iff]
  by_cases hfits : slot.fitsHandle = true
  · exact SlotKey.handle_inj (h.job_fits j hj) hfits
  · -- no job is for this slot, and its handle has a generation that no job has
    have hunused := h.unfit slot (by simpa using hfits)
    refine iff_of_false (fun heq => ?_) fun hand => h.job_generation j hj (by rw [hand.2, hunused]; rfl)
    have hgen : j.generation = (l.slot slot).generation := congrArg LoadHandle.generation heq
    exact h.job_generation j hj (by rw [hgen, hunused]; rfl)

theorem Balanced.hasPending_iff (h : l.Balanced jobs) :
    l.hasPending = true ↔ ∃ slot, l.status slot = .loading := by
  simp only [hasPending, List.any_eq_true, decide_eq_true_eq]
  constructor
  · rintro ⟨⟨slot, s⟩, hmem, hs⟩
    refine ⟨slot, ?_⟩
    rw [status, Loads.slot, h.distinct.mem_entries_iff.mp hmem]
    exact hs
  · rintro ⟨slot, hs⟩
    cases hget : l.slots.get? slot with
    | none => simp [status, Loads.slot, hget, LoadSlot.unused, Content.status] at hs
    | some s =>
      refine ⟨(slot, s), h.distinct.mem_entries_iff.mpr hget, ?_⟩
      simpa [status, Loads.slot, hget] using hs

theorem applied_add_stale_eq (results : List Completion) (slots : SlotMap LoadSlot) :
    let report := (applyAll results slots).value.1
    report.applied = (counted results slots).length ∧ report.applied + report.stale = results.length := by
  induction results generalizing slots with
  | nil => exact ⟨rfl, rfl⟩
  | cons c cs ih =>
    obtain ⟨happlied, hsum⟩ := ih (Loads.apply slots c).value.2
    simp only [applyAll, Noted.value_bind, Noted.value_map, counted, PumpReport.count, List.length_cons]
    split
    · exact ⟨by rw [happlied, List.length_cons], by simp only; omega⟩
    · exact ⟨happlied, by simp only; omega⟩

/-- A result only counts for a slot that is loading, and it ends the loading. -/
theorem counted_slots (results : List Completion) (slots : SlotMap LoadSlot) :
    (∀ c ∈ counted results slots, { l with slots }.status c.job.slot = .loading) ∧
      ((counted results slots).map fun c => c.job.slot).Nodup := by
  induction results generalizing slots with
  | nil => exact ⟨nofun, List.nodup_nil⟩
  | cons c cs ih =>
    obtain ⟨hloading, hnodup⟩ := ih (Loads.apply slots c).value.2
    have hstill (slot : SlotKey)
        (h : Loads.status { l with slots := (Loads.apply slots c).value.2 } slot = .loading) :
        Loads.status { l with slots } slot = .loading ∧
          ((Loads.apply slots c).value.1 = true → c.job.slot ≠ slot) := by
      rw [status, slot_apply] at h
      split at h
      · exact absurd h (LoadSlot.status_settle_ne_loading _ c)
      · rename_i hnot
        refine ⟨h, fun hcounts hs => hnot ⟨hs, ?_⟩⟩
        subst hs
        rw [apply_eq] at hcounts
        split at hcounts
        · assumption
        · cases hcounts
    rw [counted]
    split
    · rename_i hcounts
      refine ⟨List.forall_mem_cons.mpr ⟨?_, fun d hd => (hstill _ (hloading d hd)).1⟩, ?_⟩
      · rw [apply_eq] at hcounts
        split at hcounts
        · rename_i hawaits
          exact (LoadSlot.awaits_eq_true_iff.mp hawaits).1
        · cases hcounts
      · rw [List.map_cons, List.nodup_cons]
        refine ⟨fun hmem => ?_, hnodup⟩
        obtain ⟨d, hd, hs⟩ := List.mem_map.mp hmem
        exact (hstill _ (hloading d hd)).2 hcounts hs.symm
    · exact ⟨fun d hd => (hstill _ (hloading d hd)).1, hnodup⟩

theorem Balanced.idle (h : l.Balanced []) : (∀ slot, l.status slot ≠ .loading) ∧ l.hasPending = false := by
  have hnone : ∀ slot, l.status slot ≠ .loading := by
    intro slot hs
    have howed := h.owed_eq slot
    rw [if_pos hs] at howed
    cases howed
  refine ⟨hnone, Bool.eq_false_iff.mpr fun hpending => ?_⟩
  obtain ⟨slot, hs⟩ := h.hasPending_iff.mp hpending
  exact hnone slot hs

theorem Balanced.status_ne_loading_iff (h : l.Balanced l.outstanding) :
    l.status slot ≠ .loading ↔ ∀ j ∈ l.outstanding, j.handle ≠ l.currentHandle slot := by
  have hdue := h.due_eq slot
  rw [due] at hdue
  have hzero : l.status slot ≠ .loading ↔
      l.outstanding.countP (fun j => j.handle = l.currentHandle slot) = 0 := by
    rw [hdue]
    split <;> simp_all
  simpa [List.countP_eq_zero] using hzero

theorem outstanding_pump : (l.after .pump).outstanding = l.running := List.append_nil _

theorem outstanding_deliver_all : ((l.deliver fun _ => true).after .pump).outstanding = [] := by
  rw [outstanding_pump, deliver]
  simp

/-- What is owed to the slots after a history, what the next pump makes of it, and that nobody waits for what
has arrived. -/
structure Accounted (sources : Nat → AssetSource) (workers : Workers) (history : List LoadEvent) : Prop where
  loading_iff : ∀ slot, (run sources workers history).status slot = .loading ↔
    (run sources workers history).due slot = 1
  due_eq_zero : ∀ slot, (run sources workers history).status slot ≠ .loading →
    (run sources workers history).due slot = 0
  report_eq :
    let l := run sources workers history
    l.pump.value.1.applied = (counted l.arrived.reverse l.slots).length ∧
      l.pump.value.1.applied + l.pump.value.1.stale = l.arrived.length
  counted_nodup :
    let l := run sources workers history
    ((counted l.arrived.reverse l.slots).map fun c => c.job.slot).Nodup
  idle : (run sources workers history).outstanding = [] →
    (∀ slot, (run sources workers history).status slot ≠ .loading) ∧
      (run sources workers history).hasPending = false
  completed : ((run sources workers history).deliver fun _ => true).pump.value.2.hasPending = false
  waiting : ∀ (slot : SlotKey) (thread : Thread) (delta : Single) (globals : Globals),
    thread.state = .waiting (.resource slot) →
    (∀ j ∈ (run sources workers history).running,
      j.handle ≠ (run sources workers history).currentHandle slot) →
    (thread.poll delta globals (run sources workers history).pump.value.2.status).1 = true

/-- The results of all requests are accounted for after every history. -/
theorem accounted_run (history : List LoadEvent) (hw : Unwrapped sources workers history) :
    Accounted sources workers history := by
  have h := balanced_run history hw
  generalize hl : run sources workers history = l at h
  have hdue := h.due_eq
  have hreport := applied_add_stale_eq l.arrived.reverse l.slots
  rw [List.length_reverse] at hreport
  refine ⟨fun slot => ?_, fun slot hs => ?_, ?_, ?_, fun hnone => ?_, ?_, ?_⟩
  · rw [hl, hdue]
    split <;> simp_all
  · rw [hl] at hs ⊢
    rw [hdue, if_neg hs]
  · rw [hl]
    exact hreport
  · rw [hl]
    exact (counted_slots (l := l) l.arrived.reverse l.slots).2
  · rw [hl] at hnone ⊢
    exact (hnone ▸ h).idle
  · have hdone := (h.deliver fun _ => true).pump
    rw [outstanding_deliver_all] at hdone
    rw [hl]
    exact hdone.idle.2
  · intro slot thread delta globals hstate hrunning
    rw [hl] at hrunning ⊢
    have hsettled : (l.after .pump).status slot ≠ .loading := by
      rw [h.pump.status_ne_loading_iff, outstanding_pump, currentHandle, generation_pump]
      exact hrunning
    have hsettled : ((l.after .pump).status slot).isSettled = true := decide_eq_true hsettled
    have hpump : l.pump.value.2 = l.after .pump := rfl
    rw [Thread.poll, hstate, hpump]
    simp only [hsettled, if_true]

/-- Two requests of one slot and one of another, of which the first has ended: its result is dropped, and
what the slot waits for is still to come. -/
theorem accounted_run_superseded :
    let sources : Nat → AssetSource := fun _ _ _ => .error "no such asset"
    let history : List LoadEvent := [.deliver fun j => j.ticket ≠ 1, .request (.character 0) 3,
      .request .background 2, .request .background 1]
    Unwrapped sources .pool history ∧ Accounted sources .pool history ∧
      (run sources .pool history).due .background = 1 ∧ (run sources .pool history).due (.character 0) = 1 ∧
      (run sources .pool history).pump.value.1 = ⟨1, 1⟩ ∧
      (run sources .pool history).pump.value.2.hasPending = true ∧
      (run sources .pool history).pump.value.2.status (.character 0) = .failed :=
  have hw := (unwrapped_of_length_lt (by decide)).1
  ⟨hw, accounted_run _ hw, by decide, by decide, by decide, by decide, by decide⟩

end Loads
end NovelEngine
