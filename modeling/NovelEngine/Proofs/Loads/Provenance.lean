import NovelEngine.Proofs.Loads.Accounting

/-!
# Where results come from

Even where generations start over, every result is that of some request, tickets tell the outstanding results
apart, and what a slot has settled on comes from a request with the handle of its latest one.
-/
namespace NovelEngine.Loads

variable {sources : Nat → AssetSource} {workers : Workers} {l l' : Loads} {slot : SlotKey} {asset : UInt32}
  {time : Nat} {made made' : List LoadRequest}

/-- The outstanding results have tickets of their own, and loaded resources carry the tickets of their jobs. -/
structure Ticketed (l : Loads) : Prop where
  nodup : (l.outstanding.map Job.ticket).Nodup
  lt_issued : ∀ j ∈ l.outstanding, j.ticket < l.issued
  stamped : ∀ c ∈ l.arrived, ∀ r, c.result = .ok r → r.ticket = c.job.ticket

theorem ticket_complete {source : AssetSource} {j : Job} {r : Resource}
    (h : (j.complete source).result = .ok r) : r.ticket = j.ticket := by
  obtain ⟨model, -, rfl⟩ := complete_ok_iff.mp h
  rfl

theorem Ticketed.of_perm (h : l.Ticketed) (hperm : l'.outstanding.Perm l.outstanding)
    (hissued : l'.issued = l.issued)
    (harrived : ∀ c ∈ l'.arrived, c ∈ l.arrived ∨ ∃ j : Job, c = j.complete l.source) : l'.Ticketed where
  nodup := (hperm.map Job.ticket).nodup_iff.mpr h.nodup
  lt_issued j hj := hissued ▸ h.lt_issued j (hperm.mem_iff.mp hj)
  stamped c hc r hr := by
    rcases harrived c hc with hold | ⟨j, rfl⟩
    · exact h.stamped c hold r hr
    · exact ticket_complete hr

theorem issued_request (hfits : slot.fitsHandle = true) :
    (l.after (.request slot asset)).issued = l.issued + 1 := by
  rw [after_request, if_pos hfits]
  split <;> rfl

theorem issued_release : (l.after (.release slot)).issued = l.issued := by
  rw [after_release]
  split <;> rfl

theorem Ticketed.request (h : l.Ticketed) (slot : SlotKey) (asset : UInt32) :
    (l.after (.request slot asset)).Ticketed := by
  by_cases hfits : slot.fitsHandle = true
  · have hperm : (l.after (.request slot asset)).outstanding.Perm ([l.jobFor slot asset] ++ l.outstanding) :=
      outstanding_request_perm hfits
    have hissued : (l.after (.request slot asset)).issued = l.issued + 1 := issued_request hfits
    refine ⟨(hperm.map Job.ticket).nodup_iff.mpr ?_, fun j hj => ?_, fun c hc r hr => ?_⟩
    · refine List.nodup_cons.mpr ⟨fun hmem => ?_, h.nodup⟩
      obtain ⟨j, hj, hticket⟩ := List.mem_map.mp hmem
      exact absurd (h.lt_issued j hj) (hticket ▸ Nat.lt_irrefl _)
    · rw [hissued]
      rcases List.mem_append.mp (hperm.mem_iff.mp hj) with hnew | hold
      · rw [List.mem_singleton.mp hnew]
        exact Nat.lt_succ_self _
      · exact Nat.lt_succ_of_lt (h.lt_issued j hold)
    · rcases mem_arrived_request hc with hold | ⟨j, rfl⟩
      · exact h.stamped c hold r hr
      · exact ticket_complete hr
  · rwa [after_request, if_neg hfits]

theorem Ticketed.after (h : l.Ticketed) (e : LoadEvent) : (l.after e).Ticketed := by
  cases e with
  | request slot asset => exact h.request slot asset
  | release slot =>
    exact h.of_perm (by rw [outstanding_release]) issued_release
      fun c hc => .inl (by rwa [arrived_release] at hc)
  | pump =>
    refine ⟨?_, fun j hj => ?_, nofun⟩
    · rw [outstanding_pump]
      exact (List.sublist_append_left l.running _).map Job.ticket |>.nodup h.nodup
    · rw [outstanding_pump] at hj
      exact h.lt_issued j (List.mem_append_left _ hj)
  | deliver ready =>
    exact h.of_perm (outstanding_deliver_perm ready) rfl fun c hc => mem_arrived_deliver hc

theorem ticketed_create (source : AssetSource) : (create source workers).Ticketed :=
  ⟨List.nodup_nil, nofun, nofun⟩

section

variable (sources : Nat → AssetSource) (workers : Workers)

def requests : List LoadEvent → List LoadRequest
  | [] => []
  | .request slot asset :: earlier =>
    ⟨earlier.length, (run sources workers earlier).jobFor slot asset⟩ :: requests earlier
  | .release _ :: earlier | .pump :: earlier | .deliver _ :: earlier => requests earlier

end

/-- Every job, result and settled slot goes back to one of the requests made. -/
structure Traced (sources : Nat → AssetSource) (time : Nat) (l : Loads) (made : List LoadRequest) : Prop where
  outstanding : ∀ j ∈ l.outstanding, ∃ r ∈ made, r.job = j
  arrived : ∀ c ∈ l.arrived, ∃ r ∈ made, r.job = c.job ∧ r.Yields sources time c.result
  settled : ∀ slot asset result, (l.slot slot).content = .settle asset result → ∃ r ∈ made,
    r.job.slot = slot ∧ r.job.generation = (l.slot slot).generation ∧ r.Yields sources time result

theorem LoadRequest.Yields.mono {r : LoadRequest} {result : Except LoadError Resource}
    (h : r.Yields sources time result) : r.Yields sources (time + 1) result := by
  obtain ⟨t, hle, hlt, heq⟩ := h
  exact ⟨t, hle, by omega, heq⟩

theorem Traced.keep (h : Traced sources time l made) (hmade : ∀ r ∈ made, r ∈ made')
    (hmoment : ∀ r ∈ made', r.moment ≤ time)
    (hout : ∀ j ∈ l'.outstanding, j ∈ l.outstanding ∨ ∃ r ∈ made', r.job = j)
    (harrived : ∀ c ∈ l'.arrived, c ∈ l.arrived ∨ ∃ j : Job, c = j.complete (sources time))
    (hslot : ∀ slot asset result, (l'.slot slot).content = .settle asset result →
      l'.slot slot = l.slot slot) : Traced sources (time + 1) l' made' := by
  have hjobs : ∀ j ∈ l'.outstanding, ∃ r ∈ made', r.job = j := by
    intro j hj
    rcases hout j hj with hold | hnew
    · obtain ⟨r, hr, hjob⟩ := h.outstanding j hold
      exact ⟨r, hmade r hr, hjob⟩
    · exact hnew
  refine ⟨hjobs, fun c hc => ?_, fun slot asset result hs => ?_⟩
  · rcases harrived c hc with hold | ⟨j, rfl⟩
    · obtain ⟨r, hr, hjob, hyields⟩ := h.arrived c hold
      exact ⟨r, hmade r hr, hjob, LoadRequest.Yields.mono hyields⟩
    · obtain ⟨r, hr, hjob⟩ := hjobs j (mem_outstanding_of_arrived hc)
      subst hjob
      exact ⟨r, hr, rfl, time, hmoment r hr, by omega, rfl⟩
  · have hsame := hslot slot asset result hs
    rw [hsame] at hs ⊢
    obtain ⟨r, hr, hslot, hgen, hyields⟩ := h.settled slot asset result hs
    exact ⟨r, hmade r hr, hslot, hgen, LoadRequest.Yields.mono hyields⟩

theorem Traced.pump (h : Traced sources time l made) : Traced sources (time + 1) (l.after .pump) made where
  outstanding j hj := by
    rw [outstanding_pump] at hj
    exact h.outstanding j (List.mem_append_left _ hj)
  arrived := nofun
  settled slot asset result hs := by
    rcases l.slot_pump slot with hslot | ⟨c, hc, hcs, hawaits, hslot⟩
    · rw [hslot] at hs ⊢
      obtain ⟨r, hr, hrs, hgen, hyields⟩ := h.settled slot asset result hs
      exact ⟨r, hr, hrs, hgen, LoadRequest.Yields.mono hyields⟩
    · obtain ⟨r, hr, hjob, hyields⟩ := h.arrived c hc
      have hgen := (LoadSlot.awaits_eq_true_iff.mp hawaits).2
      rw [hslot, LoadSlot.settle] at hs
      obtain ⟨-, rfl⟩ := Content.settle_inj.mp hs
      refine ⟨r, hr, ?_, ?_, LoadRequest.Yields.mono hyields⟩
      · rw [hjob, hcs]
      · rw [generation_pump, hgen, hjob]

theorem requests_moment_lt {history : List LoadEvent} {r : LoadRequest}
    (h : r ∈ requests sources workers history) : r.moment < history.length := by
  induction history with
  | nil => cases h
  | cons e earlier ih =>
    cases e with
    | request slot asset =>
      rcases List.mem_cons.mp h with rfl | hold
      · exact Nat.lt_succ_self _
      · exact Nat.lt_succ_of_lt (ih hold)
    | release slot => exact Nat.lt_succ_of_lt (ih h)
    | pump => exact Nat.lt_succ_of_lt (ih h)
    | deliver ready => exact Nat.lt_succ_of_lt (ih h)

theorem traced_run (history : List LoadEvent) :
    Traced sources history.length (run sources workers history) (requests sources workers history) := by
  induction history with
  | nil => exact ⟨nofun, nofun, fun _ asset result h => absurd h.symm (Content.settle_ne_empty asset result)⟩
  | cons e earlier ih =>
    have hnow : Traced sources earlier.length
        { run sources workers earlier with source := sources earlier.length }
        (requests sources workers earlier) := ⟨ih.outstanding, ih.arrived, ih.settled⟩
    have hmoment : ∀ r ∈ requests sources workers (e :: earlier), r.moment ≤ earlier.length :=
      fun r hr => Nat.le_of_lt_succ (requests_moment_lt hr)
    rw [run, List.length_cons]
    cases e with
    | request slot asset =>
      refine hnow.keep (fun r hr => List.mem_cons_of_mem _ hr) hmoment (fun j hj => ?_)
        (fun c hc => mem_arrived_request hc) fun other asset' result hs => ?_
      · rcases mem_outstanding_request.mp hj with hold | ⟨-, rfl⟩
        · exact .inl hold
        · exact .inr ⟨_, List.mem_cons_self, rfl⟩
      · rw [slot_request] at hs ⊢
        split at hs
        · exact absurd hs.symm (Content.settle_ne_loading _ _ _)
        · rw [if_neg ‹_›]
    | release slot =>
      refine hnow.keep (fun r hr => hr) hmoment (fun j hj => .inl (by rwa [outstanding_release] at hj))
        (fun c hc => .inl (by rwa [arrived_release] at hc)) fun other asset' result hs => ?_
      rw [slot_release] at hs ⊢
      split at hs
      · exact absurd hs.symm (Content.settle_ne_empty _ _)
      · rw [if_neg ‹_›]
    | pump => exact hnow.pump
    | deliver ready =>
      exact hnow.keep (fun r hr => hr) hmoment (fun j hj => .inl ((mem_outstanding_deliver ready).mp hj))
        (fun c hc => mem_arrived_deliver hc) fun _ _ _ _ => rfl

theorem content_pump_eq_empty (h : (l.slot slot).content = .empty) :
    ((l.after .pump).slot slot).content = .empty := by
  rcases l.slot_pump slot with hslot | ⟨c, -, -, hawaits, -⟩
  · rw [hslot, h]
  · simp [LoadSlot.awaits_eq_true_iff, h, Content.status] at hawaits

theorem empty_of_unfit (hfits : slot.fitsHandle = false) (history : List LoadEvent) :
    ((run sources workers history).slot slot).content = .empty := by
  induction history with
  | nil => rfl
  | cons e earlier ih =>
    have hnow : ({ run sources workers earlier with source := sources earlier.length }.slot slot).content =
        .empty := ih
    rw [run]
    cases e with
    | request other asset => rwa [slot_request, if_neg (by rintro ⟨hother, rfl⟩; simp_all)]
    | release other => rwa [slot_release, if_neg (by rintro ⟨hother, rfl⟩; exact hother hnow)]
    | pump => exact content_pump_eq_empty hnow
    | deliver ready => exact hnow

/-- A slot that is not empty has the generation of its latest request. -/
theorem latest?_generation {history : List LoadEvent}
    (h : ((run sources workers history).slot slot).content ≠ .empty) :
    ∃ r, latest? sources workers slot history = some r ∧
      r.job.generation = ((run sources workers history).slot slot).generation := by
  have hfits : slot.fitsHandle = true := Bool.not_eq_false _ ▸ fun hf => h (empty_of_unfit hf history)
  induction history with
  | nil => exact absurd rfl h
  | cons e earlier ih =>
    rw [run] at h ⊢
    cases e with
    | request other asset =>
      rw [latest?]
      by_cases hs : other = slot
      · subst hs
        rw [if_pos rfl, slot_request, if_pos ⟨hfits, rfl⟩]
        exact ⟨_, rfl, rfl⟩
      · rw [if_neg hs]
        rw [slot_request, if_neg fun hand => hs hand.2] at h ⊢
        exact ih h
    | release other =>
      rw [latest?]
      by_cases hs : other = slot
      · subst hs
        exact absurd content_release h
      · rw [if_neg hs]
        rw [slot_release, if_neg fun hand => hs hand.2] at h ⊢
        exact ih h
    | pump =>
      rw [generation_pump]
      exact ih fun hempty => h (content_pump_eq_empty hempty)
    | deliver ready => exact ih h

end NovelEngine.Loads
