import NovelEngine.Proofs.Scene.History

/-!
# What is shown and what is loaded

Scripts see the statuses of slots, the renderer sees what the scene shows, and the two agree at every point
between updates: a loaded slot is shown, an empty or failed one is not, and a slot that is loading shows at most
what it held before. A character stays the same one as long as its slot keeps it.
-/
namespace NovelEngine

namespace Loads

variable {l : Loads} {slot : SlotKey} {resource : Resource}

theorem status_eq_loaded_iff : l.status slot = .loaded ↔ ∃ resource, l.resource? slot = some resource := by
  rw [status, Loads.resource?]
  cases (l.slot slot).content <;> simp [Content.status, Content.resource?]

theorem Ticketed.resource?_pump (h : l.Ticketed) (hloading : l.status slot = .loading)
    (hresource : (l.after .pump).resource? slot = some resource) :
    (∃ j ∈ l.outstanding, j.ticket = resource.ticket) ∧
      ∀ j ∈ (l.after .pump).outstanding, j.ticket ≠ resource.ticket := by
  have hempty : l.resource? slot ≠ some resource := by
    intro hsome
    rw [status_eq_loaded_iff.mpr ⟨resource, hsome⟩] at hloading
    cases hloading
  rcases l.slot_pump slot with hslot | ⟨c, hc, -, -, hslot⟩
  · rw [Loads.resource?, hslot] at hresource
    exact absurd hresource hempty
  · have hresult : c.result = .ok resource := by
      rw [Loads.resource?, hslot, LoadSlot.settle] at hresource
      cases hr : c.result <;> simp [hr, Content.settle, Content.resource?] at hresource
      rw [hresource]
    have hticket : c.job.ticket = resource.ticket := (h.stamped c hc resource hresult).symm
    refine ⟨⟨c.job, mem_outstanding_of_arrived hc, hticket⟩, ?_⟩
    intro j hj heq
    rw [outstanding_pump] at hj
    have hnodup := h.nodup
    rw [outstanding, List.map_append, List.nodup_append] at hnodup
    have harrived : c.job.ticket ∈ (l.arrived.map Completion.job).map Job.ticket :=
      List.mem_map_of_mem (List.mem_map_of_mem hc)
    exact hnodup.2.2 j.ticket (List.mem_map_of_mem hj) c.job.ticket harrived (heq.trans hticket.symm)

end Loads

namespace Scene

variable {sources : Nat → AssetSource} {workers : Workers} {s : Scene} {slot : SlotKey} {e : SceneEvent}

/-- What the scene shows in a slot is no result that is still to come. -/
def Delivered (s : Scene) (slot : SlotKey) : Prop :=
  ∀ resource, s.shown slot = some resource →
    resource.ticket < s.loads.issued ∧ ∀ j ∈ s.loads.outstanding, j.ticket ≠ resource.ticket

theorem Delivered.keep {s' : Scene} (h : s.Delivered slot) (hshown : s'.shown slot = s.shown slot)
    (hissued : s.loads.issued ≤ s'.loads.issued)
    (hout : ∀ j ∈ s'.loads.outstanding, j ∈ s.loads.outstanding ∨ s.loads.issued ≤ j.ticket) :
    s'.Delivered slot := by
  intro resource hresource
  rw [hshown] at hresource
  obtain ⟨hlt, hne⟩ := h resource hresource
  refine ⟨Nat.lt_of_lt_of_le hlt hissued, ?_⟩
  intro j hj
  rcases hout j hj with hold | hnew
  · exact hne j hold
  · omega

/-- A slot that has settled shows what it holds. -/
structure Faithful (s : Scene) (slot : SlotKey) : Prop where
  shown_eq : s.loads.status slot ≠ .loading → s.shown slot = s.loads.resource? slot
  delivered : s.Delivered slot
  unused : slot.index ≠ 0 → (s.loads.slot slot).content = .empty

theorem Faithful.keep {s' : Scene} (h : s.Faithful slot) (hslot : s'.loads.slot slot = s.loads.slot slot)
    (hshown : s'.shown slot = s.shown slot) (hdelivered : s'.Delivered slot) : s'.Faithful slot := by
  refine ⟨?_, hdelivered, ?_⟩
  · intro hstatus
    rw [Loads.status, hslot] at hstatus
    rw [hshown, Loads.resource?, hslot]
    exact h.shown_eq hstatus
  · intro hindex
    rw [hslot]
    exact h.unused hindex

theorem fitsHandle_of_index (h : slot.index = 0) : slot.fitsHandle = true := by
  rw [SlotKey.fitsHandle, h]
  rfl

theorem Faithful.load (h : s.Faithful slot) (other : SlotKey) (asset : UInt32) :
    (Stage.heed s (.load other asset)).Faithful slot := by
  by_cases hindex : other.index = 0
  · have hfits := fitsHandle_of_index hindex
    have hloads : (Stage.heed s (.load other asset)).loads = s.loads.after (.request other asset) := by
      rw [heed_load, if_pos hindex]
    have hdelivered : (Stage.heed s (.load other asset)).Delivered slot := by
      refine h.delivered.keep shown_load ?_ ?_
      · rw [hloads, Loads.issued_request hfits]
        omega
      · intro j hj
        rw [hloads] at hj
        rcases Loads.mem_outstanding_request.mp hj with hold | ⟨-, rfl⟩
        · exact .inl hold
        · exact .inr (Nat.le_refl _)
    by_cases hslot : other = slot
    · subst hslot
      refine ⟨?_, hdelivered, fun hne => absurd hindex hne⟩
      intro hstatus
      rw [Loads.status, hloads, Loads.slot_request, if_pos ⟨hfits, rfl⟩] at hstatus
      exact absurd rfl hstatus
    · refine h.keep ?_ shown_load hdelivered
      rw [hloads, Loads.slot_request, if_neg]
      exact fun hand => hslot hand.2
  · rwa [heed_load, if_neg hindex]

theorem Faithful.release (h : s.Faithful slot) (other : SlotKey) :
    (Stage.heed s (.release other)).Faithful slot := by
  have hloads : (Stage.heed s (.release other)).loads = s.loads.after (.release other) := by rw [heed_release]
  by_cases hslot : other = slot
  · subst hslot
    have hshown : (Stage.heed s (.release other)).shown other = none := by rw [shown_release, if_pos rfl]
    have hempty : ((Stage.heed s (.release other)).loads.slot other).content = .empty := by
      rw [hloads, Loads.content_release]
    refine ⟨?_, ?_, fun _ => hempty⟩
    · intro _
      rw [hshown, Loads.resource?, hempty]
      rfl
    · intro resource hresource
      rw [hshown] at hresource
      cases hresource
  · have hshown : (Stage.heed s (.release other)).shown slot = s.shown slot := by
      rw [shown_release, if_neg hslot]
    refine h.keep ?_ hshown (h.delivered.keep hshown ?_ ?_)
    · rw [hloads, Loads.slot_release, if_neg]
      exact fun hand => hslot hand.2
    · exact Nat.le_of_eq (by rw [hloads, Loads.issued_release])
    · intro j hj
      rw [hloads, Loads.outstanding_release] at hj
      exact .inl hj

theorem Faithful.animation {intent : Intent} {buffer : UInt32} {i : AnimationIntent} (h : s.Faithful slot)
    (hintent : intent.animation? = some (buffer, i)) : (Stage.heed s intent).Faithful slot := by
  have hloads : (Stage.heed s intent).loads = s.loads := loads_animation hintent
  have hshown : (Stage.heed s intent).shown slot = s.shown slot := shown_animation hintent
  refine h.keep ?_ hshown (h.delivered.keep hshown ?_ ?_)
  · rw [hloads]
  · exact Nat.le_of_eq (by rw [hloads])
  · intro j hj
    rw [hloads] at hj
    exact .inl hj

theorem Faithful.deliver (h : s.Faithful slot) (ready : Job → Bool) :
    (s.after (.deliver ready)).Faithful slot := by
  refine h.keep rfl rfl (h.delivered.keep rfl (Nat.le_refl _) ?_)
  intro j hj
  exact .inl ((Loads.mem_outstanding_deliver ready).mp hj)

theorem Faithful.content_pump (h : s.Faithful slot) (hindex : slot.index ≠ 0) :
    ((s.loads.after .pump).slot slot).content = .empty := Loads.content_pump_eq_empty (h.unused hindex)

/-- Tickets tell new resources from old ones, so an update shows what the loads hold after it. -/
theorem Faithful.shown_update (h : s.Faithful slot) (ht : s.loads.Ticketed) (delta : Single) :
    (s.update delta).value.shown slot = (s.loads.after .pump).resource? slot := by
  refine Scene.shown_update delta ?_ ?_
  · intro shown resource hshown hresource hticket
    by_cases hstatus : s.loads.status slot = .loading
    · obtain ⟨⟨j, hj, hjob⟩, -⟩ := ht.resource?_pump hstatus hresource
      exact absurd (hjob.trans hticket.symm) ((h.delivered shown hshown).2 j hj)
    · rw [Loads.resource?, Loads.slot_pump_of_settled hstatus] at hresource
      rw [h.shown_eq hstatus] at hshown
      exact Option.some_inj.mp (hshown.symm.trans hresource)
  · intro hindex
    rw [Loads.resource?, h.content_pump hindex]
    rfl

theorem Faithful.update (h : s.Faithful slot) (ht : s.loads.Ticketed) (delta : Single) :
    (s.update delta).value.Faithful slot := by
  have hloads := loads_update (s := s) delta
  have hshown := h.shown_update ht delta
  refine ⟨?_, ?_, ?_⟩
  · intro _
    rw [hshown, hloads]
  · intro resource hresource
    rw [hshown] at hresource
    rw [hloads]
    by_cases hstatus : s.loads.status slot = .loading
    · obtain ⟨⟨j, hj, hjob⟩, hne⟩ := ht.resource?_pump hstatus hresource
      exact ⟨hjob ▸ ht.lt_issued j hj, hne⟩
    · have hold : s.shown slot = some resource := by
        rw [h.shown_eq hstatus]
        rwa [Loads.resource?, Loads.slot_pump_of_settled hstatus] at hresource
      obtain ⟨hlt, hne⟩ := h.delivered resource hold
      refine ⟨hlt, ?_⟩
      intro j hj
      rw [Loads.outstanding_pump] at hj
      exact hne j (List.mem_append_left _ hj)
  · intro hindex
    rw [hloads]
    exact h.content_pump hindex

theorem Faithful.after (h : s.Faithful slot) (ht : s.loads.Ticketed) (e : SceneEvent) :
    (s.after e).Faithful slot := by
  cases e with
  | update delta => exact h.update ht delta
  | deliver ready => exact h.deliver ready
  | call intent =>
    have hcall : s.after (.call intent) = Stage.heed s intent := rfl
    rw [hcall]
    cases intent with
    | load other asset => exact h.load other asset
    | release other => exact h.release other
    | play buffer animation mode => exact h.animation rfl
    | pose buffer animation => exact h.animation rfl

theorem Ticketed.reading (h : s.loads.Ticketed) (source : AssetSource) :
    (s.reading source).loads.Ticketed := ⟨h.nodup, h.lt_issued, h.stamped⟩

theorem Faithful.reading (h : s.Faithful slot) (source : AssetSource) : (s.reading source).Faithful slot :=
  ⟨h.shown_eq, h.delivered, h.unused⟩

theorem ticketed_run (history : List SceneEvent) : (run sources workers history).loads.Ticketed := by
  induction history with
  | nil => exact Loads.ticketed_create _
  | cons e earlier ih =>
    have hnow := Ticketed.reading ih (sources (loadEvents earlier).length)
    rw [run, loads_after]
    split
    · exact hnow.after _
    · exact hnow

theorem shown_run_nil : (run sources workers []).shown slot = none := by
  obtain ⟨_ | _, index⟩ := slot
  · exact ite_self _
  · simp only [shown, character?]
    split <;> rfl

theorem faithful_run (history : List SceneEvent) (slot : SlotKey) :
    (run sources workers history).Faithful slot := by
  induction history with
  | nil =>
    refine ⟨fun _ => shown_run_nil, ?_, fun _ => rfl⟩
    intro resource hresource
    rw [shown_run_nil] at hresource
    cases hresource
  | cons e earlier ih => exact (ih.reading _).after (Ticketed.reading (ticketed_run earlier) _) e

theorem shown_run_update (delta : Single) (earlier : List SceneEvent) :
    (run sources workers (.update delta :: earlier)).shown slot =
      (run sources workers (.update delta :: earlier)).loads.resource? slot := by
  let s := (run sources workers earlier).reading (sources (loadEvents earlier).length)
  have hs : s.Faithful slot := (faithful_run earlier slot).reading _
  have ht : s.loads.Ticketed := Ticketed.reading (ticketed_run earlier) _
  have hrun : run sources workers (.update delta :: earlier) = (s.update delta).value := rfl
  rw [hrun, hs.shown_update ht, loads_update]

theorem shown_run_before {earlier : List SceneEvent} {resource : Resource} (he : ∀ delta, e ≠ .update delta)
    (h : (run sources workers (e :: earlier)).shown slot = some resource) :
    (run sources workers earlier).shown slot = some resource := by
  exact shown_before (s := (run sources workers earlier).reading (sources (loadEvents earlier).length)) he h

theorem loaded_of_shown {history : List SceneEvent} {resource : Resource}
    (h : (run sources workers history).shown slot = some resource) :
    ∃ past, past <:+ history ∧ (run sources workers past).loads.resource? slot = some resource := by
  induction history with
  | nil =>
    rw [shown_run_nil] at h
    cases h
  | cons e earlier ih =>
    by_cases hupdate : ∃ delta, e = .update delta
    · obtain ⟨delta, rfl⟩ := hupdate
      rw [shown_run_update] at h
      exact ⟨_, List.suffix_refl _, h⟩
    · have hold := shown_run_before (fun delta heq => hupdate ⟨delta, heq⟩) h
      obtain ⟨past, hsuffix, hresource⟩ := ih hold
      exact ⟨past, hsuffix.trans (List.suffix_cons e earlier), hresource⟩

/-- The slot still shows what it showed when its latest load began, because no update has run since. -/
def Lingers (sources : Nat → AssetSource) (workers : Workers) (history : List SceneEvent) (slot : SlotKey)
    (resource : Resource) : Prop :=
  ∃ recent asset earlier past, history = recent ++ .call (.load slot asset) :: earlier ∧
    (∀ e ∈ recent, ¬ e.Refills slot ∧ ∀ delta, e ≠ .update delta) ∧
    (run sources workers earlier).shown slot = some resource ∧
    past <:+ earlier ∧ (run sources workers past).loads.resource? slot = some resource

theorem lingers_run {history : List SceneEvent} {resource : Resource}
    (hloading : (run sources workers history).loads.status slot = .loading)
    (hshown : (run sources workers history).shown slot = some resource) :
    Lingers sources workers history slot resource := by
  induction history with
  | nil =>
    rw [shown_run_nil] at hshown
    cases hshown
  | cons e earlier ih =>
    have hupdate : ∀ delta, e ≠ .update delta := by
      intro delta he
      rw [he, shown_run_update] at hshown
      rw [he, Loads.status_eq_loaded_iff.mpr ⟨resource, hshown⟩] at hloading
      cases hloading
    have hbefore : (run sources workers earlier).shown slot = some resource := shown_run_before hupdate hshown
    by_cases hrefills : e.Refills slot
    · cases e with
      | update delta => cases hrefills
      | deliver ready => cases hrefills
      | call intent =>
        cases intent with
        | load other asset =>
          obtain rfl : other = slot := hrefills
          obtain ⟨past, hsuffix, hresource⟩ := loaded_of_shown hbefore
          exact ⟨[], asset, earlier, past, rfl, nofun, hbefore, hsuffix, hresource⟩
        | release other =>
          obtain rfl : other = slot := hrefills
          rw [run, after, shown_release, if_pos rfl] at hshown
          cases hshown
        | play buffer animation mode => cases hrefills
        | pose buffer animation => cases hrefills
    · have hslot : (run sources workers (e :: earlier)).loads.slot slot =
          (run sources workers earlier).loads.slot slot := slot_after hrefills (.inr hupdate)
      rw [Loads.status, hslot] at hloading
      obtain ⟨recent, asset, first, past, rfl, hrecent, hfirst⟩ := ih hloading hbefore
      refine ⟨e :: recent, asset, first, past, rfl, ?_, hfirst⟩
      exact List.forall_mem_cons.mpr ⟨⟨hrefills, hupdate⟩, hrecent⟩

theorem resource_after (c : Character) (e : SceneEvent) : (c.after e).resource = c.resource := by
  cases e with
  | update delta => exact resource_advance c delta
  | deliver ready => rfl
  | call intent =>
    simp only [Character.after]
    split
    · split
      · exact resource_apply c _
      · rfl
    · rfl

/-- A character whose resource its slot holds stays, and only intents for it restart its animation. -/
theorem character_after {c : Character} (hc : s.character = some c)
    (hresource : s.loads.resource? (.character 0) = some c.resource) (hkeep : ¬ e.Refills (.character 0)) :
    (s.after e).character = some (c.after e) ∧
      (s.after e).loads.resource? (.character 0) = some (c.after e).resource := by
  have hstatus : s.loads.status (.character 0) ≠ .loading := by
    rw [Loads.status_eq_loaded_iff.mpr ⟨_, hresource⟩]
    exact LoadStatus.noConfusion
  have hslot : (s.after e).loads.slot (.character 0) = s.loads.slot (.character 0) :=
    slot_after hkeep (.inl hstatus)
  refine ⟨?_, ?_⟩
  · cases e with
    | update delta =>
      have hpump : (s.loads.after .pump).resource? (.character 0) = some c.resource := by
        rw [Loads.resource?, Loads.slot_pump_of_settled hstatus]
        exact hresource
      have hvalue : s.after (.update delta) = (s.update delta).value := rfl
      rw [hvalue, update_value]
      simp [syncCharacter_value, hpump, adopted, hc, Character.after]
    | deliver ready => exact hc
    | call intent =>
      have hcall : s.after (.call intent) = Stage.heed s intent := rfl
      have hanimation (buffer : UInt32) (i : AnimationIntent)
          (hintent : intent.animation? = some (buffer, i)) :
          (Stage.heed s intent).character = some (c.after (.call intent)) := by
        rw [heed_animation hintent]
        simp only [Character.after, hintent, lt_characterBufferCount_iff]
        split
        · simp only [intended, hc]
        · exact hc
      rw [hcall]
      cases intent with
      | load other asset =>
        rw [heed_load]
        split <;> exact hc
      | release other =>
        rw [heed_release]
        have hne : other ≠ .character 0 := hkeep
        simp only [hne, if_false]
        exact hc
      | play buffer animation mode => exact hanimation _ _ rfl
      | pose buffer animation => exact hanimation _ _ rfl
  · rw [Loads.resource?, hslot, resource_after]
    exact hresource

theorem character_replay {history recent : List SceneEvent} {c : Character}
    (hc : (run sources workers history).character = some c)
    (hresource : (run sources workers history).loads.resource? (.character 0) = some c.resource)
    (hkeep : ∀ e ∈ recent, ¬ e.Refills (.character 0)) :
    (run sources workers (recent ++ history)).character = some (c.replay recent) ∧
      (run sources workers (recent ++ history)).loads.resource? (.character 0) =
        some (c.replay recent).resource := by
  induction recent with
  | nil => exact ⟨hc, hresource⟩
  | cons e recent ih =>
    obtain ⟨he, hrecent⟩ := List.forall_mem_cons.mp hkeep
    obtain ⟨hchar, hres⟩ := ih hrecent
    exact character_after (s := (run sources workers (recent ++ history)).reading _) hchar hres he

/-- Files that stay from the end of a history on as they were at its last event. -/
def lastFiles (sources : Nat → AssetSource) (history : List SceneEvent) : Nat → AssetSource :=
  fun n => sources (min n (loadEvents history.tail).length)

theorem length_loadEvents_tail_le (history : List SceneEvent) :
    (loadEvents history.tail).length ≤ (loadEvents history).length :=
  (List.Sublist.filterMap _ (List.tail_sublist history)).length_le

theorem run_congr {sources' : Nat → AssetSource} {history : List SceneEvent}
    (h : ∀ n ≤ (loadEvents history.tail).length, sources n = sources' n) :
    run sources workers history = run sources' workers history := by
  induction history with
  | nil => rw [run, run, h 0 (Nat.zero_le _)]
  | cons e earlier ih =>
    have hearlier : ∀ n ≤ (loadEvents earlier.tail).length, sources n = sources' n := by
      intro n hn
      exact h n (Nat.le_trans hn (length_loadEvents_tail_le earlier))
    have hnow : sources (loadEvents earlier).length = sources' (loadEvents earlier).length :=
      h _ (Nat.le_refl _)
    rw [run, run, ih hearlier, hnow]

theorem source_run (history : List SceneEvent) :
    (run sources workers history).loads.source = sources (loadEvents history.tail).length := by
  cases history with
  | nil => rfl
  | cons e earlier =>
    rw [run, loads_after]
    split
    · exact Loads.source_after _
    · rfl

theorem foldl_heed_run {history : List SceneEvent} (intents : List Intent)
    (hfiles : ∀ n, (loadEvents history.tail).length ≤ n →
      sources n = sources (loadEvents history.tail).length) :
    intents.foldl Stage.heed (run sources workers history) =
      run sources workers ((intents.map SceneEvent.call).reverse ++ history) := by
  induction intents generalizing history with
  | nil => rfl
  | cons intent intents ih =>
    have hle := length_loadEvents_tail_le history
    have hsource : sources (loadEvents history).length = (run sources workers history).loads.source := by
      rw [source_run, hfiles _ hle]
    have hreading : (run sources workers history).reading (sources (loadEvents history).length) =
        run sources workers history := by
      rw [hsource]
      rfl
    have hfirst : Stage.heed (run sources workers history) intent =
        run sources workers (.call intent :: history) := by
      rw [run, hreading]
      rfl
    have hlater : ∀ n, (loadEvents history).length ≤ n → sources n = sources (loadEvents history).length := by
      intro n hn
      rw [hfiles n (Nat.le_trans hle hn), hfiles _ hle]
    have hrest : intents.foldl Stage.heed (run sources workers (.call intent :: history)) =
        run sources workers ((intents.map SceneEvent.call).reverse ++ .call intent :: history) := ih hlater
    rw [List.foldl_cons, hfirst, hrest, List.map_cons, List.reverse_cons, List.append_assoc]
    rfl

/-- Wherever a tick stands, its stage is the scene of a history with some intents more. -/
theorem exists_run_of_leads {history : List SceneEvent} {s : Scene}
    (h : Stage.Leads (run sources workers history) s) : ∃ intents : List Intent,
      s = run (lastFiles sources history) workers (intents.map SceneEvent.call ++ history) := by
  obtain ⟨intents, rfl⟩ := h
  have hsame : run sources workers history = run (lastFiles sources history) workers history := by
    refine run_congr ?_
    intro n hn
    rw [lastFiles, Nat.min_eq_left hn]
  refine ⟨intents.reverse, ?_⟩
  rw [hsame, foldl_heed_run, List.map_reverse]
  intro n hn
  rw [lastFiles, lastFiles, Nat.min_eq_right hn, Nat.min_self]

/-- What the scripts' and the renderer's views of a scene have to do with each other after a history. -/
structure Agrees (sources : Nat → AssetSource) (workers : Workers) (history : List SceneEvent) : Prop where
  loaded : ∀ slot, (run sources workers history).loads.status slot = .loaded →
    ∃ resource latest, (run sources workers history).shown slot = some resource ∧
      (run sources workers history).loads.resource? slot = some resource ∧
      Loads.latest? sources workers slot (loadEvents history) = some latest ∧
      (∃ r ∈ Loads.requests sources workers (loadEvents history), r.job.handle = latest.job.handle ∧
        r.Yields sources (loadEvents history).length (.ok resource)) ∧
      (Loads.Unwrapped sources workers (loadEvents history) →
        latest.Yields sources (loadEvents history).length (.ok resource))
  empty : ∀ slot, (run sources workers history).loads.status slot = .unloaded ∨
    (run sources workers history).loads.status slot = .failed →
    (run sources workers history).shown slot = none
  loading : ∀ slot, (run sources workers history).loads.status slot = .loading →
    (run sources workers history).shown slot = none ∨
      ∃ resource, (run sources workers history).shown slot = some resource ∧
        Lingers sources workers history slot resource
  kept : (run sources workers history).loads.status (.character 0) = .loaded →
    ∃ c, (run sources workers history).character = some c ∧
      ∀ recent : List SceneEvent, (∀ e ∈ recent, ¬ e.Refills (.character 0)) →
        (run sources workers (recent ++ history)).character = some (c.replay recent)

theorem exists_settled_of_resource {history : List SceneEvent} {resource : Resource}
    (hresource : (run sources workers history).loads.resource? slot = some resource) :
    ∃ asset, ((Loads.run sources workers (loadEvents history)).slot slot).content = .settle asset (.ok resource) := by
  obtain ⟨source, hloads⟩ : ∃ source, (run sources workers history).loads =
      { Loads.run sources workers (loadEvents history) with source } := loads_run history
  have hslot : (run sources workers history).loads.slot slot =
      (Loads.run sources workers (loadEvents history)).slot slot := by
    rw [hloads]
    rfl
  rw [Loads.resource?, hslot] at hresource
  cases hc : ((Loads.run sources workers (loadEvents history)).slot slot).content with
  | loaded asset other =>
    rw [hc] at hresource
    exact ⟨asset, congrArg (Content.loaded asset) (Option.some_inj.mp hresource)⟩
  | empty | loading asset | failed asset error =>
    rw [hc] at hresource
    cases hresource

/-- A loaded slot holds what a request with the handle of its latest one has come to. -/
theorem resource_of_loaded {history : List SceneEvent} {resource : Resource}
    (hresource : (run sources workers history).loads.resource? slot = some resource) :
    ∃ latest, Loads.latest? sources workers slot (loadEvents history) = some latest ∧
      (∃ r ∈ Loads.requests sources workers (loadEvents history), r.job.handle = latest.job.handle ∧
        r.Yields sources (loadEvents history).length (.ok resource)) ∧
      (Loads.Unwrapped sources workers (loadEvents history) →
        latest.Yields sources (loadEvents history).length (.ok resource)) := by
  obtain ⟨asset, hcontent⟩ := exists_settled_of_resource hresource
  have hne : ((Loads.run sources workers (loadEvents history)).slot slot).content ≠ .empty := by
    rw [hcontent]
    exact Content.settle_ne_empty asset _
  obtain ⟨latest, hlatest, hgeneration⟩ := Loads.latest?_generation hne
  obtain ⟨r, hr, hrslot, hrgeneration, hyields⟩ := (Loads.traced_run _).settled slot asset _ hcontent
  refine ⟨latest, hlatest, ⟨r, hr, ?_, hyields⟩, ?_⟩
  · rw [Job.handle, Job.handle, hrslot, hrgeneration, Loads.latest?_slot hlatest, hgeneration]
  · intro hw
    obtain ⟨r', hr', -, hyields'⟩ := (Loads.tracked_run slot _ hw).settled asset _ hcontent
    rw [hlatest] at hr'
    obtain rfl := Option.some_inj.mp hr'
    exact hyields'

theorem agrees (history : List SceneEvent) : Agrees sources workers history := by
  have hfaithful (slot : SlotKey) : (run sources workers history).Faithful slot := faithful_run history slot
  refine ⟨?_, ?_, ?_, ?_⟩
  · intro slot hstatus
    obtain ⟨resource, hresource⟩ := Loads.status_eq_loaded_iff.mp hstatus
    obtain ⟨latest, horigin⟩ := resource_of_loaded hresource
    have hshown : (run sources workers history).shown slot = some resource := by
      rw [(hfaithful slot).shown_eq, hresource]
      rw [hstatus]
      exact LoadStatus.noConfusion
    exact ⟨resource, latest, hshown, hresource, horigin⟩
  · intro slot hstatus
    have hsettled : (run sources workers history).loads.status slot ≠ .loading := by
      intro hloading
      rw [hloading] at hstatus
      simp at hstatus
    have hloaded : (run sources workers history).loads.status slot ≠ .loaded := by
      intro hloaded
      rw [hloaded] at hstatus
      simp at hstatus
    rw [(hfaithful slot).shown_eq hsettled, Option.eq_none_iff_forall_ne_some]
    intro resource hresource
    exact hloaded (Loads.status_eq_loaded_iff.mpr ⟨resource, hresource⟩)
  · intro slot hstatus
    cases hshown : (run sources workers history).shown slot with
    | none => exact .inl rfl
    | some resource => exact .inr ⟨resource, rfl, lingers_run hstatus hshown⟩
  · intro hstatus
    obtain ⟨resource, hresource⟩ := Loads.status_eq_loaded_iff.mp hstatus
    have hsettled : (run sources workers history).loads.status (.character 0) ≠ .loading := by
      rw [hstatus]
      exact LoadStatus.noConfusion
    have hshown := (hfaithful (.character 0)).shown_eq hsettled
    rw [hresource, shown_character] at hshown
    obtain ⟨c, hc, rfl⟩ := Option.map_eq_some_iff.mp hshown
    refine ⟨c, hc, ?_⟩
    intro recent hrecent
    exact (character_replay hc hresource hrecent).1

/-- Scripts and renderer agree after every history, and wherever a tick after it stands. -/
theorem agrees_run (history : List SceneEvent) : Agrees sources workers history ∧
    ∀ (delta : Single) (before : List ThreadId) (shared shared' : Shared) (id : ThreadId) (thread : Thread)
      (count : Nat),
      let between := (turns delta before ⟨shared, run sources workers history⟩).value.world.stage
      let during := (runFor id count thread ⟨shared', between⟩).value.world.stage
      ∃ intents : List Intent,
        during = run (lastFiles sources history) workers (intents.map SceneEvent.call ++ history) ∧
        Agrees (lastFiles sources history) workers (intents.map SceneEvent.call ++ history) := by
  refine ⟨agrees history, ?_⟩
  intro delta before shared shared' id thread count between during
  have hbetween : Stage.Leads (run sources workers history) between :=
    leads_turns delta before ⟨shared, run sources workers history⟩
  have hduring : Stage.Leads between during := leads_runFor id count thread ⟨shared', between⟩
  obtain ⟨intents, hrun⟩ := exists_run_of_leads (hbetween.trans hduring)
  exact ⟨intents, hrun, agrees _⟩

theorem loadEvents_replicate (n : Nat) (asset later : UInt32) :
    loadEvents (List.replicate n (.call (.load .background later)) ++ [.call (.load .background asset)]) =
      List.replicate n (.request .background later) ++ [.request .background asset] := by
  have hevent (number : UInt32) : SceneEvent.loadEvent? (.call (.load .background number)) =
      some (.request .background number) := rfl
  rw [loadEvents, List.filterMap_append, List.filterMap_replicate_of_some (hevent later)]
  exact congrArg _ (List.filterMap_cons_some (hevent asset))

theorem background_of_wrapped (sources : Nat → AssetSource) (asset later : UInt32) {n : Nat} (hn : n ≠ 0)
    (hround : n % 0xFFFFFFFF = 0) {resource : Resource}
    (hfirst : (Job.complete (sources 0) ⟨0, .background, 1, asset⟩).result = .ok resource) :
    let s := run sources .inline (.update .zero ::
      (List.replicate n (.call (.load .background later)) ++ [.call (.load .background asset)]))
    s.loads.status .background = .loaded ∧ s.background = some resource := by
  intro s
  have hevents : loadEvents (.update .zero ::
      (List.replicate n (.call (.load .background later)) ++ [.call (.load .background asset)])) =
      .pump :: (List.replicate n (.request .background later) ++ [.request .background asset]) :=
    congrArg (LoadEvent.pump :: ·) (loadEvents_replicate n asset later)
  obtain ⟨source, hloads⟩ : ∃ source, s.loads = { Loads.run sources .inline (loadEvents _) with source } := loads_run _
  have hcontent : (s.loads.slot .background).content = .loaded later resource := by
    have hwrapped := Loads.content_of_wrapped sources .background rfl asset later hn hround
    rw [hfirst] at hwrapped
    rw [hloads, hevents]
    exact hwrapped
  have hresource : s.loads.resource? .background = some resource := by
    rw [Loads.resource?, hcontent]
    rfl
  refine ⟨Loads.status_eq_loaded_iff.mpr ⟨resource, hresource⟩, ?_⟩
  have hshown : s.shown .background = s.loads.resource? .background := shown_run_update _ _
  rw [← shown_background, hshown, hresource]

/-- A slot that is requested until its generations have gone round is loaded with what its latest request has not come
to. -/
theorem exists_latest_of_wrapped (sources : Nat → AssetSource) {asset later : UInt32} {n : Nat} (hn : n ≠ 0)
    (hround : n % 0xFFFFFFFF = 0) {resource : Resource}
    (hfirst : (Job.complete (sources 0) ⟨0, .background, 1, asset⟩).result = .ok resource)
    (hother : ∀ t, (sources t).load .background later ≠ .ok resource.model) :
    let history : List SceneEvent := .update .zero ::
      (List.replicate n (.call (.load .background later)) ++ [.call (.load .background asset)])
    (run sources .inline history).loads.status .background = .loaded ∧
      (run sources .inline history).background = some resource ∧
      ∃ latest, Loads.latest? sources .inline .background (loadEvents history) = some latest ∧
        ∀ time, ¬ latest.Yields sources time (.ok resource) := by
  intro history
  obtain ⟨hstatus, hbackground⟩ := background_of_wrapped sources asset later hn hround hfirst
  refine ⟨hstatus, hbackground, ?_⟩
  have hevents : loadEvents history = _ := congrArg (LoadEvent.pump :: ·) (loadEvents_replicate n asset later)
  obtain ⟨latest, hlatest, hlater⟩ := Loads.exists_latest?_replicate sources .inline .background later hn
    [.request .background asset]
  refine ⟨latest, hevents ▸ hlatest, ?_⟩
  rintro time ⟨t, -, -, hyields⟩
  obtain ⟨model, hload, rfl⟩ := Loads.complete_ok_iff.mp hyields
  rw [Loads.latest?_slot hlatest, hlater] at hload
  exact hother t hload

/-- The background is loaded with what its latest request has not come to, and the update that ends the loading of a
slot replaces the character that is still seen. -/
theorem shown_of_wrapped :
    let sources : Nat → AssetSource := fun _ _ asset => .ok (Model.write ⟨asset, [], [], []⟩)
    let history : List SceneEvent := .update .zero ::
      (List.replicate 0xFFFFFFFF (.call (.load .background 2)) ++ [.call (.load .background 1)])
    let reloading : List SceneEvent :=
      [.call (.load (.character 0) 2), .update .zero, .call (.load (.character 0) 1)]
    ((run sources .inline history).loads.status .background = .loaded ∧
      (run sources .inline history).background = some ⟨0, .background, ⟨1, [], [], []⟩⟩ ∧
      ∃ latest, Loads.latest? sources .inline .background (loadEvents history) = some latest ∧
        ∀ time, ¬ latest.Yields sources time (.ok ⟨0, .background, ⟨1, [], [], []⟩⟩)) ∧
      (run sources .inline reloading).shown (.character 0) = some ⟨0, .character, ⟨1, [], [], []⟩⟩ ∧
      (run sources .inline (.update .zero :: reloading)).shown (.character 0) =
        some ⟨1, .character, ⟨2, [], [], []⟩⟩ := by
  intro sources history reloading
  have hfirst : (Job.complete (sources 0) ⟨0, .background, 1, 1⟩).result = .ok ⟨0, .background, ⟨1, [], [], []⟩⟩ := by
    decide
  have hother : (sources 0).load .background 2 ≠ .ok ⟨1, [], [], []⟩ := by
    decide
  refine ⟨exists_latest_of_wrapped sources (by decide) (by decide) hfirst fun _ => hother, ?_, ?_⟩
  · decide
  · decide

/-- A background that is superseded is seen until the next update, while scripts see the new one loading. -/
example :
    let sources : Nat → AssetSource := fun _ _ asset => .ok (Model.write ⟨asset, [], [], []⟩)
    let history : List SceneEvent := [.call (.load .background 2), .update .zero, .deliver fun _ => true,
      .call (.load .background 1)]
    let s := run sources .pool history
    s.loads.status .background = .loading ∧
      s.background = some ⟨0, .background, ⟨1, [], [], []⟩⟩ ∧
      (run sources .pool (.update .zero :: history)).background = none := by
  decide

end Scene
end NovelEngine
