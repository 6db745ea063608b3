import NovelEngine.Proofs.Machine.Amending

/-!
# When the turns are over

What was asked for in the turns is done to the threads in the order asked, and then the ended ones leave. A thread that
was to be ended leaves, whatever else was asked for. Of the others each is paused as the last word on it says, and one
that suspended itself runs again if anyone had it resumed.
-/
namespace NovelEngine

namespace LifecycleRequest

def pausing? : LifecycleRequest → Option Bool
  | spawn _ | kill _ => none
  | pause _ => some true
  | resume _ => some false

def isKill : LifecycleRequest → Bool
  | kill _ => true
  | _ => false

def isResume : LifecycleRequest → Bool
  | resume _ => true
  | _ => false

end LifecycleRequest

/-- A thread that is not to be ended after the requests made of it, the last one first. -/
def Thread.heed (t : Thread) (requests : List LifecycleRequest) : Thread :=
  { t with
    paused := (requests.findSome? LifecycleRequest.pausing?).getD t.paused
    state := if t.state = .suspended ∧ requests.any LifecycleRequest.isResume = true then .running else t.state }

theorem unpause_heed (t : Thread) (handle : Int32) (requests : List LifecycleRequest) :
    Machine.unpause (t.heed requests) = t.heed (.resume handle :: requests) := by
  have hstate : (if (t.heed requests).state = .suspended then .running else (t.heed requests).state) =
      (t.heed (.resume handle :: requests)).state := by
    simp only [Thread.heed, List.any_cons, LifecycleRequest.isResume, Bool.true_or, and_true]
    by_cases hsuspended : t.state = .suspended
    · by_cases hresume : requests.any LifecycleRequest.isResume = true <;> simp [hsuspended, hresume]
    · simp [hsuspended]
  rw [Machine.unpause, hstate]
  rfl

/-- The end outlasts what comes before it and after it; the last word on the pause holds; one resumption suffices. -/
theorem foldr_effect (t : Thread) (requests : List LifecycleRequest) : requests.foldr LifecycleRequest.effect t =
    if requests.any LifecycleRequest.isKill = true then (t.heed requests).terminate else t.heed requests := by
  induction requests with
  | nil => simp [Thread.heed]
  | cons r rs ih =>
    -- The head was asked for last and is done last.
    rw [List.foldr_cons, ih]
    cases r with
    | spawn id => rfl
    | kill handle =>
      simp only [LifecycleRequest.effect]
      split <;> rfl
    | pause handle =>
      simp only [LifecycleRequest.effect, List.any_cons, LifecycleRequest.isKill, Bool.false_or]
      split <;> rfl
    | resume handle =>
      simp only [LifecycleRequest.effect, List.any_cons, LifecycleRequest.isKill, Bool.false_or]
      split
      · rfl
      · exact unpause_heed t handle rs

namespace Machine

variable {m : Machine} {id : ThreadId}

def directed (m : Machine) (requests : List LifecycleRequest) (id : ThreadId) : List LifecycleRequest :=
  requests.filter fun r => decide (r.handle?.bind m.shared.threads.resolve = some id)

theorem directed_congr {after : Machine} (h : ∀ id, after.shared.threads.contains id = m.shared.threads.contains id)
    (requests : List LifecycleRequest) (id : ThreadId) : after.directed requests id = m.directed requests id := by
  have hresolve : after.shared.threads.resolve = m.shared.threads.resolve := funext (Arena.resolve_congr h)
  rw [directed, directed, hresolve]

theorem thread?_applyAll (m : Machine) (rs : List LifecycleRequest) (id : ThreadId) : (m.applyAll rs).value.thread? id =
    (m.thread? id).map fun t => (m.directed rs id).foldl (fun t r => r.effect t) t := by
  induction rs generalizing m with
  | nil => exact Option.map_id'.symm
  | cons r rs ih =>
    have hrest : (m.applyAll (r :: rs)).value.thread? id = _ := ih (m.applyRequest r).value
    -- A request leaves all identifiers live, so that handles stand for the same threads after it.
    rw [hrest, directed_congr (m.contains_applyRequest r), thread?_applyRequest_eq, directed, directed, List.filter_cons]
    by_cases hmine : r.handle?.bind m.shared.threads.resolve = some id
    · simp only [hmine, if_true, decide_true, Option.map_map]
      rfl
    · simp only [hmine, if_false, decide_false]
      rfl

theorem thread?_applyRequests (m : Machine) (id : ThreadId) : m.applyRequests.value.thread? id =
    (m.thread? id).map fun t => (m.directed m.shared.requests id).foldr LifecycleRequest.effect t := by
  have hall := thread?_applyAll { m with shared.requests := [] } m.shared.requests.reverse id
  simp only [directed, List.filter_reverse, List.foldl_reverse] at hall
  exact hall

theorem contains_applyRequests (m : Machine) (id : ThreadId) :
    m.applyRequests.value.shared.threads.contains id = m.shared.threads.contains id :=
  contains_applyAll { m with shared.requests := [] } m.shared.requests.reverse id

theorem contains_reap (hid : id ∈ m.order) :
    m.reap.shared.threads.contains id = !leaves m.shared.threads id := by
  show (reapFrom m.shared.threads m.order).2.contains id = _
  rw [Arena.contains_eq, tenant?_reapFrom]
  cases hleaves : leaves m.shared.threads id with
  | true => simp [hid]
  | false =>
    rw [if_neg (by simp)]
    rw [leaves, Arena.get?_eq] at hleaves
    cases ht : m.shared.threads.tenant? id with
    | none => simp [ht] at hleaves
    | some t => rfl

theorem contains_of_reap (hid : m.reap.shared.threads.contains id = true) : m.shared.threads.contains id = true := by
  have hlive : (reapFrom m.shared.threads m.order).2.contains id = true := hid
  rw [Arena.contains_eq, tenant?_reapFrom] at hlive
  split at hlive
  · cases hlive
  · rwa [Arena.contains_eq]

theorem thread?_reap (hid : m.reap.shared.threads.contains id = true) : m.reap.thread? id = m.thread? id := by
  have hlive : (reapFrom m.shared.threads m.order).2.contains id = true := hid
  show (reapFrom m.shared.threads m.order).2.get? id = m.shared.threads.get? id
  rw [Arena.contains_eq, tenant?_reapFrom] at hlive
  rw [Arena.get?_eq, tenant?_reapFrom, Arena.get?_eq]
  split at hlive
  · cases hlive
  · rw [if_neg ‹_›]

/-- The machine when the requests are done and the ended threads have left. -/
def aftermath (m : Machine) : Machine := m.applyRequests.value.reap

/-- A thread that is in the run order or waits to join it. -/
def Enrolled (m : Machine) (id : ThreadId) : Prop := id ∈ m.order ∨ .spawn id ∈ m.shared.requests

def reaches (m : Machine) (r : LifecycleRequest) : Bool :=
  r.handle?.all fun handle => (m.shared.threads.resolve handle).isSome

/-- What becomes of a machine when the turns are over. -/
structure Settles (m after : Machine) : Prop where
  /-- A thread leaves if it has ended or was to be ended, whatever came before that request and after it. -/
  removed_iff : ∀ id t, m.Enrolled id → m.thread? id = some t →
    (after.shared.threads.contains id = false ↔ t.isTerminated = true ∨ m.Kills m.shared.requests id)
  kept : ∀ id t, m.Enrolled id → m.thread? id = some t → after.shared.threads.contains id = true →
    after.thread? id = some (t.heed (m.directed m.shared.requests id))
  order_eq : after.order =
    (m.order ++ (spawned m.shared.requests).reverse).filter after.shared.threads.contains
  /-- The requests whose handles stand for no live thread might as well not have been made. -/
  stale : ({ m with shared.requests := m.shared.requests.filter m.reaches } : Machine).aftermath = after
  shared_eq : after.shared = { m.shared with threads := after.shared.threads, requests := [] }

theorem kills_iff (m : Machine) (requests : List LifecycleRequest) (id : ThreadId) :
    m.Kills requests id ↔ (m.directed requests id).any LifecycleRequest.isKill = true := by
  simp only [Kills, directed, List.any_eq_true, List.mem_filter, decide_eq_true_eq]
  constructor
  · rintro ⟨handle, hmem, hresolve⟩
    exact ⟨.kill handle, ⟨hmem, hresolve⟩, rfl⟩
  · rintro ⟨r, ⟨hmem, hresolve⟩, hkill⟩
    cases r with
    | kill handle => exact ⟨handle, hmem, hresolve⟩
    | spawn id | pause handle | resume handle => cases hkill

theorem Enrolled.mem_order (h : m.Enrolled id) (hlive : m.shared.threads.contains id = true) :
    id ∈ m.applyRequests.value.order := by
  rw [order_applyRequests, List.mem_append, List.mem_filter, List.mem_reverse, mem_spawned_iff]
  exact h.imp_right fun hspawn => ⟨hspawn, hlive⟩

theorem leaves_applyRequests {t : Thread} (ht : m.thread? id = some t) :
    leaves m.applyRequests.value.shared.threads id = true ↔
      t.isTerminated = true ∨ m.Kills m.shared.requests id := by
  have hthere : (m.thread? id).isSome = true := Option.isSome_iff_exists.mpr ⟨t, ht⟩
  have hafter : (m.applyRequests.value.thread? id).isSome = true :=
    (isSome_thread?_applyAll { m with shared.requests := [] } m.shared.requests.reverse id).trans hthere
  rw [leaves_eq_ended hafter, ended_applyRequests hthere, ended, ht]
  exact Iff.rfl

theorem live_of_thread? {t : Thread} (ht : m.thread? id = some t) : m.shared.threads.contains id = true :=
  Arena.contains_of_tenant? (Arena.get?_eq_some_iff.mp ht)

theorem contains_aftermath (hid : id ∈ m.applyRequests.value.order) : m.aftermath.shared.threads.contains id =
    !leaves m.applyRequests.value.shared.threads id :=
  contains_reap hid

theorem removed_aftermath {t : Thread} (hid : m.Enrolled id) (ht : m.thread? id = some t) :
    m.aftermath.shared.threads.contains id = false ↔ t.isTerminated = true ∨ m.Kills m.shared.requests id := by
  rw [contains_aftermath (hid.mem_order (live_of_thread? ht)), Bool.not_eq_false', leaves_applyRequests ht]

theorem kept_aftermath {t : Thread} (hid : m.Enrolled id) (ht : m.thread? id = some t)
    (hlive : m.aftermath.shared.threads.contains id = true) :
    m.aftermath.thread? id = some (t.heed (m.directed m.shared.requests id)) := by
  have hspared : ¬ m.Kills m.shared.requests id := by
    intro hkills
    rw [(removed_aftermath hid ht).mpr (.inr hkills)] at hlive
    cases hlive
  have hreap : m.aftermath.thread? id = m.applyRequests.value.thread? id := thread?_reap hlive
  rw [kills_iff] at hspared
  rw [hreap, thread?_applyRequests, ht, Option.map_some, foldr_effect, if_neg hspared]

theorem order_aftermath (m : Machine) : m.aftermath.order =
    (m.order ++ (spawned m.shared.requests).reverse).filter m.aftermath.shared.threads.contains := by
  have hreap : m.aftermath.order = m.applyRequests.value.order.filter fun id =>
      !leaves m.applyRequests.value.shared.threads id := fst_reapFrom _ _
  have hsame : m.aftermath.order = m.applyRequests.value.order.filter m.aftermath.shared.threads.contains := by
    rw [hreap]
    exact List.filter_congr fun id hid => (contains_aftermath hid).symm
  rw [hsame, order_applyRequests, List.filter_append, List.filter_append, List.filter_filter]
  refine congrArg (m.order.filter _ ++ ·) (List.filter_congr fun id _ => ?_)
  -- Only live threads join, and whoever is left has been live.
  cases hlive : m.aftermath.shared.threads.contains id with
  | false => rfl
  | true =>
    have hthere : m.applyRequests.value.shared.threads.contains id = true := contains_of_reap hlive
    rw [← m.contains_applyRequests, hthere]
    rfl

theorem shared_applyRequest (m : Machine) (r : LifecycleRequest) :
    ({ (m.applyRequest r).value.shared with threads := m.shared.threads } : Shared) = m.shared := by
  have hhandle (handle : Int32) (action : String) (f : Thread → Thread) :
      ({ (m.onHandle handle action f).value.shared with threads := m.shared.threads } : Shared) = m.shared := by
    rcases m.onHandle_value handle action f with heq | ⟨id, thread, -, heq⟩ <;> rw [heq]
  cases r with
  | kill handle | pause handle | resume handle => exact hhandle _ _ _
  | spawn other =>
    show ({ (if m.shared.threads.contains other then { m with order := m.order ++ [other] } else m).shared with
      threads := m.shared.threads } : Shared) = m.shared
    split <;> rfl

theorem shared_aftermath (m : Machine) :
    m.aftermath.shared = { m.shared with threads := m.aftermath.shared.threads, requests := [] } := by
  have hall := applyAll_keeps (p := fun after => ∀ threads : Arena Thread,
    ({ after.shared with threads } : Shared) = { m.shared with threads, requests := [] })
    (fun before r hbefore threads => ?_) (m := { m with shared.requests := [] }) (fun _ => rfl) m.shared.requests.reverse
  · exact hall m.aftermath.shared.threads
  · rw [← hbefore threads]
    exact congrArg (fun s : Shared => { s with threads }) (before.shared_applyRequest r)

theorem applyRequest_of_stale {r : LifecycleRequest} (h : m.reaches r = false) : (m.applyRequest r).value = m := by
  have hstale {handle : Int32} (h : (m.shared.threads.resolve handle).isSome = false) (action : String)
      (f : Thread → Thread) : (m.onHandle handle action f).value = m := by
    refine onHandle_of_stale (fun id hid => ?_) action f
    rw [hid] at h
    cases h
  cases r with
  | spawn id => cases h
  | kill handle | pause handle | resume handle => exact hstale h _ _

theorem applyAll_filter (m : Machine) (rs : List LifecycleRequest) :
    (m.applyAll (rs.filter m.reaches)).value = (m.applyAll rs).value := by
  induction rs generalizing m with
  | nil => rfl
  | cons r rs ih =>
    have hreaches : (m.applyRequest r).value.reaches = m.reaches := by
      funext other
      have hresolve := funext (Arena.resolve_congr (m.contains_applyRequest r))
      rw [reaches, reaches, hresolve]
    have hrest := ih (m.applyRequest r).value
    rw [hreaches] at hrest
    rw [List.filter_cons]
    split
    · exact hrest
    · rename_i hstale
      rw [applyRequest_of_stale (Bool.eq_false_iff.mpr hstale)] at hrest
      have hcons : (m.applyAll (r :: rs)).value = ((m.applyRequest r).value.applyAll rs).value := rfl
      rw [hcons, applyRequest_of_stale (Bool.eq_false_iff.mpr hstale)]
      exact hrest

theorem aftermath_filter (m : Machine) :
    ({ m with shared.requests := m.shared.requests.filter m.reaches } : Machine).aftermath = m.aftermath := by
  have hall := applyAll_filter { m with shared.requests := [] } m.shared.requests.reverse
  have hreverse : m.shared.requests.reverse.filter m.reaches = (m.shared.requests.filter m.reaches).reverse :=
    List.filter_reverse
  exact congrArg reap ((congrArg (fun rs => (applyAll { m with shared.requests := [] } rs).value) hreverse).symm.trans hall)

/-- What becomes of any machine when the turns are over; and a tick that comes to its end comes to that, on the stage
that the turns have left. -/
theorem settles (m : Machine) : m.Settles m.aftermath ∧
    ∀ (σ : Type) [Stage σ] (delta : Single) (stage : σ) (report : TickReport),
      (m.tick delta stage).value.result = .ok report →
        (m.tick delta stage).value.machine = (m.turned delta stage).aftermath ∧
        (m.tick delta stage).value.stage = (turns delta m.order ⟨m.shared, stage⟩).value.world.stage := by
  refine ⟨⟨?_, ?_, m.order_aftermath, m.aftermath_filter, m.shared_aftermath⟩, ?_⟩
  · intro id t hid ht
    exact removed_aftermath hid ht
  · intro id t hid ht hlive
    exact kept_aftermath hid ht hlive
  · intro σ _ delta stage report hok
    refine ⟨(tick_eq_ok hok).1, ?_⟩
    rw [tick_value]
    dsimp only
    split <;> rfl

/-- A thread that waits for a load is to be ended and then to run again: it leaves, and the load goes on. One that has
suspended itself is to run again and then to be paused: it does both. -/
theorem settles_waiting :
    let script := Script.build 1 [0, 9, 0x82, 0, 0, 11, 0x82, 0, 0, 11, 0x83, 0, 0, 10, 0x83, 0, 0, 0,
      2, 0, 0x80, 0, 0x80, 0, 0x8a, 0, 1, 2, 2, 0x80, 0, 0, 0, 0, 12, 0, 0] [0, 18, 33] []
    let start := (Machine.create {} none).value
    let loaded := (start.putScript 0 script).getD start
    let one := ((loaded.spawn 0 0).toOption.map Prod.snd).getD loaded
    let two := ((one.spawn 0 1).toOption.map Prod.snd).getD one
    let m := ((two.spawn 0 2).toOption.map Prod.snd).getD two
    let turned := m.turned Single.zero Recorder.empty
    let after := (m.tick Single.zero Recorder.empty).value
    turned.shared.requests = [.pause 3, .resume 3, .resume 2, .kill 2] ∧
      (turned.thread? ⟨2, 0⟩).map Thread.state = some (.waiting (.resource (.character 0))) ∧
      turned.Settles after.machine ∧ after.machine.shared.threads.contains ⟨2, 0⟩ = false ∧
      (∃ t, turned.thread? ⟨3, 0⟩ = some t ∧ t.state = .suspended ∧
        after.machine.thread? ⟨3, 0⟩ = some { t with paused := true, state := .running }) ∧
      after.machine.order = [⟨3, 0⟩] ∧ Stage.status after.stage (.character 0) = .loading := by
  intro script start loaded one two m turned after
  have hrequests : turned.shared.requests = [.pause 3, .resume 3, .resume 2, .kill 2] := by decide +kernel
  have hwaits : (turned.thread? ⟨2, 0⟩).map Thread.state = some (.waiting (.resource (.character 0))) := by
    decide +kernel
  have hsuspended : (turned.thread? ⟨3, 0⟩).map Thread.state = some .suspended := by decide +kernel
  have hresult : after.result = .ok ⟨8, 1, 0⟩ := by decide +kernel
  have hmachine : after.machine = turned.aftermath := ((settles m).2 Recorder _ _ _ hresult).1
  have hsettles : turned.Settles after.machine := hmachine ▸ (settles turned).1
  obtain ⟨t, ht, hstate⟩ := Option.map_eq_some_iff.mp hwaits
  obtain ⟨u, hu, hstate'⟩ := Option.map_eq_some_iff.mp hsuspended
  have hkills : turned.Kills turned.shared.requests ⟨2, 0⟩ := by
    rw [hrequests]
    exact ⟨2, by decide, by decide +kernel⟩
  have hleft := (hsettles.removed_iff ⟨2, 0⟩ t (.inl (by decide +kernel)) ht).mpr (.inr hkills)
  have hkept := hsettles.kept ⟨3, 0⟩ u (.inl (by decide +kernel)) hu (by decide +kernel)
  have hdirected : turned.directed turned.shared.requests ⟨3, 0⟩ = [.pause 3, .resume 3] := by decide +kernel
  rw [hdirected, Thread.heed, hstate'] at hkept
  exact ⟨hrequests, hwaits, hsettles, hleft, ⟨u, hu, hstate', hkept⟩, by decide +kernel, by decide +kernel⟩

end Machine
end NovelEngine
