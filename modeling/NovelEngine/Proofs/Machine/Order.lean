import NovelEngine.Proofs.Machine.Course
import NovelEngine.Proofs.Machine.Store

/-!
# What becomes of the run order

When the turns of a tick are over the threads that wait join the run order, the first to ask first, and the ended
ones leave it. A thread has ended by then if its turns ended it or if it was to be ended.
-/
namespace NovelEngine.Machine

variable {m : Machine} {wanted : Nat} {id : ThreadId}

theorem order_onHandle (m : Machine) (handle : Int32) (action : String) (f : Thread → Thread) :
    (m.onHandle handle action f).value.order = m.order := by
  rcases m.onHandle_value handle action f with heq | ⟨id, thread, -, heq⟩ <;> rw [heq]

def ended (m : Machine) (id : ThreadId) : Bool := (m.thread? id).any Thread.isTerminated

def Kills (m : Machine) (requests : List LifecycleRequest) (id : ThreadId) : Prop :=
  ∃ handle, .kill handle ∈ requests ∧ m.shared.threads.resolve handle = some id

theorem thread?_onHandle (m : Machine) (handle : Int32) (action : String) (f : Thread → Thread) (id : ThreadId) :
    (m.onHandle handle action f).value.thread? id =
      if m.shared.threads.resolve handle = some id then (m.thread? id).map f else m.thread? id := by
  unfold onHandle
  dsimp only
  cases hresolve : m.shared.threads.resolve handle with
  | none => rfl
  | some target =>
    rw [Option.bind_some]
    cases hget : m.shared.threads.get? target with
    | none =>
      by_cases htarget : target = id
      · subst htarget
        rw [if_pos rfl]
        show m.thread? target = (m.thread? target).map f
        rw [thread?, hget]
        rfl
      · rw [if_neg fun h => htarget (Option.some_inj.mp h)]
        rfl
    | some thread =>
      have hput := Arena.replaces_put (Arena.get?_eq_some_iff.mp hget) (f thread)
      show (m.shared.threads.put target (f thread)).get? id = _
      rw [Arena.get?_eq, hput.tenant?_eq]
      by_cases htarget : target = id
      · subst htarget
        rw [if_pos rfl, if_pos rfl, thread?, hget]
        rfl
      · rw [if_neg (Ne.symm htarget), if_neg fun h => htarget (Option.some_inj.mp h), thread?, Arena.get?_eq]

theorem contains_onHandle (m : Machine) (handle : Int32) (action : String) (f : Thread → Thread) (id : ThreadId) :
    (m.onHandle handle action f).value.shared.threads.contains id = m.shared.threads.contains id := by
  rcases m.onHandle_value handle action f with heq | ⟨target, thread, hget, heq⟩
  · rw [heq]
  · have ht := Arena.get?_eq_some_iff.mp hget
    rw [heq]
    exact (Arena.replaces_put ht (f thread)).contains_eq (Arena.contains_of_tenant? ht) id

theorem contains_applyRequest (m : Machine) (r : LifecycleRequest) (id : ThreadId) :
    (m.applyRequest r).value.shared.threads.contains id = m.shared.threads.contains id := by
  cases r with
  | kill handle => exact m.contains_onHandle handle _ _ id
  | pause handle => exact m.contains_onHandle handle _ _ id
  | resume handle => exact m.contains_onHandle handle _ _ id
  | spawn other =>
    show (if m.shared.threads.contains other then { m with order := m.order ++ [other] }
      else m).shared.threads.contains id = _
    split <;> rfl

theorem ended_onHandle (m : Machine) (handle : Int32) (action : String) (f : Thread → Thread)
    (hf : ∀ t, (f t).isTerminated = t.isTerminated) (id : ThreadId) :
    (m.onHandle handle action f).value.ended id = m.ended id := by
  rw [ended, thread?_onHandle, ended]
  split
  · cases m.thread? id with
    | none => rfl
    | some thread => exact hf thread
  · rfl

theorem isTerminated_unpause (t : Thread) : (unpause t).isTerminated = t.isTerminated := by
  unfold unpause Thread.isTerminated
  cases h : t.state <;> simp

theorem ended_applyRequest {r : LifecycleRequest} (hthere : (m.thread? id).isSome = true) :
    (m.applyRequest r).value.ended id = true ↔ m.ended id = true ∨ m.Kills [r] id := by
  have hother (hr : ∀ handle, .kill handle ≠ r) : ¬ m.Kills [r] id := by
    rintro ⟨handle, hmem, -⟩
    exact hr handle (List.mem_singleton.mp hmem)
  cases r with
  | kill handle =>
    have hkills : m.Kills [.kill handle] id ↔ m.shared.threads.resolve handle = some id := by
      simp [Kills]
    rw [hkills]
    show (m.onHandle handle "kill" Thread.terminate).value.ended id = true ↔ _
    obtain ⟨thread, hthread⟩ := Option.isSome_iff_exists.mp hthere
    rw [ended, thread?_onHandle, ended, hthread]
    by_cases hresolve : m.shared.threads.resolve handle = some id
    · simp [hresolve, Thread.terminate, Thread.isTerminated]
    · simp [hresolve]
  | pause handle =>
    rw [or_iff_left (hother nofun)]
    have hsame : (m.onHandle handle "pause" fun t => { t with paused := true }).value.ended id = m.ended id := by
      refine m.ended_onHandle handle "pause" _ ?_ id
      intro t
      rfl
    exact Bool.eq_iff_iff.mp hsame
  | resume handle =>
    rw [or_iff_left (hother nofun)]
    have hsame : (m.onHandle handle "resume" unpause).value.ended id = m.ended id :=
      m.ended_onHandle handle "resume" unpause isTerminated_unpause id
    exact Bool.eq_iff_iff.mp hsame
  | spawn other =>
    rw [or_iff_left (hother nofun)]
    show (if m.shared.threads.contains other then { m with order := m.order ++ [other] } else m).ended id = true ↔ _
    split <;> exact Iff.rfl

theorem isSome_thread?_applyRequest (m : Machine) (r : LifecycleRequest) (id : ThreadId) :
    ((m.applyRequest r).value.thread? id).isSome = (m.thread? id).isSome := by
  have hhandle (handle : Int32) (action : String) (f : Thread → Thread) :
      ((m.onHandle handle action f).value.thread? id).isSome = (m.thread? id).isSome := by
    rw [thread?_onHandle]
    split
    · exact Option.isSome_map
    · rfl
  cases r with
  | kill handle => exact hhandle _ _ _
  | pause handle => exact hhandle _ _ _
  | resume handle => exact hhandle _ _ _
  | spawn other =>
    show ((if m.shared.threads.contains other then { m with order := m.order ++ [other] }
      else m).thread? id).isSome = _
    split <;> rfl

theorem kills_cons {r : LifecycleRequest} {rs : List LifecycleRequest} :
    m.Kills (r :: rs) id ↔ m.Kills [r] id ∨ m.Kills rs id := by
  simp only [Kills, List.mem_cons, List.not_mem_nil, or_false, or_and_right, exists_or]

theorem ended_applyAll {rs : List LifecycleRequest} (hthere : (m.thread? id).isSome = true) :
    (m.applyAll rs).value.ended id = true ↔ m.ended id = true ∨ m.Kills rs id := by
  induction rs generalizing m with
  | nil =>
    have hnone : ¬ m.Kills [] id := by
      rintro ⟨handle, hmem, -⟩
      cases hmem
    exact (or_iff_left hnone).symm
  | cons r rs ih =>
    have hone := ended_applyRequest (r := r) hthere
    have hsame : (m.applyRequest r).value.Kills rs id ↔ m.Kills rs id := by
      unfold Kills
      simp only [Arena.resolve_congr (m.contains_applyRequest r)]
    have hrest : ((m.applyRequest r).value.applyAll rs).value.ended id = true ↔
        (m.applyRequest r).value.ended id = true ∨ (m.applyRequest r).value.Kills rs id :=
      ih ((m.isSome_thread?_applyRequest r id).trans hthere)
    have hrun : (m.applyAll (r :: rs)).value = ((m.applyRequest r).value.applyAll rs).value := rfl
    have hcons : m.Kills (r :: rs) id ↔ m.Kills [r] id ∨ m.Kills rs id := kills_cons
    rw [hrun, hrest, hone, hsame, hcons, or_assoc]

theorem ended_applyRequests (hthere : (m.thread? id).isSome = true) :
    m.applyRequests.value.ended id = true ↔ m.ended id = true ∨ m.Kills m.shared.requests id := by
  have hall : m.applyRequests.value.ended id = true ↔
      m.ended id = true ∨ m.Kills m.shared.requests.reverse id :=
    ended_applyAll (m := { m with shared.requests := [] }) hthere
  simpa only [Kills, List.mem_reverse] using hall

theorem order_applyRequest (m : Machine) (r : LifecycleRequest) :
    (m.applyRequest r).value.order = m.order ++ (spawned [r]).filter m.shared.threads.contains := by
  cases r with
  | kill handle | pause handle | resume handle => exact (m.order_onHandle handle _ _).trans (List.append_nil _).symm
  | spawn other =>
    show (if m.shared.threads.contains other then { m with order := m.order ++ [other] } else m).order =
      m.order ++ [other].filter m.shared.threads.contains
    cases hlive : m.shared.threads.contains other <;> simp [hlive]

theorem order_applyAll (m : Machine) (rs : List LifecycleRequest) :
    (m.applyAll rs).value.order = m.order ++ (spawned rs).filter m.shared.threads.contains := by
  induction rs generalizing m with
  | nil => exact (List.append_nil _).symm
  | cons r rs ih =>
    have hrest : (m.applyAll (r :: rs)).value.order = _ := ih (m.applyRequest r).value
    have hsame : (m.applyRequest r).value.shared.threads.contains = m.shared.threads.contains :=
      funext (m.contains_applyRequest r)
    have hcons : spawned (r :: rs) = spawned [r] ++ spawned rs := by
      rw [spawned, spawned, spawned, ← List.filterMap_append]
      rfl
    rw [hrest, order_applyRequest, hsame, hcons, List.filter_append, List.append_assoc]

theorem order_applyRequests (m : Machine) : m.applyRequests.value.order =
    m.order ++ (spawned m.shared.requests).reverse.filter m.shared.threads.contains := by
  have hreverse : spawned m.shared.requests.reverse = (spawned m.shared.requests).reverse := List.filterMap_reverse
  rw [← hreverse]
  exact order_applyAll { m with shared.requests := [] } m.shared.requests.reverse

/-- The threads that wait join behind the others, the first to ask first. -/
theorem Pending.order_applyRequests (h : m.Pending wanted m.shared.requests) :
    m.applyRequests.value.order = m.order ++ (spawned m.shared.requests).reverse := by
  rw [m.order_applyRequests, List.filter_eq_self.mpr]
  intro id hid
  exact (h.contains_iff id).mpr (.inr (List.mem_reverse.mp hid))

theorem leaves_eq_ended (hthere : (m.thread? id).isSome = true) : leaves m.shared.threads id = m.ended id := by
  obtain ⟨thread, hthread⟩ := Option.isSome_iff_exists.mp hthere
  have hget : m.shared.threads.get? id = some thread := hthread
  rw [leaves, ended, hthread, hget]
  rfl

theorem Pending.order_reap (h : m.Pending wanted []) : m.reap.order = m.order.filter fun id => !m.ended id := by
  have hreap : m.reap.order = m.order.filter fun id => !leaves m.shared.threads id := fst_reapFrom _ _
  rw [hreap]
  refine List.filter_congr fun id hid => ?_
  obtain ⟨thread, hget⟩ := h.exists_get? ((h.contains_iff id).mpr (.inl hid))
  rw [leaves_eq_ended (Option.isSome_iff_exists.mpr ⟨thread, hget⟩)]

end NovelEngine.Machine
