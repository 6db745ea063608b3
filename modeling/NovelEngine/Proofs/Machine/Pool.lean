import NovelEngine.Proofs.Machine.Tick
import NovelEngine.Proofs.Thread.Arena

/-!
# The pool of threads

In a pool nothing but the running thread is lent out, and the live threads are those of the run order and
those that wait to join it, each once. Instructions, turns, requests and reaping keep it so.
-/
namespace NovelEngine

def spawned (requests : List LifecycleRequest) : List ThreadId :=
  requests.filterMap fun
    | .spawn id => some id
    | _ => none

namespace Pool

variable {p q : Pool} {wanted : Nat} {order pending : List ThreadId} {id : ThreadId}

/-- The live threads are those of the run order and the pending ones; at most one is lent out. -/
structure Consistent (p : Pool) (wanted : Nat) (order pending : List ThreadId) (lent : Option ThreadId) :
    Prop where
  wellFormed : p.threads.WellFormed
  lent_iff : ∀ id, p.threads.tenant? id = some .lent ↔ lent = some id
  contains_iff : ∀ id, p.threads.contains id = true ↔ id ∈ order ∨ id ∈ pending
  nodup : (order ++ pending).Nodup
  live_eq : p.threads.live = order.length + pending.length
  live_le : p.threads.live ≤ p.maxThreads
  limit : p.maxThreads = min wanted ThreadId.maxScriptIndex

variable {lent lent' : Option ThreadId} {t : Tenancy Thread} {threads : Arena Thread}

theorem Consistent.room (h : p.Consistent wanted order pending lent)
    (hroom : p.threads.live < p.maxThreads) : p.threads.live < ThreadId.maxScriptIndex := by
  have hlimit := h.limit
  omega

theorem Consistent.perm {pending' : List ThreadId} (h : p.Consistent wanted order pending lent)
    (hperm : pending.Perm pending') : p.Consistent wanted order pending' lent where
  wellFormed := h.wellFormed
  lent_iff := h.lent_iff
  contains_iff id := by rw [h.contains_iff, hperm.mem_iff]
  nodup := (hperm.append_left order).nodup_iff.mp h.nodup
  live_eq := by rw [h.live_eq, hperm.length_eq]
  live_le := h.live_le
  limit := h.limit

theorem Consistent.withRequests (h : p.Consistent wanted order pending lent)
    (requests : List LifecycleRequest) : ({ p with requests } : Pool).Consistent wanted order pending lent :=
  ⟨h.wellFormed, h.lent_iff, h.contains_iff, h.nodup, h.live_eq, h.live_le, h.limit⟩

theorem Consistent.replace (h : p.Consistent wanted order pending lent)
    (hr : p.threads.Replaces id t threads) (hid : p.threads.contains id = true)
    (hlent : ∀ other, (if other = id then t = .lent else lent = some other) ↔ lent' = some other) :
    ({ p with threads } : Pool).Consistent wanted order pending lent' where
  wellFormed := hr.wellFormed h.wellFormed
  lent_iff other := by
    rw [hr.tenant?_eq, ← hlent]
    split
    · exact Option.some_inj
    · exact h.lent_iff other
  contains_iff other := by
    rw [hr.contains_eq hid]
    exact h.contains_iff other
  nodup := h.nodup
  live_eq := hr.live_eq.trans h.live_eq
  live_le := hr.live_eq ▸ h.live_le
  limit := h.limit

theorem Consistent.checkout {thread : Thread} (h : p.Consistent wanted order pending none)
    (hc : p.threads.checkout id = some (thread, threads)) :
    ({ p with threads } : Pool).Consistent wanted order pending (some id) := by
  obtain ⟨ht, hr⟩ := Arena.checkout_eq_some hc
  refine h.replace hr (Arena.contains_of_tenant? ht) fun other => ?_
  split
  · simp_all
  · simp_all [eq_comm]

theorem Consistent.checkin (h : p.Consistent wanted order pending (some id)) (thread : Thread) :
    ({ p with threads := p.threads.checkin id thread } : Pool).Consistent wanted order pending none := by
  have ht := (h.lent_iff id).mpr rfl
  refine h.replace (Arena.replaces_checkin ht thread) (Arena.contains_of_tenant? ht) fun other => ?_
  split
  · simp
  · simp_all [eq_comm]

theorem Consistent.put {old : Thread} (h : p.Consistent wanted order pending none)
    (hold : p.threads.get? id = some old) (thread : Thread) :
    ({ p with threads := p.threads.put id thread } : Pool).Consistent wanted order pending none := by
  have ht := Arena.get?_eq_some_iff.mp hold
  refine h.replace (Arena.replaces_put ht thread) (Arena.contains_of_tenant? ht) fun other => ?_
  split <;> simp

theorem Consistent.insert (h : p.Consistent wanted order pending lent) (hroom : p.threads.live < p.maxThreads)
    (thread : Thread) : ({ p with threads := (p.threads.insert thread).2 } : Pool).Consistent wanted order
      ((p.threads.insert thread).1 :: pending) lent := by
  have hi := h.wellFormed.insert (h.room hroom) thread
  have hfresh : ¬ ((p.threads.insert thread).1 ∈ order ∨ (p.threads.insert thread).1 ∈ pending) := by
    rw [← h.contains_iff, Arena.contains_eq, hi.fresh]
    exact Bool.false_ne_true
  refine ⟨hi.wellFormed, fun other => ?_, fun other => ?_, ?_, ?_, ?_, h.limit⟩
  · rw [hi.tenant?_eq, ← h.lent_iff]
    split
    · rename_i hother
      rw [hother, hi.fresh]
      simp
    · exact Iff.rfl
  · rw [Arena.contains_eq, hi.tenant?_eq, List.mem_cons]
    split
    · rename_i hother
      simp [hother]
    · rename_i hother
      rw [← Arena.contains_eq, h.contains_iff, or_iff_right hother]
  · rw [List.perm_middle.nodup_iff, List.nodup_cons, List.mem_append]
    exact ⟨hfresh, h.nodup⟩
  · rw [List.length_cons, ← Nat.add_assoc, ← h.live_eq]
    exact hi.live_eq
  · show (p.threads.insert thread).2.live ≤ p.maxThreads
    rw [hi.live_eq]
    exact hroom

theorem Consistent.join (h : p.Consistent wanted order (id :: pending) lent) :
    p.Consistent wanted (order ++ [id]) pending lent := by
  have hnodup : ((order ++ [id]) ++ pending).Nodup := by
    rw [List.append_assoc]
    exact h.nodup
  refine ⟨h.wellFormed, h.lent_iff, fun other => ?_, hnodup, ?_, h.live_le, h.limit⟩
  · rw [List.mem_append, List.mem_singleton, or_assoc, ← List.mem_cons]
    exact h.contains_iff other
  · rw [List.length_append, List.length_singleton, Nat.add_assoc, Nat.add_comm 1]
    exact h.live_eq

theorem Consistent.asks (h : p.Consistent wanted order (spawned p.requests) lent) (hasks : p.Asks q) :
    q.Consistent wanted order (spawned q.requests) lent := by
  cases hasks with
  | nothing => exact h
  | request r hr =>
    have hsame : spawned (r :: p.requests) = spawned p.requests := by
      cases r with
      | spawn id => exact absurd rfl (hr id)
      | _ => rfl
    rw [hsame]
    exact h.withRequests _
  | spawn thread hroom => exact (h.insert hroom thread).withRequests _

end Pool

section

variable {σ : Type} [Stage σ]

theorem asks_step (id : ThreadId) (thread : Thread) (world : World σ) :
    world.shared.pool.Asks (step id thread world).value.world.shared.pool :=
  world_step (P := fun w => world.shared.pool.Asks w.shared.pool) .nothing
    (fun opcode i => Instruction.asks_run opcode i ⟨thread, thread.pc + 2, world⟩) id

variable {wanted : Nat} {order : List ThreadId} {lent : Option ThreadId}

def World.Consistent (world : World σ) (wanted : Nat) (order : List ThreadId) (lent : Option ThreadId) :
    Prop :=
  world.shared.pool.Consistent wanted order (spawned world.shared.requests) lent

theorem consistent_step (id : ThreadId) (thread : Thread) (world : World σ) (h : world.Consistent wanted order lent) :
    (step id thread world).value.world.Consistent wanted order lent :=
  Pool.Consistent.asks h (asks_step id thread world)

theorem consistent_runFor (id : ThreadId) (budget : Nat) (thread : Thread) {world : World σ}
    (h : world.Consistent wanted order lent) :
    (runFor id budget thread world).value.world.Consistent wanted order lent :=
  world_runFor (consistent_step id) budget thread h

theorem consistent_turn (delta : Single) (id : ThreadId) (thread : Thread) {world : World σ}
    (h : world.Consistent wanted order lent) :
    (turn delta id thread world).value.world.Consistent wanted order lent :=
  world_turn (consistent_step id) delta thread h

theorem consistent_turns (delta : Single) (ids : List ThreadId) {world : World σ}
    (h : world.Consistent wanted order none) :
    (turns delta ids world).value.world.Consistent wanted order none := by
  induction ids generalizing world with
  | nil => exact h
  | cons id ids ih =>
    rw [turns_cons_value]
    split
    · exact ih h
    · rename_i thread threads hc
      have hlent : ({ world with shared.threads := threads } : World σ).Consistent wanted order (some id) :=
        Pool.Consistent.checkout h hc
      have hturn := consistent_turn delta id thread hlent
      dsimp only
      generalize (turn delta id thread { world with shared.threads := threads }).value = o at hturn ⊢
      have hback : ({ o.world with shared.threads := o.world.shared.threads.checkin id o.thread } :
          World σ).Consistent wanted order none := Pool.Consistent.checkin hturn o.thread
      split
      · exact hback
      · exact ih hback

end

namespace Machine

variable {m : Machine} {wanted : Nat} {id : ThreadId}

theorem onHandle_value (m : Machine) (handle : Int32) (action : String) (f : Thread → Thread) :
    (m.onHandle handle action f).value = m ∨ ∃ id thread, m.shared.threads.get? id = some thread ∧
      (m.onHandle handle action f).value =
        { m with shared.threads := m.shared.threads.put id (f thread) } := by
  unfold onHandle
  dsimp only
  split
  · rename_i id thread h
    right
    obtain ⟨id', -, h⟩ := Option.bind_eq_some_iff.mp h
    obtain ⟨thread', hget, heq⟩ := Option.map_eq_some_iff.mp h
    cases heq
    exact ⟨id, thread, hget, rfl⟩
  · exact .inl rfl

/-- The books of a machine whose requests still to be carried out are `requests`. -/
def Pending (m : Machine) (wanted : Nat) (requests : List LifecycleRequest) : Prop :=
  m.shared.pool.Consistent wanted m.order (spawned requests) none

theorem Pending.onHandle {requests : List LifecycleRequest} (h : m.Pending wanted requests) (handle : Int32)
    (action : String) (f : Thread → Thread) : (m.onHandle handle action f).value.Pending wanted requests := by
  rcases m.onHandle_value handle action f with heq | ⟨id, thread, hget, heq⟩
  · rw [heq]
    exact h
  · rw [heq]
    exact Pool.Consistent.put h hget (f thread)

theorem Pending.applyRequest {r : LifecycleRequest} {rs : List LifecycleRequest}
    (h : m.Pending wanted (r :: rs)) :
    (m.applyRequest r).value.Pending wanted rs := by
  cases r with
  | kill handle =>
    have hrest : m.Pending wanted rs := h
    exact hrest.onHandle handle "kill" Thread.terminate
  | pause handle =>
    have hrest : m.Pending wanted rs := h
    exact hrest.onHandle handle "pause" _
  | resume handle =>
    have hrest : m.Pending wanted rs := h
    exact hrest.onHandle handle "resume" unpause
  | spawn id =>
    have hid : m.shared.threads.contains id = true := (h.contains_iff id).mpr (.inr List.mem_cons_self)
    show Pending (if m.shared.threads.contains id then { m with order := m.order ++ [id] } else m) wanted rs
    rw [if_pos hid]
    exact Pool.Consistent.join h

theorem Pending.applyAll {rs : List LifecycleRequest} (h : m.Pending wanted rs) :
    (m.applyAll rs).value.Pending wanted [] := by
  induction rs generalizing m with
  | nil => exact h
  | cons r rs ih => exact ih h.applyRequest

theorem requests_applyRequest (m : Machine) (r : LifecycleRequest) :
    (m.applyRequest r).value.shared.requests = m.shared.requests := by
  have hhandle (handle : Int32) (action : String) (f : Thread → Thread) :
      (m.onHandle handle action f).value.shared.requests = m.shared.requests := by
    rcases m.onHandle_value handle action f with heq | ⟨id, thread, hget, heq⟩ <;> rw [heq]
  cases r with
  | kill handle => exact hhandle _ _ _
  | pause handle => exact hhandle _ _ _
  | resume handle => exact hhandle _ _ _
  | spawn id =>
    show (if m.shared.threads.contains id then { m with order := m.order ++ [id] } else m).shared.requests = _
    split <;> rfl

theorem requests_applyAll (m : Machine) (rs : List LifecycleRequest) :
    (m.applyAll rs).value.shared.requests = m.shared.requests := by
  induction rs generalizing m with
  | nil => rfl
  | cons r rs ih => exact (ih _).trans (m.requests_applyRequest r)

theorem Pending.applyRequests (h : m.Pending wanted m.shared.requests) :
    m.applyRequests.value.Pending wanted [] := by
  have hperm : (spawned m.shared.requests).Perm (spawned m.shared.requests.reverse) := by
    rw [spawned, spawned, List.filterMap_reverse]
    exact (List.reverse_perm _).symm
  have hstart : ({ m with shared.requests := [] } : Machine).Pending wanted m.shared.requests.reverse :=
    (h.perm hperm).withRequests []
  exact hstart.applyAll

theorem requests_applyRequests (m : Machine) : m.applyRequests.value.shared.requests = [] :=
  requests_applyAll { m with shared.requests := [] } m.shared.requests.reverse

def leaves (threads : Arena Thread) (id : ThreadId) : Bool := ((threads.get? id).map Thread.isTerminated).getD true

theorem leaves_remove (threads : Arena Thread) (id other : ThreadId) :
    leaves (threads.remove id).2 other = (decide (other = id) || leaves threads other) := by
  rw [leaves, leaves, Arena.get?_eq, threads.tenant?_remove, Arena.get?_eq]
  by_cases heq : other = id <;> simp [heq]

theorem fst_reapFrom (threads : Arena Thread) (ids : List ThreadId) :
    (reapFrom threads ids).1 = ids.filter fun id => !leaves threads id := by
  induction ids generalizing threads with
  | nil => rfl
  | cons id ids ih =>
    rw [reapFrom, List.filter_cons, ← leaves]
    cases hleaves : leaves threads id with
    | false => simp [ih]
    | true =>
      rw [if_pos rfl, ih]
      refine List.filter_congr fun other _ => ?_
      rw [leaves_remove]
      by_cases heq : other = id <;> simp [heq, hleaves]

theorem tenant?_reapFrom (threads : Arena Thread) (ids : List ThreadId) (id : ThreadId) :
    (reapFrom threads ids).2.tenant? id = if id ∈ ids ∧ leaves threads id = true then none else threads.tenant? id := by
  induction ids generalizing threads with
  | nil => simp [reapFrom]
  | cons other ids ih =>
    rw [reapFrom, ← leaves]
    cases hleaves : leaves threads other with
    | false =>
      rw [if_neg Bool.false_ne_true]
      simp only [ih, List.mem_cons]
      by_cases heq : id = other <;> simp [heq, hleaves]
    | true =>
      rw [if_pos rfl, ih, leaves_remove, threads.tenant?_remove]
      by_cases heq : id = other <;> simp [heq, hleaves]

/-- What reaping leaves of some live threads: those that have not ended, in their order. -/
structure Reaped (threads : Arena Thread) (ids : List ThreadId) (kept : List ThreadId)
    (left : Arena Thread) : Prop where
  sublist : kept.Sublist ids
  wellFormed : threads.WellFormed → left.WellFormed
  live_eq : threads.WellFormed → left.live + ids.length = threads.live + kept.length
  tenant?_eq : ∀ id, left.tenant? id = if id ∈ ids ∧ id ∉ kept then none else threads.tenant? id
  unended : ∀ id ∈ kept, ∃ thread, threads.get? id = some thread ∧ thread.isTerminated = false

variable {threads left : Arena Thread} {ids kept : List ThreadId} {t : Tenancy Thread} {thread : Thread}

theorem live_reapFrom (hnodup : ids.Nodup) (hlive : ∀ id ∈ ids, threads.contains id = true) (hwf : threads.WellFormed) :
    (reapFrom threads ids).2.WellFormed ∧
      (reapFrom threads ids).2.live + ids.length = threads.live + (reapFrom threads ids).1.length := by
  induction ids generalizing threads with
  | nil => exact ⟨hwf, rfl⟩
  | cons id ids ih =>
    obtain ⟨hid, hnodup⟩ := List.nodup_cons.mp hnodup
    obtain ⟨hlive₀, hlive⟩ := List.forall_mem_cons.mp hlive
    rw [reapFrom]
    split
    · rw [Arena.contains_eq, Option.isSome_iff_exists] at hlive₀
      obtain ⟨t, ht⟩ := hlive₀
      have hr := Arena.removes_remove ht
      have hothers : ∀ other ∈ ids, (threads.remove id).2.contains other = true := by
        intro other hother
        have hne : other ≠ id := fun heq => hid (heq ▸ hother)
        rw [Arena.contains_eq, hr.tenant?_eq, if_neg hne, ← Arena.contains_eq]
        exact hlive other hother
      obtain ⟨hwf', hcount⟩ := ih hnodup hothers (hr.wellFormed hwf)
      have hone := hr.live_eq hwf
      refine ⟨hwf', ?_⟩
      rw [List.length_cons]
      omega
    · obtain ⟨hwf', hcount⟩ := ih hnodup hlive hwf
      refine ⟨hwf', ?_⟩
      simp only [List.length_cons]
      omega

theorem reaped_reapFrom (hnodup : ids.Nodup) (hlive : ∀ id ∈ ids, threads.contains id = true) :
    Reaped threads ids (reapFrom threads ids).1 (reapFrom threads ids).2 where
  sublist := by
    rw [fst_reapFrom]
    exact List.filter_sublist
  wellFormed hwf := (live_reapFrom hnodup hlive hwf).1
  live_eq hwf := (live_reapFrom hnodup hlive hwf).2
  tenant?_eq id := by
    have hgone : id ∈ ids ∧ id ∉ (reapFrom threads ids).1 ↔ id ∈ ids ∧ leaves threads id = true := by
      rw [fst_reapFrom, List.mem_filter]
      simp +contextual
    simp only [tenant?_reapFrom, hgone]
  unended id hid := by
    rw [fst_reapFrom, List.mem_filter, leaves] at hid
    cases hget : threads.get? id with
    | none => simp [hget] at hid
    | some thread => exact ⟨thread, rfl, by simpa [hget] using hid.2⟩

/-- A pool in which all threads have joined stays in order when the ended ones leave. -/
theorem Pending.reap (h : m.Pending wanted []) : m.reap.Pending wanted [] := by
  have hnodup : m.order.Nodup := (List.nodup_append.mp h.nodup).1
  have hr : Reaped m.shared.threads m.order m.reap.order m.reap.shared.threads :=
    reaped_reapFrom hnodup fun id hid => (h.contains_iff id).mpr (.inl hid)
  refine ⟨hr.wellFormed h.wellFormed, fun id => ?_, fun id => ?_, ?_, ?_, ?_, h.limit⟩
  · show m.reap.shared.threads.tenant? id = some .lent ↔ _
    rw [hr.tenant?_eq]
    split
    · simp
    · exact h.lent_iff id
  · show m.reap.shared.threads.contains id = true ↔ id ∈ m.reap.order ∨ id ∈ spawned []
    have hold : m.shared.threads.contains id = true ↔ id ∈ m.order ∨ id ∈ spawned [] := h.contains_iff id
    have hnone : id ∉ spawned [] := List.not_mem_nil
    rw [or_iff_left hnone] at hold ⊢
    rw [Arena.contains_eq, hr.tenant?_eq]
    by_cases hkept : id ∈ m.reap.order
    · rw [if_neg fun hand => hand.2 hkept, ← Arena.contains_eq, hold]
      exact iff_of_true (hr.sublist.subset hkept) hkept
    · by_cases hid : id ∈ m.order
      · simp [hid, hkept]
      · rw [if_neg fun hand => hid hand.1, ← Arena.contains_eq, hold]
        exact iff_of_false hid hkept
  · exact List.nodup_append.mpr ⟨hr.sublist.nodup hnodup, List.nodup_nil, by simp [spawned]⟩
  · have hlive := hr.live_eq h.wellFormed
    have hold : m.shared.threads.live = m.order.length + 0 := h.live_eq
    show m.reap.shared.threads.live = m.reap.order.length + 0
    omega
  · have hlive := hr.live_eq h.wellFormed
    have hlen := hr.sublist.length_le
    have hold : m.shared.threads.live ≤ m.shared.options.maxThreads := h.live_le
    show m.reap.shared.threads.live ≤ m.shared.options.maxThreads
    omega

/-- What a tick that comes to its end leaves. -/
structure Settled (m : Machine) (report : TickReport) : Prop where
  requests : m.shared.requests = []
  live_iff : ∀ id, m.shared.threads.contains id = true ↔ id ∈ m.order
  unended : ∀ id ∈ m.order, ∃ thread, m.thread? id = some thread ∧ thread.state ≠ .terminated
  report_eq : report.liveThreads = m.shared.threads.live

theorem Pending.settled (h : m.Pending wanted []) (hrequests : m.shared.requests = [])
    (executed faulted : Nat) :
    m.reap.Settled ⟨executed, m.reap.liveThreads, faulted⟩ := by
  have hnodup : m.order.Nodup := (List.nodup_append.mp h.nodup).1
  have hr : Reaped m.shared.threads m.order m.reap.order m.reap.shared.threads :=
    reaped_reapFrom hnodup fun id hid => (h.contains_iff id).mpr (.inl hid)
  have hreap := h.reap
  refine ⟨hrequests, fun id => ?_, fun id hid => ?_, ?_⟩
  · have hnone : id ∉ spawned [] := List.not_mem_nil
    have hlive : m.reap.shared.threads.contains id = true ↔ id ∈ m.reap.order ∨ id ∈ spawned [] :=
      hreap.contains_iff id
    rwa [or_iff_left hnone] at hlive
  · obtain ⟨thread, hget, hun⟩ := hr.unended id hid
    refine ⟨thread, ?_, of_decide_eq_false hun⟩
    rw [Machine.thread?, Arena.get?_eq, hr.tenant?_eq, if_neg fun hand => hand.2 hid, ← Arena.get?_eq]
    exact hget
  · exact hreap.live_eq.symm

theorem tick_books {σ : Type} [Stage σ] (h : m.Pending wanted m.shared.requests) (delta : Single) (stage : σ) :
    (m.tick delta stage).value.machine.Pending wanted (m.tick delta stage).value.machine.shared.requests ∧
      ∀ report, (m.tick delta stage).value.result = .ok report →
        (m.tick delta stage).value.machine.Settled report := by
  have hturns : (turns delta m.order ⟨m.shared, stage⟩).value.world.Consistent wanted m.order none :=
    consistent_turns delta m.order h
  rw [tick_value]
  generalize (turns delta m.order ⟨m.shared, stage⟩).value = o at hturns
  obtain ⟨world, result⟩ := o
  cases result with
  | error halt => exact ⟨hturns, fun report hreport => by cases hreport⟩
  | ok counts =>
    have hrun : ({ m with shared := world.shared } : Machine).Pending wanted world.shared.requests := hturns
    have happlied := hrun.applyRequests
    have hrequests := requests_applyRequests { m with shared := world.shared }
    have hsettled := happlied.settled hrequests counts.1 counts.2
    refine ⟨?_, fun report hreport => ?_⟩
    · show Pending (Machine.reap _) wanted (Machine.reap _).shared.requests
      rw [hsettled.requests]
      exact happlied.reap
    · cases hreport
      exact hsettled

end Machine
end NovelEngine
