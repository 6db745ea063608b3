import NovelEngine.Machine.Recorder
import NovelEngine.Proofs.Machine.Pool

/-!
# The books of a machine

Whatever is done to a machine, between two operations nothing is lent out and every live thread is in the run
order or waits to join it. A tick that comes to its end leaves none waiting and none ended.
-/
namespace NovelEngine.Machine

variable {m : Machine} {id : ThreadId}

/-- The machines that some sequence of operations leads to. -/
inductive Reachable (options : MachineOptions) (library : Option ScriptLibrary) : Machine → Prop
  | create : Reachable options library (create options library).value
  | putScript {m m' : Machine} (buffer : Nat) (script : Script) (h : Reachable options library m)
      (hm : m.putScript buffer script = some m') : Reachable options library m'
  | loadScript {m m' : Machine} (buffer : UInt64) (id : UInt32) (loaded : Bool)
      (h : Reachable options library m) (hm : (m.loadScript buffer id).value = .ok (loaded, m')) :
      Reachable options library m'
  | spawn {m m' : Machine} (buffer : UInt64) (label : Int32) (id : ThreadId)
      (h : Reachable options library m) (hm : m.spawn buffer label = .ok (id, m')) :
      Reachable options library m'
  | globals {m : Machine} (globals : Globals) (h : Reachable options library m) :
      Reachable options library { m with shared.globals := globals }
  | tick {m : Machine} {σ : Type} [Stage σ] (delta : Single) (stage : σ) (h : Reachable options library m) :
      Reachable options library (m.tick delta stage).value.machine

variable {options : MachineOptions} {library : Option ScriptLibrary}

theorem pool_loadScript {s s' : Shared} {buffer : Int} {id : Int32} {loaded : Bool}
    (h : (s.loadScript buffer id).value = .ok (loaded, s')) : s'.pool = s.pool := by
  have hsame := Instruction.loadScript_within s ⟨s.pool, s.options.instructionsPerTick, 0, .running, false⟩
    buffer id
  rw [show s.within _ = s from rfl, h] at hsame
  simp only [Except.map, Except.ok.injEq, Prod.mk.injEq] at hsame
  rw [hsame.2]
  rfl

theorem create_value (options : MachineOptions) (library : Option ScriptLibrary) :
    (create options library).value =
      ⟨⟨{ options with maxThreads := min options.maxThreads ThreadId.maxScriptIndex },
        Vector.replicate scriptBufferCount none, library, .empty, [], .empty⟩, []⟩ := by
  unfold create
  dsimp only
  split <;> rfl

theorem loadScript_pool {m' : Machine} {buffer : UInt64} {id : UInt32} {loaded : Bool}
    (hm : (m.loadScript buffer id).value = .ok (loaded, m')) :
    m'.shared.pool = m.shared.pool ∧ m'.order = m.order := by
  have hvalue : (m.loadScript buffer id).value =
      (m.shared.loadScript buffer.toInt64.toInt id.toInt32).value.map
        fun p => (p.1, { m with shared := p.2 }) := rfl
  rw [hvalue] at hm
  cases hload : (m.shared.loadScript buffer.toInt64.toInt id.toInt32).value with
  | error e =>
    rw [hload] at hm
    cases hm
  | ok p =>
    have hpool := pool_loadScript (show _ = Except.ok (p.1, p.2) from hload)
    rw [hload] at hm
    cases hm
    exact ⟨hpool, rfl⟩

theorem Reachable.pending (h : Reachable options library m) :
    m.Pending options.maxThreads m.shared.requests := by
  induction h with
  | create =>
    rw [create_value]
    refine ⟨Arena.wellFormed_empty, fun id => ?_, fun id => ?_, List.nodup_nil, rfl, Nat.zero_le _, rfl⟩
    · simp [Shared.pool, Arena.tenant?_empty]
    · simp [Shared.pool, Arena.contains_eq, Arena.tenant?_empty, spawned]
  | putScript buffer script _ hm ih =>
    unfold Machine.putScript at hm
    split at hm
    · cases hm
      exact ih
    · cases hm
  | loadScript buffer id loaded _ hm ih =>
    obtain ⟨hpool, horder⟩ := loadScript_pool hm
    rw [Pending, hpool, horder, show Shared.requests _ = _ from congrArg Pool.requests hpool]
    exact ih
  | @spawn m m' buffer label id _ hm ih =>
    unfold Machine.spawn at hm
    cases hspawn : m.shared.spawn buffer.toInt64.toInt label with
    | error f =>
      rw [hspawn] at hm
      cases hm
    | ok r =>
      rw [hspawn] at hm
      cases hm
      obtain ⟨thread, hroom, hid, hs⟩ := Shared.spawn_eq_ok (show _ = Except.ok (r.1, r.2) from hspawn)
      rw [hid, hs]
      exact (ih.insert hroom thread).join
  | globals globals _ ih => exact ih
  | tick delta stage _ ih => exact (tick_books ih delta stage).1

/-- What holds of a machine between operations. -/
structure StoreInvariant (options : MachineOptions) (m : Machine) : Prop where
  none_lent : ∀ c ∈ m.shared.threads.cells, c.tenancy ≠ .lent
  live_eq : m.shared.threads.live = m.shared.threads.cells.countP fun c => c.tenancy.value?.isSome
  free_nodup : m.shared.threads.free.Nodup
  mem_free_iff : ∀ i, i ∈ m.shared.threads.free ↔
    1 ≤ i ∧ ∃ c, m.shared.threads.cellAt? i = some c ∧ c.tenancy = .vacant
  order_nodup : m.order.Nodup
  live_iff : ∀ id, m.shared.threads.contains id = true ↔ id ∈ m.order ∨ .spawn id ∈ m.shared.requests
  disjoint : ∀ id ∈ m.order, .spawn id ∉ m.shared.requests
  spawned_nodup : (spawned m.shared.requests).Nodup
  live_le : m.shared.threads.live ≤ min options.maxThreads ThreadId.maxScriptIndex

theorem mem_spawned_iff {requests : List LifecycleRequest} :
    id ∈ spawned requests ↔ .spawn id ∈ requests := by
  rw [spawned, List.mem_filterMap]
  constructor
  · rintro ⟨r, hr, heq⟩
    cases r <;> cases heq
    exact hr
  · intro h
    exact ⟨_, h, rfl⟩

theorem Pending.store (h : m.Pending options.maxThreads m.shared.requests) :
    m.StoreInvariant options := by
  have hwf : m.shared.threads.WellFormed := h.wellFormed
  have hnone : ∀ c ∈ m.shared.threads.cells, c.tenancy ≠ .lent := by
    intro c hc hlent
    obtain ⟨id, hid⟩ := hwf.exists_tenant? hc (by rw [hlent]; rfl)
    rw [hlent] at hid
    cases (h.lent_iff id).mp hid
  obtain ⟨horder, hspawned, hdisjoint⟩ := List.nodup_append.mp h.nodup
  refine ⟨hnone, ?_, hwf.free_nodup, fun i => ?_, horder, fun id => ?_, fun id hid hmem => ?_, hspawned, ?_⟩
  · rw [hwf.live_eq]
    refine List.countP_congr fun c hc => ?_
    have hc := hnone c hc
    cases htenancy : c.tenancy <;> simp_all [Tenancy.isLive, Tenancy.value?]
  · rw [hwf.mem_free_iff]
    constructor
    · rintro ⟨c, hc, hvacant⟩
      obtain ⟨n, rfl, -⟩ := Arena.exists_of_cellAt? hc
      exact ⟨Nat.succ_pos n, c, hc, hvacant⟩
    · exact fun hand => hand.2
  · rw [← mem_spawned_iff]
    exact h.contains_iff id
  · exact hdisjoint id hid id (mem_spawned_iff.mpr hmem) rfl
  · rw [← h.limit]
    exact h.live_le

/-- The books of every reachable machine are in order, and every tick that comes to its end settles them. -/
theorem Reachable.storeInvariant (h : Reachable options library m) :
    m.StoreInvariant options ∧
      ∀ (σ : Type) [Stage σ] (delta : Single) (stage : σ) (report : TickReport),
        (m.tick delta stage).value.result = .ok report →
        (m.tick delta stage).value.machine.Settled report :=
  ⟨h.pending.store, fun _ _ delta stage => (tick_books h.pending delta stage).2⟩

/-- A thread that runs into its `End` gives its place back. -/
theorem Reachable.storeInvariant_exit :
    let start := (Machine.create {} none).value
    let loaded := (start.putScript 0 (Script.build 1 [0, 0] [] [])).getD start
    let m := ((loaded.spawn 0 0).toOption.map Prod.snd).getD loaded
    let after := (m.tick Single.zero Recorder.empty).value
    Reachable {} none m ∧ m.StoreInvariant {} ∧ m.order = [⟨1, 0⟩] ∧
      after.result = .ok ⟨1, 0, 0⟩ ∧ after.machine.Settled ⟨1, 0, 0⟩ := by
  intro start loaded m after
  have hloaded : Reachable {} none loaded := .putScript 0 (Script.build 1 [0, 0] [] []) .create rfl
  have hm : Reachable {} none m := .spawn 0 0 ⟨1, 0⟩ hloaded rfl
  have hresult : after.result = .ok ⟨1, 0, 0⟩ := rfl
  exact ⟨hm, hm.storeInvariant.1, rfl, hresult, hm.storeInvariant.2 Recorder _ _ _ hresult⟩

end NovelEngine.Machine
