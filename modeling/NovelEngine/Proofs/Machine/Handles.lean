import NovelEngine.Proofs.Machine.Annals

/-!
# What handles stand for

The handle of a live thread stands for it and for no other. The handle of a thread that is gone stands for nothing, or
for the present tenant of its place if the place has been freed a multiple of 0x8000 times since. What is asked to be
done to a live thread is done to that thread, however many halted ticks come between.
-/
namespace NovelEngine

namespace LifecycleRequest

def handle? : LifecycleRequest → Option Int32
  | spawn _ => none
  | kill handle | pause handle | resume handle => some handle

def effect : LifecycleRequest → Thread → Thread
  | spawn _, t => t
  | kill _, t => { t with state := .terminated }
  | pause _, t => { t with paused := true }
  | resume _, t => { t with paused := false, state := if t.state = .suspended then .running else t.state }

end LifecycleRequest

namespace Machine

variable {m m' first : Machine} {log : List ThreadEvent} {id target : ThreadId} {r : LifecycleRequest}
  {asked : List LifecycleRequest} {handle : Int32} {wanted : Nat}

/-- Handles tell the live threads of a machine apart, and only the length of their generations limits what they tell of
the threads that are gone. -/
structure Identifies (m : Machine) (log : List ThreadEvent) : Prop where
  index_bounds : ∀ id, m.shared.threads.contains id = true → 1 ≤ id.index.toNat ∧ id.index.toNat ≤ 65535
  handle_pos : ∀ id, m.shared.threads.contains id = true → 0 < id.toScriptHandle
  handle_inj : ∀ id other, m.shared.threads.contains id = true → m.shared.threads.contains other = true →
    id.toScriptHandle = other.toScriptHandle → id = other
  resolve_live : ∀ id, m.shared.threads.contains id = true → m.shared.threads.resolve id.toScriptHandle = some id
  live_iff : ∀ id, m.shared.threads.contains id = true ↔ ∃ later script earlier,
    log = later ++ .began id script :: earlier ∧ ∀ e ∈ later, e.place ≠ id.index.toNat
  resolve_former : ∀ later id script earlier, log = later ++ .began id script :: earlier →
    ∀ other, m.shared.threads.resolve id.toScriptHandle = some other ↔ m.shared.threads.contains other = true ∧
      other.index = id.index ∧ 0x8000 ∣ removals id.index.toNat later

theorem Annals.identifies {acceptable : Script → Prop} {options : MachineOptions} {library : Option ScriptLibrary}
    (h : Annals acceptable options library m log) : m.Identifies log := by
  have hwf : m.shared.threads.WellFormed := h.reachable.pending.wellFormed
  refine ⟨?_, ?_, ?_, ?_, ?_, ?_⟩
  · intro id hid
    exact hwf.index_bounds hid
  · intro id hid
    exact hwf.toScriptHandle_pos hid
  · intro id other hid hother heq
    exact hwf.toScriptHandle_inj hid hother heq
  · intro id hid
    exact hwf.resolve_toScriptHandle hid
  · intro id
    exact h.logged.live_iff
  · intro later id script earlier hlog other
    exact h.logged.resolve_iff hwf hlog

/-- The machine when the requests `asked` are done, the last of which comes first. -/
def serving (m : Machine) (asked : List LifecycleRequest) : Machine :=
  (applyAll { m with shared.requests := [] } asked.reverse).value

/-- When the requests are carried out, `r` comes behind `asked` and changes the thread `target` and no other. -/
structure Meets (m : Machine) (asked : List LifecycleRequest) (r : LifecycleRequest) (target : ThreadId) : Prop where
  queued : ∃ rest, m.shared.requests.reverse = asked.reverse ++ r :: rest ∧
    m.applyRequests.value = (((m.serving asked).applyRequest r).value.applyAll rest).value
  there : ((m.serving asked).thread? target).isSome = true
  thread?_eq : ∀ id, ((m.serving asked).applyRequest r).value.thread? id =
    if id = target then ((m.serving asked).thread? id).map r.effect else (m.serving asked).thread? id

theorem applyAll_append (m : Machine) (rs rs' : List LifecycleRequest) :
    (m.applyAll (rs ++ rs')).value = ((m.applyAll rs).value.applyAll rs').value := by
  induction rs generalizing m with
  | nil => rfl
  | cons r rs ih => exact ih _

theorem contains_applyAll (m : Machine) (rs : List LifecycleRequest) (id : ThreadId) :
    (m.applyAll rs).value.shared.threads.contains id = m.shared.threads.contains id :=
  applyAll_eq (fun m => m.shared.threads.contains id) (fun m r => m.contains_applyRequest r id) m rs

theorem isSome_thread?_applyAll (m : Machine) (rs : List LifecycleRequest) (id : ThreadId) :
    ((m.applyAll rs).value.thread? id).isSome = (m.thread? id).isSome :=
  applyAll_eq (fun m => (m.thread? id).isSome) (fun m r => m.isSome_thread?_applyRequest r id) m rs

theorem thread?_applyRequest (hr : r.handle? = some handle) (id : ThreadId) :
    (m.applyRequest r).value.thread? id =
      if m.shared.threads.resolve handle = some id then (m.thread? id).map r.effect else m.thread? id := by
  cases r with
  | spawn other => cases hr
  | kill _ | pause _ | resume _ =>
    cases hr
    exact m.thread?_onHandle handle _ _ id

theorem thread?_applyRequest_eq (m : Machine) (r : LifecycleRequest) (id : ThreadId) :
    (m.applyRequest r).value.thread? id =
      if r.handle?.bind m.shared.threads.resolve = some id then (m.thread? id).map r.effect else m.thread? id := by
  cases hr : r.handle? with
  | some handle => exact thread?_applyRequest hr id
  | none =>
    cases r with
    | kill handle | pause handle | resume handle => cases hr
    | spawn other =>
      show (if m.shared.threads.contains other then { m with order := m.order ++ [other] } else m).thread? id = _
      split <;> rfl

/-- Requests change nothing about threads but what their effects change. -/
theorem map_applyRequest {α : Type} (g : Thread → α) (hg : ∀ r t, g (LifecycleRequest.effect r t) = g t)
    (m : Machine) (r : LifecycleRequest) (id : ThreadId) :
    ((m.applyRequest r).value.thread? id).map g = (m.thread? id).map g := by
  rw [thread?_applyRequest_eq]
  split
  · rw [Option.map_map]
    exact congrArg (fun f => (m.thread? id).map f) (funext (hg r))
  · rfl

theorem map_applyAll {α : Type} (g : Thread → α) (hg : ∀ r t, g (LifecycleRequest.effect r t) = g t)
    (m : Machine) (rs : List LifecycleRequest) (id : ThreadId) :
    ((m.applyAll rs).value.thread? id).map g = (m.thread? id).map g :=
  applyAll_eq (fun m => (m.thread? id).map g) (fun m r => m.map_applyRequest g hg r id) m rs

theorem Pending.meets (h : m.Pending wanted m.shared.requests) (hasked : r :: asked <:+ m.shared.requests)
    (htarget : m.shared.threads.contains target = true) (hr : r.handle? = some target.toScriptHandle) :
    m.Meets asked r target := by
  have hlive : (m.serving asked).shared.threads.contains target = true :=
    (contains_applyAll { m with shared.requests := [] } asked.reverse target).trans htarget
  have hresolve : (m.serving asked).shared.threads.resolve target.toScriptHandle = some target := by
    rw [serving, Arena.resolve_congr (contains_applyAll _ _)]
    exact h.wellFormed.resolve_toScriptHandle htarget
  obtain ⟨later, hlater⟩ := hasked
  have hreverse : m.shared.requests.reverse = asked.reverse ++ r :: later.reverse := by
    rw [← hlater]
    simp
  refine ⟨⟨later.reverse, hreverse, ?_⟩, ?_, ?_⟩
  · show (({ m with shared.requests := [] } : Machine).applyAll m.shared.requests.reverse).value = _
    rw [hreverse, applyAll_append]
    rfl
  · obtain ⟨thread, hthread⟩ := h.exists_get? htarget
    have hsome := isSome_thread?_applyAll { m with shared.requests := [] } asked.reverse target
    exact hsome.trans (Option.isSome_iff_exists.mpr ⟨thread, hthread⟩)
  · intro id
    rw [thread?_applyRequest hr, hresolve]
    simp only [Option.some_inj, eq_comm]

inductive Defers (first : Machine) : Machine → Prop
  | refl : Defers first first
  | putScript {m m' : Machine} (buffer : Nat) (script : Script) (h : Defers first m)
      (hm : m.putScript buffer script = some m') : Defers first m'
  | loadScript {m m' : Machine} (buffer : UInt64) (id : UInt32) (loaded : Bool) (h : Defers first m)
      (hm : (m.loadScript buffer id).value = .ok (loaded, m')) : Defers first m'
  | spawn {m m' : Machine} (buffer : UInt64) (label : Int32) (id : ThreadId) (h : Defers first m)
      (hm : m.spawn buffer label = .ok (id, m')) : Defers first m'
  | globals {m : Machine} (globals : Globals) (h : Defers first m) : Defers first { m with shared.globals := globals }
  | halted {m : Machine} {σ : Type} [Stage σ] (delta : Single) (stage : σ) (halt : Halt) (h : Defers first m)
      (herror : (m.tick delta stage).value.result = .error halt) : Defers first (m.tick delta stage).value.machine

variable {options : MachineOptions} {library : Option ScriptLibrary}

theorem Defers.reachable (h : Defers first m) (hfirst : Reachable options library first) :
    Reachable options library m := by
  induction h with
  | refl => exact hfirst
  | putScript buffer script _ hm ih => exact ih.putScript buffer script hm
  | loadScript buffer id loaded _ hm ih => exact ih.loadScript buffer id loaded hm
  | spawn buffer label id _ hm ih => exact ih.spawn buffer label id hm
  | globals globals _ ih => exact ih.globals globals
  | halted delta stage halt _ _ ih => exact ih.tick delta stage

theorem Defers.extends (h : Defers first m) (hfirst : Reachable options library first) :
    first.shared.pool.Extends m.shared.pool := by
  induction h with
  | refl => exact .refl _
  | putScript buffer script _ hm ih =>
    rw [(putScript_pool hm).1]
    exact ih
  | loadScript buffer id loaded _ hm ih =>
    rw [(loadScript_pool hm).1]
    exact ih
  | spawn buffer label id h hm ih =>
    have hpending := (h.reachable hfirst).pending
    obtain ⟨thread, hroom, -, hshared⟩ := spawn_eq_ok_insert hm
    rw [hshared]
    exact ih.trans ⟨(hpending.wellFormed.lets_insert (hpending.room hroom) thread).grows, List.suffix_rfl⟩
  | globals globals _ ih => exact ih
  | halted delta stage halt h herror ih =>
    rw [tick_eq_error herror]
    exact ih.trans ((h.reachable hfirst).pending.extends_turned delta stage)

/-- Whatever is asked up to a boundary of a tick to be done to a thread that is live there is done to that very thread
when the requests are carried out: when the turns are over, or else after the next turns that do not halt. -/
structure Delivers {σ : Type} [Stage σ] (m : Machine) (delta : Single) (stage : σ) (o : TurnOutcome σ) : Prop where
  now : ∀ asked r target report, r :: asked <:+ o.world.shared.requests →
    o.world.shared.threads.contains target = true → r.handle? = some target.toScriptHandle →
    (m.tick delta stage).value.result = .ok report → (m.turned delta stage).Meets asked r target
  later : ∀ asked r target halt, r :: asked <:+ o.world.shared.requests →
    o.world.shared.threads.contains target = true → r.handle? = some target.toScriptHandle →
    (m.tick delta stage).value.result = .error halt →
    ∀ m', Defers (m.tick delta stage).value.machine m' →
      ∀ (τ : Type) [Stage τ] (delta' : Single) (stage' : τ) (report : TickReport),
        (m'.tick delta' stage').value.result = .ok report → (m'.turned delta' stage').Meets asked r target

section

variable {σ : Type} [Stage σ] {delta : Single} {stage : σ} {o : TurnOutcome σ}

theorem Boundary.delivers (h : Reachable options library m) (ho : m.Boundary delta stage id o) :
    m.Delivers delta stage o := by
  have hextends := ho.extends_turned h.pending
  constructor
  · intro asked r target report hasked htarget hr _
    exact (h.pending.turned delta stage).meets (hasked.trans hextends.suffix) (hextends.grows.contains htarget) hr
  · intro asked r target halt hasked htarget hr herror m' hdefers τ _ delta' stage' report _
    have htick : Reachable options library (m.tick delta stage).value.machine := h.tick delta stage
    have hdeferred := hdefers.extends htick
    have hpending := (hdefers.reachable htick).pending
    rw [tick_eq_error herror] at hdeferred
    have hall := hextends.trans (hdeferred.trans (hpending.extends_turned delta' stage'))
    exact (hpending.turned delta' stage').meets (hasked.trans hall.suffix) (hall.grows.contains htarget) hr

end

/-- Handles identify threads: those that are live, those that are gone, and those that requests are meant for. -/
theorem Annals.handles {acceptable : Script → Prop} (h : Annals acceptable options library m log) :
    m.Identifies log ∧ ∀ (σ : Type) [Stage σ] (delta : Single) (stage : σ) (id : ThreadId) (o : TurnOutcome σ),
      m.Boundary delta stage id o → m.Delivers delta stage o :=
  ⟨h.identifies, fun _ _ _ _ _ _ ho => ho.delivers h.reachable⟩

/-- A thread is to be ended by another and is; then its handle stands for nothing. -/
theorem Annals.handles_kill :
    let script := Script.build 1 [0, 1, 0, 9, 0x81, 0, 0, 1] [0, 2] []
    let start := (Machine.create {} none).value
    let loaded := (start.putScript 0 script).getD start
    let one := ((loaded.spawn 0 0).toOption.map Prod.snd).getD loaded
    let m := ((one.spawn 0 1).toOption.map Prod.snd).getD one
    let after := (m.tick Single.zero Recorder.empty).value.machine
    let log : List ThreadEvent := [.began ⟨2, 0⟩ script, .began ⟨1, 0⟩ script]
    ∃ o, m.Boundary Single.zero Recorder.empty ⟨2, 0⟩ o ∧ o.world.shared.requests = [.kill 1] ∧
      (m.turned Single.zero Recorder.empty).Meets [] (.kill 1) ⟨1, 0⟩ ∧
      m.Identifies log ∧ after.Identifies (.ended ⟨1, 0⟩ :: log) ∧ after.shared.threads.resolve 1 = none := by
  intro script start loaded one m after log
  have hloaded : Annals (fun _ => True) {} none loaded [] := .putScript 0 script trivial .create rfl
  have hone : Annals (fun _ => True) {} none one [.began ⟨1, 0⟩ script] := .spawn 0 0 ⟨1, 0⟩ hloaded rfl rfl
  have hm : Annals (fun _ => True) {} none m log := .spawn 0 1 ⟨2, 0⟩ hone rfl rfl
  have hafter : Annals (fun _ => True) {} none after (.ended ⟨1, 0⟩ :: log) :=
    hm.tick_of_newcomers [⟨1, 0⟩] (by decide +kernel) (by decide +kernel)
  have hresult : (m.tick Single.zero Recorder.empty).value.result = .ok ⟨3, 1, 0⟩ := by decide +kernel
  let first := (turns Single.zero [⟨1, 0⟩] (⟨m.shared, Recorder.empty⟩ : World Recorder)).value
  have hcounts : first.result = .ok (1, 0) := by decide +kernel
  have hbefore : first = ⟨first.world, .ok (1, 0)⟩ := by rw [← hcounts]
  have hthere : (first.world.shared.threads.checkout ⟨2, 0⟩).isSome = true := by decide +kernel
  have hlent : first.world.shared.threads.checkout ⟨2, 0⟩ = some _ := (Option.some_get hthere).symm
  obtain ⟨o, ho, hrequests, htarget⟩ : ∃ o, m.Boundary Single.zero Recorder.empty ⟨2, 0⟩ o ∧
      o.world.shared.requests = [.kill 1] ∧ o.world.shared.threads.contains ⟨1, 0⟩ = true := by
    have horder : m.order = [⟨1, 0⟩] ++ ⟨2, 0⟩ :: [] := by decide +kernel
    have hbudget : 1 ≤ first.world.shared.options.instructionsPerTick.toNat := by decide +kernel
    exact ⟨_, .intro horder hbefore hlent (by decide +kernel) (by decide +kernel) hbudget, by decide +kernel,
      by decide +kernel⟩
  have hmeets : (m.turned Single.zero Recorder.empty).Meets [] (.kill 1) ⟨1, 0⟩ := by
    have hasked : [.kill 1] <:+ o.world.shared.requests := ⟨[], hrequests.symm⟩
    exact (hm.handles.2 Recorder _ _ _ _ ho).now [] (.kill 1) ⟨1, 0⟩ _ hasked htarget rfl hresult
  exact ⟨o, ho, hrequests, hmeets, hm.handles.1, hafter.handles.1, by decide +kernel⟩

end Machine
end NovelEngine
