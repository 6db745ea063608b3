import NovelEngine.Proofs.Machine.Calls
import NovelEngine.Proofs.Machine.Handles
import NovelEngine.Proofs.Machine.Origins

/-!
# Where threads are

If only parsed scripts enter the buffers, every thread is in the code of the script that it was started with, at every
boundary between instructions and between all operations, and so is everything that it can return to.
-/
namespace NovelEngine

variable {σ : Type}

namespace Moment

/-- Everything is as it has to be for threads to stay in their code. -/
def Guarded (a : Moment σ) : Prop :=
  a.world.shared.Provided ∧ ∀ id thread, a.running = some (id, thread) → thread.Confined

theorem Guarded.confined {world : World σ} {id : ThreadId} {thread : Thread}
    (h : Guarded ⟨some (id, thread), world⟩) : thread.Confined :=
  h.2 id thread rfl

theorem Guarded.running {world : World σ} {id : ThreadId} {thread : Thread} (hworld : world.shared.Provided)
    (hthread : thread.Confined) : Guarded ⟨some (id, thread), world⟩ := by
  refine ⟨hworld, ?_⟩
  intro other thread' heq
  cases heq
  exact hthread

theorem Guarded.idle {world : World σ} (hworld : world.shared.Provided) : Guarded ⟨none, world⟩ := by
  refine ⟨hworld, ?_⟩
  intro id thread heq
  cases heq

def Has (a : Moment σ) (id : ThreadId) (thread : Thread) : Prop :=
  a.running = some (id, thread) ∨ a.world.shared.threads.get? id = some thread

/-- Every thread of the first moment is there in the second one, with the same script. -/
def Continues (a b : Moment σ) : Prop :=
  ∀ id thread, a.Has id thread → ∃ thread', b.Has id thread' ∧ thread'.script = thread.script

end Moment

theorem Thread.Confined.of_eq {t t' : Thread} (h : t.Confined) (hscript : t'.script = t.script)
    (hpc : t'.pc = t.pc) (hcalls : t'.calls = t.calls) : t'.Confined := by
  refine ⟨?_, ?_, ?_⟩
  · rw [hscript]
    exact h.parsed
  · rw [hscript, hpc]
    exact h.pc
  · rw [hscript, hcalls]
    exact h.frames

/-- The thread runs this script, it and its frames are in the code, and what it reads ends where the code does. -/
structure Thread.Resides (t : Thread) (s : Script) : Prop where
  script_eq : t.script = s
  pc_bounds : 12 + 4 * s.labels.length ≤ t.pc ∧ t.pc ≤ s.codeEnd
  frame_bounds : ∀ frame ∈ t.calls.frames, 12 + 4 * s.labels.length ≤ frame.toNat ∧ frame.toNat ≤ s.codeEnd
  rest_eq : ∀ pos, (t.cursorAt pos).rest = (s.bytes.take s.codeEnd).drop pos

theorem Thread.Confined.resides {t : Thread} (h : t.Confined) : t.Resides t.script := by
  refine ⟨rfl, h.pc, h.frames, fun pos => ?_⟩
  show t.script.codeFrom pos = _
  rw [Script.codeFrom_eq_drop, h.parsed.sound.code_eq]

theorem Thread.poll_same (t : Thread) (delta : Single) (globals : Globals) (status : SlotKey → LoadStatus) :
    (t.poll delta globals status).2.script = t.script ∧ (t.poll delta globals status).2.pc = t.pc ∧
      (t.poll delta globals status).2.calls = t.calls := by
  unfold Thread.poll
  cases t.state with
  | running | suspended | terminated => exact ⟨rfl, rfl, rfl⟩
  | waiting condition =>
    cases condition with
    | timer _ | signal _ | resource _ =>
      dsimp only
      split
      · exact ⟨rfl, rfl, rfl⟩
      · exact ⟨rfl, rfl, rfl⟩

theorem continues_running {world world' : World σ} {id : ThreadId} {thread thread' : Thread}
    (hscript : thread'.script = thread.script)
    (hstored : ∀ id thread, world.shared.threads.get? id = some thread → world'.shared.threads.get? id = some thread) :
    Moment.Continues ⟨some (id, thread), world⟩ ⟨some (id, thread'), world'⟩ := by
  intro other u h
  rcases h with h | h
  · cases h
    exact ⟨thread', .inl rfl, hscript⟩
  · exact ⟨u, .inr (hstored other u h), rfl⟩

section

variable [Stage σ] {wanted : Nat} {order : List ThreadId}

theorem bridges_guarded (wanted : Nat) (order : List ThreadId) :
    Bridges wanted order fun a b : Moment σ => a.Guarded → b.Guarded where
  refl _ h := h
  trans hab hbc ha := hbc (hab ha)
  lend _ hc h := by
    have hthread := h.1.threads.get (Arena.get?_of_checkout hc)
    exact .running (h.1.withThreads (h.1.threads.checkout hc)) hthread
  poll world id thread delta h := by
    obtain ⟨hscript, hpc, hcalls⟩ := thread.poll_same delta world.shared.globals (Stage.status world.stage)
    exact .running h.1 (h.confined.of_eq hscript hpc hcalls)
  step thread _ h := by
    obtain ⟨hthread, hworld⟩ := (stays_step _ thread _).confined h.confined h.1
    exact .running hworld hthread
  stop _ _ _ h := .running h.1 (h.confined.of_eq rfl rfl rfl)
  back _ _ h := .idle (h.1.withThreads (h.1.threads.checkin h.confined))

theorem get?_of_asks {p q : Pool} {pending : List ThreadId} {lent : Option ThreadId} {id : ThreadId} {thread : Thread}
    (h : p.Consistent wanted order pending lent) (hasks : p.Asks q) (hget : p.threads.get? id = some thread) :
    q.threads.get? id = some thread := by
  cases hasks with
  | nothing => exact hget
  | request r hr => exact hget
  | spawn new hroom =>
    have hinsert := h.wellFormed.insert (h.room hroom) new
    rw [Arena.get?_eq_some_iff] at hget ⊢
    rw [hinsert.tenant?_eq, if_neg]
    · exact hget
    · intro heq
      rw [heq, hinsert.fresh] at hget
      cases hget

theorem bridges_continues (wanted : Nat) (order : List ThreadId) :
    Bridges wanted order (Moment.Continues (σ := σ)) where
  refl _ _ thread h := ⟨thread, h, rfl⟩
  trans hab hbc id thread h := by
    obtain ⟨thread', h', hscript⟩ := hab id thread h
    obtain ⟨thread'', h'', hscript'⟩ := hbc id thread' h'
    exact ⟨thread'', h'', hscript'.trans hscript⟩
  lend {world id thread threads} _ hc other u h := by
    obtain ⟨htenant, hlent⟩ := Arena.checkout_eq_some hc
    rcases h with h | h
    · cases h
    · refine ⟨u, ?_, rfl⟩
      by_cases heq : other = id
      · subst heq
        rw [Arena.get?_of_checkout hc] at h
        cases h
        exact .inl rfl
      · refine .inr ?_
        show threads.get? other = some u
        rw [Arena.get?_eq, hlent.tenant?_eq, if_neg heq, ← Arena.get?_eq]
        exact h
  poll _ _ thread delta := continues_running (thread.poll_same delta _ _).1 fun _ _ h => h
  step {world id} thread hworld := by
    refine continues_running (stays_step id thread world).script_eq fun other u h => ?_
    exact get?_of_asks hworld (asks_step id thread world) h
  stop _ _ _ := continues_running rfl fun _ _ h => h
  back {world id} thread hworld other u h := by
    have hlent : world.shared.threads.tenant? id = some .lent := (hworld.lent_iff id).mpr rfl
    have hback := Arena.replaces_checkin hlent thread
    rcases h with h | h
    · cases h
      refine ⟨thread, .inr ?_, rfl⟩
      exact Arena.get?_eq_some_iff.mpr ((hback.tenant?_eq id).trans (if_pos rfl))
    · have hne : other ≠ id := by
        intro heq
        rw [Arena.get?_eq_some_iff, heq, hlent] at h
        cases h
      refine ⟨u, .inr ?_, rfl⟩
      show (world.shared.threads.checkin id thread).get? other = some u
      rw [Arena.get?_eq, hback.tenant?_eq, if_neg hne, ← Arena.get?_eq]
      exact h

end

/-- The script that a thread was started with, by a log of the events. -/
def scriptOf? (id : ThreadId) : List ThreadEvent → Option Script
  | [] => none
  | .began other script :: log => if other = id then some script else scriptOf? id log
  | .ended _ :: log => scriptOf? id log

theorem scriptOf?_ended (id : ThreadId) (ids : List ThreadId) (log : List ThreadEvent) :
    scriptOf? id (ids.map .ended ++ log) = scriptOf? id log := by
  induction ids with
  | nil => rfl
  | cons other ids ih => exact ih

theorem scriptOf?_began (find : ThreadId → Option Thread) (id : ThreadId) (ids : List ThreadId)
    (log : List ThreadEvent) :
    scriptOf? id ((ids.filterMap fun other => (find other).map fun t => .began other t.script) ++ log) =
      if id ∈ ids then ((find id).map Thread.script).or (scriptOf? id log) else scriptOf? id log := by
  induction ids with
  | nil => simp
  | cons other ids ih =>
    by_cases heq : other = id
    · subst heq
      cases hfind : find other with
      | none => simpa [hfind] using ih
      | some t => simp [hfind, scriptOf?]
    · cases hother : find other with
      | none => simpa [hother, Ne.symm heq] using ih
      | some t => simpa [hother, scriptOf?, heq, Ne.symm heq] using ih

namespace Machine

variable {m : Machine} {log : List ThreadEvent} {id : ThreadId} {thread : Thread} {wanted : Nat}

theorem provided_onHandle (h : m.shared.Provided) (handle : Int32) (action : String) (f : Thread → Thread)
    (hf : ∀ t, (f t).script = t.script ∧ (f t).pc = t.pc ∧ (f t).calls = t.calls) :
    (m.onHandle handle action f).value.shared.Provided := by
  rcases m.onHandle_value handle action f with heq | ⟨id, thread, hget, heq⟩
  · rw [heq]
    exact h
  · obtain ⟨hscript, hpc, hcalls⟩ := hf thread
    rw [heq]
    exact ⟨h.buffers, h.threads.put ((h.threads.get hget).of_eq hscript hpc hcalls)⟩

theorem provided_applyRequest (h : m.shared.Provided) (r : LifecycleRequest) :
    (m.applyRequest r).value.shared.Provided := by
  cases r with
  | kill handle => exact provided_onHandle h handle _ _ fun _ => ⟨rfl, rfl, rfl⟩
  | pause handle => exact provided_onHandle h handle _ _ fun _ => ⟨rfl, rfl, rfl⟩
  | resume handle => exact provided_onHandle h handle _ _ fun _ => ⟨rfl, rfl, rfl⟩
  | spawn other =>
    show (if m.shared.threads.contains other then { m with order := m.order ++ [other] } else m).shared.Provided
    split
    · exact h
    · exact h

theorem provided_applyAll (h : m.shared.Provided) (rs : List LifecycleRequest) :
    (m.applyAll rs).value.shared.Provided :=
  applyAll_keeps (p := fun m => m.shared.Provided) (fun _ r hbefore => provided_applyRequest hbefore r) h rs

theorem all_reapFrom {threads : Arena Thread} {p : Thread → Prop} (h : threads.All p) (ids : List ThreadId) :
    (reapFrom threads ids).2.All p := by
  induction ids generalizing threads with
  | nil => exact h
  | cons id ids ih =>
    rw [reapFrom]
    split
    · exact ih h.remove
    · exact ih h

theorem script_effect (r : LifecycleRequest) (t : Thread) : (r.effect t).script = t.script := by
  cases r <;> rfl

theorem Pending.thread?_of_reap (h : m.Pending wanted []) (hthread : m.reap.thread? id = some thread) :
    m.thread? id = some thread := by
  have hr : Reaped m.shared.threads m.order m.reap.order m.reap.shared.threads :=
    reaped_reapFrom (List.nodup_append.mp h.nodup).1 fun id hid => (h.contains_iff id).mpr (.inl hid)
  rw [thread?, Arena.get?_eq_some_iff] at hthread ⊢
  rw [hr.tenant?_eq] at hthread
  split at hthread
  · cases hthread
  · exact hthread

def Recounts (m : Machine) (log : List ThreadEvent) : Prop :=
  ∀ id thread, m.thread? id = some thread → scriptOf? id log = some thread.script

section

variable [Stage σ] {delta : Single} {stage : σ} {o : TurnOutcome σ}

theorem has_dusk_iff : (m.dusk delta stage).Has id thread ↔ (m.turned delta stage).thread? id = some thread := by
  have hnone : ¬(m.dusk delta stage).running = some (id, thread) := by
    intro h
    cases h
  rw [thread?, turned_shared, Moment.Has, or_iff_right hnone]

theorem recounts_turned (hpending : m.Pending wanted m.shared.requests) (h : m.Recounts log) (delta : Single)
    (stage : σ) : (m.turned delta stage).Recounts (m.begun delta stage ++ log) := by
  intro id thread hthread
  have hwf : (m.turned delta stage).shared.threads.WellFormed := (hpending.turned delta stage).wellFormed
  rw [begun, scriptOf?_began (m.turned delta stage).thread?, hthread]
  split
  · rfl
  · rename_i hold
    have hlive : (m.turned delta stage).shared.threads.contains id = true :=
      Arena.contains_of_tenant? (Arena.get?_eq_some_iff.mp hthread)
    have hwas : m.shared.threads.contains id = true := by
      rw [hwf.mem_newcomers_iff] at hold
      simpa [hlive] using hold
    obtain ⟨before, hbefore⟩ := hpending.exists_get? hwas
    obtain ⟨after, hafter, hscript⟩ :=
      hpending.bridges_dusk (bridges_continues wanted m.order) delta stage id before (.inr hbefore)
    rw [has_dusk_iff, hthread] at hafter
    cases hafter
    rw [hscript]
    exact h id before hbefore

theorem recounts_tick (hpending : m.Pending wanted m.shared.requests) (h : m.Recounts log) :
    (m.tick delta stage).value.machine.Recounts (m.events delta stage ++ log) := by
  intro id thread hthread
  have hturned := recounts_turned hpending h delta stage
  rw [events, List.append_assoc, gone, scriptOf?_ended]
  cases hresult : (m.tick delta stage).value.result with
  | error halt =>
    rw [tick_eq_error hresult] at hthread
    exact hturned id thread hthread
  | ok report =>
    rw [(tick_eq_ok hresult).1] at hthread
    have hjoined : (m.joined delta stage).thread? id = some thread :=
      (hpending.turned delta stage).applyRequests.thread?_of_reap hthread
    have hscript := map_applyAll Thread.script script_effect { m.turned delta stage with shared.requests := [] }
      (m.turned delta stage).shared.requests.reverse id
    change ((m.joined delta stage).thread? id).map _ = ((m.turned delta stage).thread? id).map _ at hscript
    rw [hjoined] at hscript
    obtain ⟨before, hbefore, heq⟩ := Option.map_eq_some_iff.mp hscript.symm
    exact (hturned id before hbefore).trans (congrArg some heq)

/-- Everything stays as it has to be in a tick. -/
theorem provided_tick (hpending : m.Pending wanted m.shared.requests) (h : m.shared.Provided) (delta : Single)
    (stage : σ) : (m.tick delta stage).value.machine.shared.Provided := by
  have hturned : (m.turned delta stage).shared.Provided := by
    rw [turned_shared]
    exact (hpending.bridges_dusk (bridges_guarded wanted m.order) delta stage (.idle h)).1
  cases hresult : (m.tick delta stage).value.result with
  | error halt =>
    rw [tick_eq_error hresult]
    exact hturned
  | ok report =>
    have hjoined : (m.joined delta stage).shared.Provided :=
      provided_applyAll (m := { m.turned delta stage with shared.requests := [] }) (hturned.of_eq rfl rfl) _
    rw [(tick_eq_ok hresult).1]
    exact ⟨hjoined.buffers, all_reapFrom hjoined.threads _⟩

end

section

variable {options : MachineOptions} {library : Option ScriptLibrary}

theorem Annals.provided (h : Annals Script.Parsed options library m log) : m.shared.Provided := by
  induction h with
  | create =>
    rw [create_value]
    refine ⟨fun i script hscript => ?_, Arena.all_empty⟩
    simp [Vector.getElem?_replicate] at hscript
  | putScript buffer script hparsed _ hm ih =>
    unfold Machine.putScript at hm
    split at hm
    · rename_i hbuffer
      cases hm
      exact ih.set hbuffer hparsed
    · cases hm
  | loadScript buffer id loaded _ hm ih => exact ih.loadScript (shared_of_loadScript hm)
  | spawn buffer label id _ hm _ ih => exact ih.spawn (shared_of_spawn hm)
  | globals globals _ ih => exact ih.of_eq rfl rfl
  | tick delta stage h ih => exact provided_tick h.reachable.pending ih delta stage

theorem Annals.recounts (h : Annals Script.Parsed options library m log) : m.Recounts log := by
  induction h with
  | create =>
    rw [create_value]
    intro id thread hthread
    have hempty : (Arena.empty : Arena Thread).get? id = some thread := hthread
    rw [Arena.get?_eq, Arena.tenant?_empty] at hempty
    cases hempty
  | putScript buffer script _ _ hm ih =>
    intro id thread hthread
    rw [thread?, threads_putScript hm] at hthread
    exact ih id thread hthread
  | loadScript buffer id loaded _ hm ih =>
    intro id thread hthread
    rw [thread?, threads_loadScript hm] at hthread
    exact ih id thread hthread
  | @spawn m m' log thread buffer label id h hm hthread ih =>
    intro other u hu
    rw [scriptOf?]
    split
    · rename_i heq
      rw [← heq, hthread] at hu
      cases hu
      rfl
    · rename_i hne
      obtain ⟨new, hroom, hid, hshared⟩ := spawn_eq_ok_insert hm
      have hpending := h.reachable.pending
      have hinsert : m.shared.threads.Inserts id new m'.shared.threads := by
        rw [hshared, hid]
        exact hpending.wellFormed.insert (hpending.room hroom) new
      rw [thread?, Arena.get?_eq_some_iff, hinsert.tenant?_eq, if_neg (Ne.symm hne)] at hu
      exact ih other u (Arena.get?_eq_some_iff.mpr hu)
  | globals globals _ ih => exact ih
  | tick delta stage h ih => exact recounts_tick h.reachable.pending ih

/-- Threads are in the code of the scripts that they were started with, between operations and at every boundary of a
tick, the frames of calls are exact, and new threads start at labels of the scripts in buffers. -/
structure KeepsToCode (m : Machine) (log : List ThreadEvent) : Prop where
  between : ∀ id thread, m.thread? id = some thread → ∃ s, scriptOf? id log = some s ∧ thread.Resides s
  scriptOf?_eq : ∀ (σ : Type) [Stage σ] (delta : Single) (stage : σ) (id : ThreadId),
    m.shared.threads.contains id = true → scriptOf? id (m.events delta stage ++ log) = scriptOf? id log
  within : ∀ (σ : Type) [Stage σ] (delta : Single) (stage : σ) (id : ThreadId) (o : TurnOutcome σ),
    m.Boundary delta stage id o → ∀ other thread, (o.moment id).Has other thread →
      ∃ s, scriptOf? other (m.events delta stage ++ log) = some s ∧ thread.Resides s
  frames : ∀ (σ : Type) [Stage σ] (delta : Single) (stage : σ) (id : ThreadId) (o : TurnOutcome σ),
    m.Boundary delta stage id o → o.thread.Stacks o.world (step id o.thread o.world).value.thread.calls
  births : ∀ (σ : Type) [Stage σ] (delta : Single) (stage : σ) (id : ThreadId) (o : TurnOutcome σ),
    m.Boundary delta stage id o → o.world.shared.Bears (step id o.thread o.world).value.world.shared

theorem Annals.keepsToCode (h : Annals Script.Parsed options library m log) : m.KeepsToCode log := by
  have hpending := h.reachable.pending
  have hprovided := h.provided
  constructor
  · intro id thread hthread
    exact ⟨thread.script, h.recounts id thread hthread, (hprovided.threads.get hthread).resides⟩
  · intro σ _ delta stage id hid
    have hwf : (m.turned delta stage).shared.threads.WellFormed := (hpending.turned delta stage).wellFormed
    have hold : id ∉ m.shared.threads.newcomers (m.turned delta stage).shared.threads := by
      rw [hwf.mem_newcomers_iff]
      simp [hid]
    rw [events, List.append_assoc, gone, scriptOf?_ended, begun, scriptOf?_began (m.turned delta stage).thread?,
      if_neg hold]
  · intro σ _ delta stage id o ho other thread hthere
    obtain ⟨hworld, hrunning⟩ :=
      (ho.bridges hpending (bridges_guarded _ m.order)).1 (.idle hprovided)
    obtain ⟨later, hlater, hscript⟩ :=
      (ho.bridges hpending (bridges_continues _ m.order)).2 other thread hthere
    have hconfined : thread.Confined := by
      rcases hthere with hthere | hthere
      · exact hrunning other thread hthere
      · exact hworld.threads.get hthere
    refine ⟨thread.script, ?_, hconfined.resides⟩
    rw [events, List.append_assoc, gone, scriptOf?_ended, ← hscript]
    exact recounts_turned hpending h.recounts delta stage other later (has_dusk_iff.mp hlater)
  · intro σ _ delta stage id o ho
    obtain ⟨hworld, hrunning⟩ :=
      (ho.bridges hpending (bridges_guarded _ m.order)).1 (.idle hprovided)
    exact (stays_step id o.thread o.world).calls (hrunning id o.thread rfl) hworld
  · intro σ _ delta stage id o ho
    exact bears_step id o.thread (ho.consistent hpending)

end

/-- A thread is in a routine of its script when its buffer has long had another script. -/
theorem Annals.keepsToCode_reload :
    let library : ScriptLibrary := fun id => .ok (if id = 1 then
      (Script.build 1 [0, 4, 0x81, 0, 0, 0, 0, 1, 0, 5] [0, 6] []).bytes else (Script.build 2 [0, 0] [] []).bytes)
    let script := Script.build 1 [0, 4, 0x81, 0, 0, 0, 0, 1, 0, 5] [0, 6] []
    let other := Script.build 2 [0, 0] [] []
    let start := (Machine.create {} (some library)).value
    let loaded := (start.putScript 0 script).getD start
    let one := ((loaded.spawn 0 0).toOption.map Prod.snd).getD loaded
    let again := (one.putScript 0 other).getD one
    let m := (again.tick Single.zero Recorder.empty).value.machine
    let log : List ThreadEvent := [.began ⟨1, 0⟩ script]
    ∃ o, m.Boundary Single.zero Recorder.empty ⟨1, 0⟩ o ∧ o.thread.pc = 28 ∧ o.thread.calls.frames = [24] ∧
      again.script? 0 = some other ∧ scriptOf? ⟨1, 0⟩ log = some script ∧ m.KeepsToCode log := by
  intro library script other start loaded one again m log
  have hfirst : (start.loadScript 0 1).value = .ok (true, loaded) := rfl
  have hloaded : Annals Script.Parsed {} (some library) loaded [] := .loadScript 0 1 true .create hfirst
  have hone : Annals Script.Parsed {} (some library) one log := .spawn 0 0 ⟨1, 0⟩ hloaded rfl rfl
  have hsecond : (one.loadScript 0 2).value = .ok (true, again) := rfl
  have hagain : Annals Script.Parsed {} (some library) again log := .loadScript 0 2 true hone hsecond
  have hm : Annals Script.Parsed {} (some library) m log :=
    hagain.tick_of_newcomers [] (by decide +kernel) (by decide +kernel)
  have hlent := (Option.some_get (show (m.shared.threads.checkout ⟨1, 0⟩).isSome = true by decide +kernel)).symm
  have horder : m.order = [] ++ ⟨1, 0⟩ :: [] := by decide +kernel
  exact ⟨_, .intro horder rfl hlent (by decide +kernel) (by decide +kernel) (Nat.zero_le _), by decide +kernel,
    by decide +kernel, rfl, rfl, hm.keepsToCode⟩

end Machine
end NovelEngine
