import NovelEngine.Proofs.Machine.Run
import NovelEngine.Proofs.Machine.Store

/-!
# Budgets and preemption

The ticks of a machine whose one thread is never disturbed do what one tick with all their budgets does. The
thread stands between two ticks exactly where the long tick would have gone on.
-/
namespace NovelEngine

variable {σ : Type}

section

variable [Stage σ]

def turnTrace (delta : Single) (id : ThreadId) (thread : Thread) (world : World σ) : List Executed :=
  if thread.paused then []
  else
    let r := thread.poll delta world.shared.globals (Stage.status world.stage)
    if r.1 then trace id world.shared.options.instructionsPerTick.toNat r.2 world else []

def turnsTrace (delta : Single) : List ThreadId → World σ → List Executed
  | [], _ => []
  | id :: ids, world =>
    match world.shared.threads.checkout id with
    | none => turnsTrace delta ids world
    | some (thread, threads) =>
      let lent : World σ := { world with shared.threads := threads }
      let o := (turn delta id thread lent).value
      let world := { o.world with shared.threads := o.world.shared.threads.checkin id o.thread }
      match o.halt with
      | some _ => turnTrace delta id thread lent
      | none => turnTrace delta id thread lent ++ turnsTrace delta ids world

def Machine.tickTrace (m : Machine) (delta : Single) (stage : σ) : List Executed :=
  turnsTrace delta m.order ⟨m.shared, stage⟩

theorem length_turnTrace (delta : Single) (id : ThreadId) (thread : Thread) (world : World σ) :
    (turnTrace delta id thread world).length = (turn delta id thread world).value.executed := by
  rw [turnTrace, turn_value]
  split
  · rfl
  · dsimp only
    split
    · exact length_trace
    · rfl

theorem length_turnsTrace {delta : Single} {ids : List ThreadId} {world : World σ} {executed faulted : Nat}
    (h : (turns delta ids world).value.result = .ok (executed, faulted)) :
    (turnsTrace delta ids world).length = executed := by
  induction ids generalizing world executed faulted with
  | nil =>
    cases h
    rfl
  | cons id ids ih =>
    rw [turns_cons_value] at h
    rw [turnsTrace]
    cases hc : world.shared.threads.checkout id with
    | none =>
      rw [hc] at h
      exact ih h
    | some p =>
      simp only [hc] at h ⊢
      have hlength := length_turnTrace delta id p.1 { world with shared.threads := p.2 }
      revert h hlength
      generalize (turn delta id p.1 (_ : World σ)).value = o
      intro h hlength
      cases hhalt : o.halt with
      | some halt =>
        rw [hhalt] at h
        cases h
      | none =>
        simp only [hhalt, TurnsOutcome.afterTurn] at h ⊢
        generalize hrest : (turns delta ids (_ : World σ)).value.result = rest at h
        cases rest with
        | error halt => cases h
        | ok counts =>
          cases h
          rw [List.length_append, hlength, ih hrest]

theorem Machine.length_tickTrace {m : Machine} {delta : Single} {stage : σ} {report : TickReport}
    (h : (m.tick delta stage).value.result = .ok report) :
    (m.tickTrace delta stage).length = report.executed := by
  rw [tick_value] at h
  dsimp only at h
  cases hturns : (turns delta m.order ⟨m.shared, stage⟩).value.result with
  | error halt =>
    rw [hturns] at h
    cases h
  | ok counts =>
    rw [hturns] at h
    cases h
    exact length_turnsTrace hturns

end

namespace Machine

def withBudget (m : Machine) (budget : UInt32) : Machine := { m with shared := m.shared.withBudget budget }

/-- What some ticks come to: the sums of what they executed and what faulted, or the halt that stopped
them. -/
structure TicksOutcome (σ : Type) where
  machine : Machine
  stage : σ
  result : Except Halt (Nat × Nat)

def TickOutcome.total (o : TickOutcome σ) : TicksOutcome σ :=
  ⟨o.machine, o.stage, o.result.map fun report => (report.executed, report.faulted)⟩

def TicksOutcome.after (rest : TicksOutcome σ) (counts : Nat × Nat) : TicksOutcome σ :=
  { rest with result := rest.result.map fun c => (counts.1 + c.1, counts.2 + c.2) }

/-- Ticks with the given times between them, up to the first that fails. -/
def ticks [Stage σ] (m : Machine) : List Single → σ → TicksOutcome σ
  | [], stage => ⟨m, stage, .ok (0, 0)⟩
  | delta :: deltas, stage =>
    let o := (m.tick delta stage).value.total
    match o.result with
    | .error _ => o
    | .ok counts => (o.machine.ticks deltas o.stage).after counts

def closed (id : ThreadId) (shared : Shared) (thread : Thread) : Machine :=
  if thread.isTerminated then ⟨{ shared with threads := (shared.threads.remove id).2 }, []⟩
  else ⟨shared, [id]⟩

def returned (id : ThreadId) (o : TurnOutcome σ) : Shared :=
  { o.world.shared with threads := o.world.shared.threads.checkin id o.thread }

/-- What a tick makes of the run of its only thread. -/
def closing (id : ThreadId) (o : TurnOutcome σ) : TicksOutcome σ :=
  match o.halt with
  | some halt => ⟨⟨returned id o, [id]⟩, o.world.stage, .error halt⟩
  | none => ⟨closed id (returned id o) o.thread, o.world.stage, .ok (o.executed, o.faulted)⟩

theorem closed_of_running {id : ThreadId} {shared : Shared} {thread : Thread}
    (h : thread.state = .running) :
    closed id shared thread = ⟨shared, [id]⟩ := by
  rw [closed, Thread.isTerminated, h]
  rfl

theorem closed_of_terminated {id : ThreadId} {shared : Shared} {thread : Thread}
    (h : thread.state = .terminated) :
    closed id shared thread = ⟨{ shared with threads := (shared.threads.remove id).2 }, []⟩ := by
  rw [closed, Thread.isTerminated, h]
  rfl

theorem closed_withBudget (id : ThreadId) (shared : Shared) (thread : Thread) (budget : UInt32) :
    closed id (shared.withBudget budget) thread = (closed id shared thread).withBudget budget := by
  unfold closed
  split <;> rfl

theorem closing_followedBy (id : ThreadId) (o rest : TurnOutcome σ) :
    closing id (o.followedBy rest) = (closing id rest).after (o.executed, o.faulted) := by
  obtain ⟨thread, world, executed, faulted, halt⟩ := rest
  cases halt <;> rfl

theorem closing_withBudget (id : ThreadId) (o : TurnOutcome σ) (budget : UInt32) :
    closing id (o.withBudget budget) =
      { closing id o with machine := (closing id o).machine.withBudget budget } := by
  have hclosed := closed_withBudget id (returned id o) o.thread budget
  obtain ⟨thread, world, executed, faulted, halt⟩ := o
  cases halt with
  | some halt => rfl
  | none =>
    exact congrArg (fun m : Machine => TicksOutcome.mk m world.stage (.ok (executed, faulted))) hclosed

theorem applyRequests_of_nil {m : Machine} (h : m.shared.requests = []) : m.applyRequests.value = m := by
  obtain ⟨⟨options, buffers, library, threads, requests, globals⟩, order⟩ := m
  cases h
  rfl

theorem reap_single {m : Machine} {id : ThreadId} {thread : Thread} (horder : m.order = [id])
    (hget : m.shared.threads.get? id = some thread) :
    m.reap = closed id m.shared thread := by
  obtain ⟨shared, order⟩ := m
  cases horder
  simp only [reap, reapFrom, closed, hget, Option.map_some, Option.getD_some]
  cases thread.isTerminated <;> rfl

/-- A machine whose only thread is ready to run, with that thread lent out. -/
structure Solo (m : Machine) (id : ThreadId) (thread : Thread) (lent : Arena Thread) : Prop where
  order_eq : m.order = [id]
  requests_eq : m.shared.requests = []
  checkout_eq : m.shared.threads.checkout id = some (thread, lent)
  state_eq : thread.state = .running
  paused_eq : thread.paused = false

def lending (m : Machine) (lent : Arena Thread) (stage : σ) : World σ :=
  ⟨{ m.shared with threads := lent }, stage⟩

namespace Solo

variable {m : Machine} {id : ThreadId} {thread : Thread} {lent : Arena Thread}

theorem next {stage : σ} (h : m.Solo id thread lent) {o : TurnOutcome σ}
    (hpool : o.world.shared.pool = (m.lending lent stage).shared.pool) (hopen : o.Unfinished) :
    Solo ⟨returned id o, [id]⟩ id o.thread lent where
  order_eq := rfl
  requests_eq := (congrArg Pool.requests hpool).trans h.requests_eq
  checkout_eq := by
    have hthreads : o.world.shared.threads = lent := congrArg Pool.threads hpool
    rw [returned, hthreads]
    exact Arena.checkout_checkin h.checkout_eq o.thread
  state_eq := hopen.state_eq
  paused_eq := hopen.paused_eq

theorem withBudget (h : m.Solo id thread lent) (b : UInt32) : (m.withBudget b).Solo id thread lent :=
  ⟨h.order_eq, h.requests_eq, h.checkout_eq, h.state_eq, h.paused_eq⟩

end Solo

variable [Stage σ]

theorem ticks_of_nil {m : Machine} (horder : m.order = []) (hrequests : m.shared.requests = [])
    (deltas : List Single) (stage : σ) : m.ticks deltas stage = ⟨m, stage, .ok (0, 0)⟩ := by
  induction deltas with
  | nil => rfl
  | cons delta deltas ih =>
    have htick : (m.tick delta stage).value.total = ⟨m, stage, .ok (0, 0)⟩ := by
      have hreap : m.reap = m := by
        obtain ⟨shared, order⟩ := m
        cases horder
        rfl
      have hturns : (turns delta m.order ⟨m.shared, stage⟩).value = ⟨⟨m.shared, stage⟩, .ok (0, 0)⟩ := by
        rw [horder]
        rfl
      rw [tick_value, hturns]
      simp only [applyRequests_of_nil hrequests, hreap]
      rfl
    rw [ticks, htick]
    simp only [ih]
    rfl

namespace Solo

variable {m : Machine} {id : ThreadId} {thread : Thread} {lent : Arena Thread} {delta : Single} {stage : σ}

theorem turn_eq (h : m.Solo id thread lent) :
    (turn delta id thread (m.lending lent stage)).value =
      (runFor id m.shared.options.instructionsPerTick.toNat thread (m.lending lent stage)).value := by
  rw [turn_value, h.paused_eq, Thread.poll, h.state_eq]
  rfl

theorem tickTrace_eq (h : m.Solo id thread lent) :
    m.tickTrace delta stage =
      trace id m.shared.options.instructionsPerTick.toNat thread (m.lending lent stage) := by
  have hturn : turnTrace delta id thread (m.lending lent stage) =
      trace id m.shared.options.instructionsPerTick.toNat thread (m.lending lent stage) := by
    rw [turnTrace, h.paused_eq, Thread.poll, h.state_eq]
    rfl
  rw [tickTrace, h.order_eq, turnsTrace, h.checkout_eq]
  dsimp only
  rw [← hturn]
  split
  · rfl
  · exact List.append_nil _

theorem tick_eq (h : m.Solo id thread lent)
    (hsteady : Steady id m.shared.options.instructionsPerTick.toNat thread (m.lending lent stage)) :
    (m.tick delta stage).value.total = closing id
      (runFor id m.shared.options.instructionsPerTick.toNat thread (m.lending lent stage)).value := by
  have hpool := hsteady.pool_eq
  have hturns : (turns delta m.order ⟨m.shared, stage⟩).value =
      let o := (runFor id m.shared.options.instructionsPerTick.toNat thread (m.lending lent stage)).value
      let world := { o.world with shared.threads := o.world.shared.threads.checkin id o.thread }
      match o.halt with
      | some halt => ⟨world, .error halt⟩
      | none => ⟨world, .ok (o.executed, o.faulted)⟩ := by
    have hturn : (turn delta id thread (m.lending lent stage)).value = _ := h.turn_eq
    rw [h.order_eq, turns_cons_value, h.checkout_eq, ← hturn]
    rfl
  rw [tick_value, hturns]
  revert hpool
  generalize (runFor id _ thread (m.lending lent stage)).value = o
  intro hpool
  have hthreads : o.world.shared.threads = lent := congrArg Pool.threads hpool
  have hrequests : o.world.shared.requests = [] := (congrArg Pool.requests hpool).trans h.requests_eq
  cases hhalt : o.halt with
  | some halt =>
    simp only [closing, hhalt, h.order_eq]
    rfl
  | none =>
    have hget : (o.world.shared.threads.checkin id o.thread).get? id = some o.thread := by
      rw [hthreads]
      exact Arena.get?_of_checkout (Arena.checkout_checkin h.checkout_eq o.thread)
    simp only [closing, hhalt, h.order_eq]
    rw [applyRequests_of_nil (by exact hrequests), reap_single rfl hget]
    rfl

/-- Steady ticks of a machine with one thread are the run of that thread with all the budgets. -/
theorem ticks_eq (h : m.Solo id thread lent) {deltas : List Single}
    (hsteady : Steady id (deltas.length * m.shared.options.instructionsPerTick.toNat) thread
      (m.lending lent stage)) :
    m.ticks deltas stage = closing id (runFor id
      (deltas.length * m.shared.options.instructionsPerTick.toNat) thread (m.lending lent stage)).value := by
  generalize hb : m.shared.options.instructionsPerTick = b at hsteady ⊢
  -- The induction is on the ticks. What carries it is that after each of them the thread can be lent again
  -- and leaves the same arena behind.
  induction deltas generalizing m thread stage with
  | nil =>
    rw [List.length_nil, Nat.zero_mul, runFor_zero_value]
    have hcheckin : lent.checkin id thread = m.shared.threads := Arena.checkin_of_checkout h.checkout_eq
    have hreturned : returned id ⟨thread, m.lending lent stage, 0, 0, none⟩ = m.shared := by
      show ({ m.shared with threads := lent.checkin id thread } : Shared) = m.shared
      rw [hcheckin]
    simp only [closing, closed_of_running h.state_eq, hreturned, ← h.order_eq]
    rfl
  | cons delta deltas ih =>
    have hlength : (delta :: deltas).length * b.toNat = b.toNat + deltas.length * b.toNat := by
      rw [List.length_cons, Nat.succ_mul, Nat.add_comm]
    rw [hlength] at hsteady ⊢
    -- The first tick is the first part of the long run.
    have hfirst := hsteady.of_add
    have htick : (m.tick delta stage).value.total =
        closing id (runFor id b.toNat thread (m.lending lent stage)).value := by
      subst hb
      exact h.tick_eq hfirst
    have hpool := hfirst.pool_eq
    have hbudget : (runFor id b.toNat thread (m.lending lent stage)).value =
        (runFor id b.toNat thread (m.lending lent stage)).value.withBudget b := by
      subst hb
      exact hfirst.withBudget _
    rw [ticks, htick]
    have hcut := hsteady.cut h.state_eq h.paused_eq
    revert hpool hbudget hcut
    generalize (runFor id b.toNat thread (m.lending lent stage)).value = o
    intro hpool hbudget hcut
    rcases hcut with ⟨hopen, hrest, hrun⟩ | ⟨hover, hrun⟩
    · have hworld : lending ⟨returned id o, [id]⟩ lent o.world.stage = o.world := by
        rw [lending, ← show o.world.shared.threads = lent from congrArg Pool.threads hpool]
        rfl
      have hnext := ih (h.next hpool hopen)
        (congrArg (fun o : TurnOutcome σ => o.world.shared.options.instructionsPerTick) hbudget)
        (by rw [hworld]; exact hrest)
      rw [hworld] at hnext
      rw [hrun, closing_followedBy, ← hnext]
      simp only [closing, hopen.halt_eq, closed_of_running hopen.state_eq]
    · -- The long run ended in the first tick; the other ticks find no thread or are never taken.
      rw [hrun]
      cases hhalt : o.halt with
      | some halt => simp only [closing, hhalt]
      | none =>
        have hstate : o.thread.state = .terminated := by
          rcases hover with hover | hstate
          · rw [hhalt] at hover
            cases hover
          · exact hstate
        have hrequests : o.world.shared.requests = [] := (congrArg Pool.requests hpool).trans h.requests_eq
        simp only [closing, hhalt, closed_of_terminated hstate]
        rw [ticks_of_nil rfl hrequests]
        rfl

end Solo

/-- Whether a thread is the only one, ready to run, with nothing asked to be done to it. -/
structure Alone (m : Machine) (id : ThreadId) (thread : Thread) : Prop where
  only : ∀ other, m.shared.threads.contains other = true → other = id
  thread_eq : m.thread? id = some thread
  state_eq : thread.state = .running
  paused_eq : thread.paused = false
  requests_eq : m.shared.requests = []

variable {options : MachineOptions} {library : Option ScriptLibrary} {m : Machine} {id : ThreadId}
  {thread : Thread}

theorem Reachable.exists_solo (h : Reachable options library m) (halone : m.Alone id thread) :
    ∃ lent, m.Solo id thread lent := by
  obtain ⟨lent, hcheckout⟩ := Arena.exists_checkout halone.thread_eq
  have hstore := h.pending.store
  have hmem : ∀ other, other ∈ m.order ↔ other ∈ [id] := by
    intro other
    have hlive := hstore.live_iff other
    rw [halone.requests_eq, or_iff_left List.not_mem_nil] at hlive
    rw [← hlive, List.mem_singleton]
    constructor
    · exact halone.only other
    · rintro rfl
      exact Arena.contains_of_tenant? (Arena.get?_eq_some_iff.mp halone.thread_eq)
  have horder : m.order = [id] :=
    List.perm_singleton.mp ((List.perm_ext_iff_of_nodup hstore.order_nodup (by simp)).mpr hmem)
  exact ⟨lent, horder, halone.requests_eq, hcheckout, halone.state_eq, halone.paused_eq⟩

/-- Ticks with a budget do the same as one tick with all their budgets, if the thread is alone and nothing
that the long tick executes disturbs it. -/
theorem Reachable.ticks_eq_tick (h : Reachable options library m) (halone : m.Alone id thread)
    (deltas : List Single) (budget : UInt32) (hbound : deltas.length * budget.toNat < 4294967296)
    (delta : Single) (stage : σ)
    (hcalm : ∀ e ∈ (m.withBudget (UInt32.ofNat (deltas.length * budget.toNat))).tickTrace delta stage,
      e.Undisturbing) :
    let short := (m.withBudget budget).ticks deltas stage
    let long := ((m.withBudget (UInt32.ofNat (deltas.length * budget.toNat))).tick delta stage).value
    short.machine = long.machine.withBudget budget ∧ short.stage = long.stage ∧
      short.result = long.result.map fun report => (report.executed, report.faulted) := by
  obtain ⟨lent, hsolo⟩ := h.exists_solo halone
  have htotal : (UInt32.ofNat (deltas.length * budget.toNat)).toNat = deltas.length * budget.toNat :=
    UInt32.toNat_ofNat_of_lt' hbound
  revert htotal hcalm
  generalize UInt32.ofNat (deltas.length * budget.toNat) = total
  intro hcalm htotal short long
  rw [(hsolo.withBudget total).tickTrace_eq] at hcalm
  have hsteady := Steady.of_trace hcalm
  have hlong : long.total = closing id
      (runFor id total.toNat thread ((m.withBudget total).lending lent stage)).value :=
    (hsolo.withBudget total).tick_eq hsteady
  have hshort : short = closing id
      (runFor id total.toNat thread ((m.withBudget budget).lending lent stage)).value := by
    have hsteady' := hsteady.inBudget budget
    revert hsteady'
    rw [show (m.withBudget total).shared.options.instructionsPerTick.toNat = total.toNat from rfl, htotal]
    exact (hsolo.withBudget budget).ticks_eq
  have hrun : (runFor id total.toNat thread ((m.withBudget budget).lending lent stage)).value =
      (runFor id total.toNat thread ((m.withBudget total).lending lent stage)).value.withBudget budget :=
    hsteady.withBudget budget
  rw [hrun, closing_withBudget, ← hlong] at hshort
  rw [hshort]
  exact ⟨rfl, rfl, rfl⟩

/-- A script of four instructions, the last one its `End`, in two ticks of two and in one tick of four. -/
theorem Reachable.ticks_eq_tick_release :
    let start := (Machine.create {} none).value
    let script := Script.build 1 [1, 1, 2, 4, 1, 1, 0, 0] [] []
    let loaded := (start.putScript 0 script).getD start
    let m := ((loaded.spawn 0 0).toOption.map Prod.snd).getD loaded
    let short := (m.withBudget 2).ticks [Single.zero, Single.zero] Recorder.empty
    let long := ((m.withBudget 4).tick Single.zero Recorder.empty).value
    Reachable {} none m ∧ m.Alone ⟨1, 0⟩ (Thread.start script 0 16) ∧ long.result = .ok ⟨4, 0, 0⟩ ∧
      long.stage.intents = [.release .background, .release .background] ∧
      short.machine = long.machine.withBudget 2 ∧ short.stage = long.stage ∧ short.result = .ok (4, 0) := by
  intro start script loaded m short long
  have hloaded : Reachable {} none loaded := .putScript 0 script .create rfl
  have hm : Reachable {} none m := .spawn 0 0 ⟨1, 0⟩ hloaded rfl
  have hthread : m.thread? ⟨1, 0⟩ = some (Thread.start script 0 16) := by rfl
  have halone : m.Alone ⟨1, 0⟩ (Thread.start script 0 16) := by
    refine ⟨fun other hother => ?_, hthread, rfl, rfl, rfl⟩
    have hlive := (hm.pending.store.live_iff other).mp hother
    rw [show m.order = [⟨1, 0⟩] from rfl, show m.shared.requests = [] from rfl] at hlive
    simpa using hlive
  have htrace : (m.withBudget 4).tickTrace Single.zero Recorder.empty =
      [⟨.backgroundRelease, .went .next⟩, ⟨.empty0204, .went .next⟩, ⟨.backgroundRelease, .went .next⟩,
        ⟨.exit, .went .exit⟩] := by decide +kernel
  have hcalm : ∀ e ∈ (m.withBudget 4).tickTrace Single.zero Recorder.empty, e.Undisturbing := by
    rw [htrace]
    intro e he
    simp only [List.mem_cons, List.not_mem_nil, or_false] at he
    rcases he with rfl | rfl | rfl | rfl <;> exact ⟨rfl, nofun, nofun, nofun⟩
  have hresult : long.result = .ok ⟨4, 0, 0⟩ := by rfl
  have hintents : long.stage.intents = [.release .background, .release .background] := by rfl
  have hsame := hm.ticks_eq_tick halone [Single.zero, Single.zero] 2 (by decide) Single.zero Recorder.empty
  rw [show UInt32.ofNat ([Single.zero, Single.zero].length * (2 : UInt32).toNat) = 4 from rfl] at hsame
  obtain ⟨hmachine, hstage, hcounts⟩ := hsame hcalm
  rw [show Except.map _ _ = Except.ok (4, 0) from congrArg (Except.map _) hresult] at hcounts
  exact ⟨hm, halone, hresult, hintents, hmachine, hstage, hcounts⟩

end Machine
end NovelEngine
