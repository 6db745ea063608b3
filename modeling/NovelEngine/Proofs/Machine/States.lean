import Mathlib.Data.List.Basic
import NovelEngine.Proofs.Machine.Blocking
import NovelEngine.Proofs.Machine.Isolation

/-!
# The states of threads in a tick

A thread that cannot run at its turn is left as it is. One that waits looks at its condition there and nowhere else.
What is asked to be done to threads ends some and wakes some of the suspended ones, and it does nothing else to states.
-/
namespace NovelEngine

/-- What becomes of a state that is not left: time passes for timers. -/
inductive ThreadState.Lapses : ThreadState → ThreadState → Prop
  | refl (s : ThreadState) : Lapses s s
  | timer (remaining later : Single) : Lapses (.waiting (.timer remaining)) (.waiting (.timer later))

namespace ThreadState

variable {s s' s'' : ThreadState}

theorem Lapses.trans (h : s.Lapses s') (h' : s'.Lapses s'') : s.Lapses s'' := by
  cases h with
  | refl => exact h'
  | timer remaining later =>
    cases h' with
    | refl => exact .timer _ _
    | timer _ later' => exact .timer _ _

theorem Lapses.isStopped_eq (h : s.Lapses s') : s'.isStopped = s.isStopped := by
  cases h <;> rfl

theorem Lapses.eq_signal {flag : UInt32} (h : s.Lapses (.waiting (.signal flag))) : s = .waiting (.signal flag) := by
  cases h
  rfl

end ThreadState

theorem Globals.lt_of_flag {globals : Globals} {n : Nat} {set : Bool} (h : globals.flag n = .ok set) :
    n < flagCount := by
  apply Decidable.byContradiction
  intro hlt
  rw [Globals.flag, Bank.place_of_not_lt hlt] at h
  cases h

def WaitCondition.Met (delta : Single) (globals : Globals) (status : SlotKey → LoadStatus) : WaitCondition → Prop
  | timer remaining => remaining - delta ≤ Single.zero
  | signal flag => globals.flag flag.toNat = .ok true
  | resource slot => status slot ≠ .loading

namespace Thread

variable {t : Thread} {delta : Single} {globals : Globals} {status : SlotKey → LoadStatus} {condition : WaitCondition}

/-- If the thread waits for a flag, that flag is there. -/
def Wakeable (t : Thread) : Prop := ∀ flag, t.state = .waiting (.signal flag) → flag.toNat < flagCount

/-- The thread cannot run at a turn that finds the flags and slots like this. -/
inductive Blocked (t : Thread) (globals : Globals) (status : SlotKey → LoadStatus) : Prop
  | paused (h : t.paused = true)
  | suspended (h : t.state = .suspended)
  | terminated (h : t.state = .terminated)
  | signal {flag : UInt32} (h : t.state = .waiting (.signal flag)) (hflag : globals.flag flag.toNat = .ok false)
  | resource {slot : SlotKey} (h : t.state = .waiting (.resource slot)) (hslot : status slot = .loading)

theorem Blocked.poll_eq (h : t.Blocked globals status) (hpaused : t.paused = false) :
    t.poll delta globals status = (false, t) := by
  cases h with
  | paused h =>
    rw [hpaused] at h
    cases h
  | suspended h | terminated h => simp [poll, h]
  | signal h hflag => simp [poll, h, hflag, Except.toOption]
  | resource h hslot => simp [poll, h, hslot, LoadStatus.isSettled]

theorem with_state_eq {state : ThreadState} (h : t.state = state) : { t with state } = t := by
  cases t
  cases h
  rfl

/-- What looking at a thread comes to: it is set running, with another result at most, or nothing but time passes. -/
inductive Polled (t : Thread) : Bool × Thread → Prop
  | runs (result : Int32) (hstate : t.state = .running ∨ ∃ condition, t.state = .waiting condition) :
    Polled t (true, { t with state := .running, result })
  | rests {state : ThreadState} (hlapse : t.state.Lapses state) (hstate : state ≠ .running) :
    Polled t (false, { t with state })

theorem polled_poll (t : Thread) (delta : Single) (globals : Globals) (status : SlotKey → LoadStatus) :
    t.Polled (t.poll delta globals status) := by
  unfold poll
  cases hstate : t.state with
  | running =>
    have hruns := Polled.runs (t := t) t.result (.inl hstate)
    rwa [with_state_eq hstate] at hruns
  | suspended | terminated =>
    have hrests := Polled.rests (t := t) (.refl _) (by simp [hstate])
    exact hrests
  | waiting condition =>
    have hwaiting : ∃ condition, t.state = .waiting condition := ⟨condition, hstate⟩
    have hrests := Polled.rests (t := t) (.refl _) (by simp [hstate])
    cases condition with
    | timer remaining =>
      dsimp only
      split
      · exact .runs t.result (.inr hwaiting)
      · exact .rests (hstate ▸ .timer _ _) (by simp)
    | signal flag =>
      dsimp only
      split
      · exact .runs t.result (.inr hwaiting)
      · exact hrests
    | resource slot =>
      dsimp only
      split
      · exact .runs _ (.inr hwaiting)
      · exact hrests

theorem poll_eq_true_iff (hwaiting : t.state = .waiting condition) (hwakeable : t.Wakeable) :
    (t.poll delta globals status).1 = true ↔ condition.Met delta globals status := by
  have hpoll (p : Prop) [Decidable p] (a b : Thread) : (if p then (true, a) else (false, b)).1 = true ↔ p := by
    split <;> simp [*]
  unfold poll
  rw [hwaiting]
  cases condition with
  | timer remaining => exact hpoll _ _ _
  | signal flag =>
    have hflag : globals.flag flag.toNat = .ok (globals.flagAt ⟨flag.toNat, hwakeable flag hwaiting⟩) := by
      rw [Globals.flag, Bank.place_of_lt (hwakeable flag hwaiting)]
      rfl
    apply (hpoll _ _ _).trans
    rw [WaitCondition.Met, hflag]
    simp [Except.toOption]
  | resource slot =>
    apply (hpoll _ _ _).trans
    simp [WaitCondition.Met, LoadStatus.isSettled]

end Thread

section

variable {σ : Type} [Stage σ] {thread : Thread} {world : World σ}

theorem turn_of_paused (delta : Single) (id : ThreadId) (world : World σ) (h : thread.paused = true) :
    (turn delta id thread world).value = ⟨thread, world, 0, 0, none⟩ := by
  rw [turn_value, if_pos h]

theorem turn_of_not_paused (delta : Single) (id : ThreadId) (world : World σ) (h : thread.paused = false) :
    (turn delta id thread world).value =
      let r := thread.poll delta world.shared.globals (Stage.status world.stage)
      if r.1 then (runFor id world.shared.options.instructionsPerTick.toNat r.2 world).value
      else ⟨r.2, world, 0, 0, none⟩ := by
  rw [turn_value, if_neg (by simp [h])]

theorem turn_of_blocked (delta : Single) (id : ThreadId)
    (h : thread.Blocked world.shared.globals (Stage.status world.stage)) :
    (turn delta id thread world).value = ⟨thread, world, 0, 0, none⟩ := by
  cases hpaused : thread.paused with
  | true => exact turn_of_paused delta id world hpaused
  | false =>
    rw [turn_of_not_paused delta id world hpaused, h.poll_eq hpaused]
    rfl

end

namespace Machine

variable {σ : Type} [Stage σ] {m : Machine} {delta : Single} {stage : σ} {id : ThreadId} {thread t : Thread}
  {world : World σ} {o b : TurnOutcome σ} {wanted : Nat}

theorem Takes.unique {world' : World σ} {thread' : Thread} {o' : TurnOutcome σ}
    (ho : m.Takes delta stage id world thread o) (ho' : m.Takes delta stage id world' thread' o')
    (h : m.Pending wanted m.shared.requests) : world' = world ∧ thread' = thread ∧ o' = o := by
  obtain @⟨before, rest, w, counts, thread, threads, horder, hbefore, hlent⟩ := ho
  obtain @⟨before', rest', w', counts', thread', threads', horder', hbefore', hlent'⟩ := ho'
  obtain ⟨hfirst, hlast⟩ := h.not_mem_of_order horder
  obtain ⟨rfl, -, -⟩ := (List.append_cons_inj_of_notMem hfirst hlast).mp (horder.symm.trans horder')
  cases hbefore'.symm.trans hbefore
  cases hlent'.symm.trans hlent
  exact ⟨rfl, rfl, rfl⟩

theorem Boundary.exists_takes (hb : m.Boundary delta stage id b) : ∃ world thread threads o executed,
    m.Takes delta stage id world thread o ∧ world.shared.threads.checkout id = some (thread, threads) ∧
      thread.paused = false ∧ (thread.poll delta world.shared.globals (Stage.status world.stage)).1 = true ∧
      executed ≤ world.shared.options.instructionsPerTick.toNat ∧
      b = (runFor id executed (thread.poll delta world.shared.globals (Stage.status world.stage)).2
        (world.lending threads)).value := by
  obtain ⟨horder, hbefore, hlent, hpaused, hpolled, hexecuted⟩ := hb
  exact ⟨_, _, _, _, _, .intro horder hbefore hlent, hlent, hpaused, hpolled, hexecuted, rfl⟩

/-- The turn of a thread comes to this: either it cannot run, or it runs with all the budget. -/
inductive Fares (m : Machine) (delta : Single) (stage : σ) (id : ThreadId) (world : World σ) (thread : Thread) :
    TurnOutcome σ → Prop
  | rests {state : ThreadState} {threads : Arena Thread}
      (hlent : world.shared.threads.checkout id = some (thread, threads)) (hlapse : thread.state.Lapses state)
      (hnone : ∀ b, ¬ m.Boundary delta stage id b) :
      Fares m delta stage id world thread ⟨{ thread with state }, world.lending threads, 0, 0, none⟩
  | runs {result : Int32} {threads : Arena Thread}
      (hlent : world.shared.threads.checkout id = some (thread, threads)) (hpaused : thread.paused = false)
      (hpolled : thread.poll delta world.shared.globals (Stage.status world.stage) =
        (true, { thread with state := .running, result }))
      (hboundary : ∀ executed ≤ world.shared.options.instructionsPerTick.toNat, m.Boundary delta stage id
        (runFor id executed { thread with state := .running, result } (world.lending threads)).value) :
      Fares m delta stage id world thread (runFor id world.shared.options.instructionsPerTick.toNat
        { thread with state := .running, result } (world.lending threads)).value

/-- A thread comes to run at its turn exactly if it is not paused and has nothing to wait for. -/
theorem Takes.exists_boundary_iff (ho : m.Takes delta stage id world thread o)
    (h : m.Pending wanted m.shared.requests) : (∃ b, m.Boundary delta stage id b) ↔
      thread.paused = false ∧ (thread.poll delta world.shared.globals (Stage.status world.stage)).1 = true := by
  constructor
  · rintro ⟨b, hb⟩
    obtain ⟨world', thread', threads, o', executed, ho', -, hpaused, hpolled, -⟩ := hb.exists_takes
    obtain ⟨rfl, rfl, -⟩ := ho.unique ho' h
    exact ⟨hpaused, hpolled⟩
  · rintro ⟨hpaused, hpolled⟩
    obtain ⟨horder, hbefore, hlent⟩ := ho
    exact ⟨_, .intro horder hbefore hlent hpaused hpolled (Nat.zero_le _)⟩

theorem Takes.fares (ho : m.Takes delta stage id world thread o) (h : m.Pending wanted m.shared.requests) :
    m.Fares delta stage id world thread o := by
  have hmay := ho.exists_boundary_iff h
  obtain @⟨before, rest, w, counts, thread, threads, horder, hbefore, hlent⟩ := ho
  cases hpaused : thread.paused with
  | true =>
    rw [turn_of_paused delta id _ hpaused]
    simp only [hpaused, Bool.true_eq_false, false_and, iff_false, not_exists] at hmay
    exact .rests hlent (.refl _) hmay
  | false =>
    have hturn : (turn delta id thread (world.lending threads)).value =
        let r := thread.poll delta world.shared.globals (Stage.status world.stage)
        if r.1 then (runFor id world.shared.options.instructionsPerTick.toNat r.2 (world.lending threads)).value
        else ⟨r.2, world.lending threads, 0, 0, none⟩ := turn_of_not_paused delta id _ hpaused
    have hpolled := thread.polled_poll delta world.shared.globals (Stage.status world.stage)
    have hboundary (executed : Nat) (hle : executed ≤ world.shared.options.instructionsPerTick.toNat)
        (hmay : (thread.poll delta world.shared.globals (Stage.status world.stage)).1 = true) :
        m.Boundary delta stage id (runFor id executed
          (thread.poll delta world.shared.globals (Stage.status world.stage)).2 (world.lending threads)).value :=
      .intro horder hbefore hlent hpaused hmay hle
    rw [hturn]
    revert hmay hpolled hboundary
    generalize hr : thread.poll delta world.shared.globals (Stage.status world.stage) = r
    intro hmay hpolled hboundary
    cases hpolled with
    | runs result hstate => exact .runs hlent hpaused hr fun executed hle => hboundary executed hle rfl
    | rests hlapse hstate =>
      simp only [Bool.false_eq_true, and_false, iff_false, not_exists] at hmay
      exact .rests hlent hlapse hmay

end Machine

/-- What a request does to the state of a thread, when handles resolve in these threads. -/
inductive LifecycleRequest.Moves (threads : Arena Thread) (id : ThreadId) :
    LifecycleRequest → ThreadState → ThreadState → Prop
  | stays (r : LifecycleRequest) (state : ThreadState) : Moves threads id r state state
  | ends {handle : Int32} (hhandle : threads.resolve handle = some id) (state : ThreadState) :
    Moves threads id (.kill handle) state .terminated
  | wakes {handle : Int32} (hhandle : threads.resolve handle = some id) :
    Moves threads id (.resume handle) .suspended .running

namespace Machine

variable {m : Machine} {id : ThreadId} {t u : Thread} {rs : List LifecycleRequest} {wanted : Nat}

theorem moves_applyRequest (r : LifecycleRequest) (ht : m.thread? id = some t) :
    ∃ t', (m.applyRequest r).value.thread? id = some t' ∧ t'.core = t.core ∧
      r.Moves m.shared.threads id t.state t'.state := by
  cases hhandle : r.handle? with
  | none =>
    cases r with
    | kill handle | pause handle | resume handle => cases hhandle
    | spawn other =>
      refine ⟨t, ?_, rfl, .stays _ _⟩
      show (if m.shared.threads.contains other then { m with order := m.order ++ [other] } else m).thread? id = _
      split <;> exact ht
  | some handle =>
    have hafter := thread?_applyRequest (m := m) hhandle id
    by_cases hresolve : m.shared.threads.resolve handle = some id
    · rw [if_pos hresolve, ht] at hafter
      refine ⟨r.effect t, hafter, Thread.core_effect r t, ?_⟩
      cases r with
      | spawn other => cases hhandle
      | kill handle' =>
        cases hhandle
        exact .ends hresolve _
      | pause handle' => exact .stays _ _
      | resume handle' =>
        cases hhandle
        by_cases hsuspended : t.state = .suspended
        · have hrunning : ((LifecycleRequest.resume handle).effect t).state = .running := if_pos hsuspended
          rw [hrunning, hsuspended]
          exact .wakes hresolve
        · have hstate : ((LifecycleRequest.resume handle).effect t).state = t.state := if_neg hsuspended
          rw [hstate]
          exact .stays _ _
    · rw [if_neg hresolve, ht] at hafter
      exact ⟨t, hafter, rfl, .stays _ _⟩

def Wakes (m : Machine) (rs : List LifecycleRequest) (id : ThreadId) : Prop :=
  ∃ before handle after, rs = before ++ .resume handle :: after ∧
    (m.applyAll before).value.shared.threads.resolve handle = some id

theorem Wakes.cons (r : LifecycleRequest) (h : (m.applyRequest r).value.Wakes rs id) : m.Wakes (r :: rs) id := by
  obtain ⟨before, handle, after, rfl, hresolve⟩ := h
  exact ⟨r :: before, handle, after, rfl, hresolve⟩

theorem moves_applyAll (rs : List LifecycleRequest) (ht : m.thread? id = some t) :
    ∃ t', (m.applyAll rs).value.thread? id = some t' ∧ t'.core = t.core ∧
      (t'.state = t.state ∨ t'.state = .terminated ∨
        (t.state = .suspended ∧ t'.state = .running ∧ m.Wakes rs id)) := by
  induction rs generalizing m t with
  | nil => exact ⟨t, ht, rfl, .inl rfl⟩
  | cons r rs ih =>
    obtain ⟨t₁, ht₁, hcore₁, hmoves⟩ := moves_applyRequest r ht
    obtain ⟨t', ht', hcore', hstate⟩ := ih ht₁
    refine ⟨t', ht', hcore'.trans hcore₁, ?_⟩
    generalize ht₀ : t.state = s at hmoves ⊢
    generalize t₁.state = s₁ at hmoves hstate
    cases hmoves with
    | stays =>
      rcases hstate with hsame | hended | ⟨hsuspended, hrunning, hwakes⟩
      · exact .inl hsame
      · exact .inr (.inl hended)
      · exact .inr (.inr ⟨hsuspended, hrunning, hwakes.cons r⟩)
    | ends hresolve =>
      rcases hstate with hsame | hended | ⟨hsuspended, -, -⟩
      · exact .inr (.inl hsame)
      · exact .inr (.inl hended)
      · cases hsuspended
    | wakes hresolve =>
      rcases hstate with hsame | hended | ⟨hsuspended, -, -⟩
      · exact .inr (.inr ⟨rfl, hsame, [], _, rs, rfl, hresolve⟩)
      · exact .inr (.inl hended)
      · cases hsuspended

section

variable {σ : Type} [Stage σ] {delta : Single} {stage : σ} {report : TickReport}

/-- The request to resume the thread is among those of the tick, and the handle stands for the thread then. -/
def Resumes (m : Machine) (delta : Single) (stage : σ) (id : ThreadId) : Prop :=
  ∃ handle asked, .resume handle :: asked <:+ (m.turned delta stage).shared.requests ∧
    ((m.turned delta stage).serving asked).shared.threads.resolve handle = some id

theorem resumes_of_wakes (h : Wakes { m.turned delta stage with shared.requests := [] }
    (m.turned delta stage).shared.requests.reverse id) : m.Resumes delta stage id := by
  obtain ⟨before, handle, after, hrequests, hresolve⟩ := h
  refine ⟨handle, before.reverse, ⟨after.reverse, ?_⟩, ?_⟩
  · have hall := congrArg List.reverse hrequests
    simpa using hall.symm
  · rwa [serving, List.reverse_reverse]

theorem Pending.tick_thread?_cases (h : m.Pending wanted m.shared.requests)
    (ht : (m.tick delta stage).value.machine.thread? id = some t) :
    (∃ halt, (m.tick delta stage).value.result = .error halt ∧ (m.turned delta stage).thread? id = some t) ∨
    ∃ report, (m.tick delta stage).value.result = .ok report ∧ (m.joined delta stage).thread? id = some t ∧
      t.state ≠ .terminated := by
  cases hresult : (m.tick delta stage).value.result with
  | error halt =>
    rw [tick_eq_error hresult] at ht
    exact .inl ⟨halt, rfl, ht⟩
  | ok report =>
    have hsettled := (tick_books h delta stage).2 report hresult
    have hlive : (m.tick delta stage).value.machine.shared.threads.contains id = true :=
      Arena.contains_of_tenant? (Arena.get?_eq_some_iff.mp ht)
    obtain ⟨t', ht', hstate⟩ := hsettled.unended id ((hsettled.live_iff id).mp hlive)
    cases ht.symm.trans ht'
    rw [(tick_eq_ok hresult).1] at ht
    exact .inr ⟨report, rfl, (h.turned delta stage).applyRequests.thread?_of_reap ht, hstate⟩

theorem Pending.exists_turned (h : m.Pending wanted m.shared.requests)
    (ht : (m.tick delta stage).value.machine.thread? id = some t) :
    ∃ u, (m.turned delta stage).thread? id = some u := by
  rcases h.tick_thread?_cases ht with ⟨halt, -, hturned⟩ | ⟨report, -, hjoined, -⟩
  · exact ⟨t, hturned⟩
  · have hthere := isSome_thread?_applyAll { m.turned delta stage with shared.requests := [] }
      (m.turned delta stage).shared.requests.reverse id
    exact Option.isSome_iff_exists.mp (hthere.symm.trans (Option.isSome_iff_exists.mpr ⟨t, hjoined⟩))

/-- What becomes of a thread from the end of the turns to the end of the tick, if it stays. -/
theorem Pending.state_tick (h : m.Pending wanted m.shared.requests) (hu : (m.turned delta stage).thread? id = some u)
    (ht : (m.tick delta stage).value.machine.thread? id = some t) :
    t.core = u.core ∧ (t.state = u.state ∨ (u.state = .suspended ∧ t.state = .running ∧
      (∃ report, (m.tick delta stage).value.result = .ok report) ∧ m.Resumes delta stage id)) := by
  rcases h.tick_thread?_cases ht with ⟨halt, -, hturned⟩ | ⟨report, hok, hjoined, hunended⟩
  · cases hu.symm.trans hturned
    exact ⟨rfl, .inl rfl⟩
  · have hstart : Machine.thread? { m.turned delta stage with shared.requests := [] } id = some u := hu
    obtain ⟨t', ht', hcore, hstate⟩ := moves_applyAll (m.turned delta stage).shared.requests.reverse hstart
    cases ht'.symm.trans hjoined
    refine ⟨hcore, ?_⟩
    rcases hstate with hsame | hended | ⟨hsuspended, hrunning, hwakes⟩
    · exact .inl hsame
    · exact absurd hended hunended
    · exact .inr ⟨hsuspended, hrunning, ⟨report, hok⟩, resumes_of_wakes hwakes⟩

theorem Pending.exists_start (h : m.Pending wanted m.shared.requests) (hnone : m.thread? id = none)
    (hu : (m.turned delta stage).thread? id = some u) : ∃ script buffer pc, u = Thread.start script buffer pc := by
  have hmem : id ∉ m.order := by
    intro hid
    obtain ⟨t, ht⟩ := h.exists_thread? hid
    rw [hnone] at ht
    cases ht
  have hstart : World.Consistent ⟨m.shared, stage⟩ wanted m.order none := h
  rw [thread?, turned_shared, dusk] at hu
  rcases get?_turns_new delta hstart hmem hu with hold | hnew
  · cases hnone.symm.trans hold
  · exact hnew

variable {t₀ : Thread} {world : World σ} {thread : Thread} {o b : TurnOutcome σ}

/-- Either a thread does not come to run, and the turns leave it as it was, but for the passing of time, or it does in a
turn of its own. -/
theorem Pending.rests_or (h : m.Pending wanted m.shared.requests) (ht₀ : m.thread? id = some t₀) (delta : Single)
    (stage : σ) :
    ((∀ b, ¬ m.Boundary delta stage id b) ∧ ∃ state, t₀.state.Lapses state ∧
      (m.turned delta stage).thread? id = some { t₀ with state }) ∨
    ∃ world o b, m.Takes delta stage id world t₀ o ∧ m.Boundary delta stage id b := by
  have hturned : (m.turned delta stage).thread? id = some t₀ ∨ ∃ world o, m.Takes delta stage id world t₀ o :=
    h.turned_or ht₀
  by_cases htakes : ∃ world o, m.Takes delta stage id world t₀ o
  · obtain ⟨world, o, ho⟩ := htakes
    have hself := ho.turned h
    have hfares := ho.fares h
    cases hfares with
    | rests hlent hlapse hnone => exact .inl ⟨hnone, _, hlapse, hself⟩
    | runs hlent hpaused hpolled hboundary => exact .inr ⟨world, _, _, ho, hboundary 0 (Nat.zero_le _)⟩
  · refine .inl ⟨?_, t₀.state, .refl _, hturned.resolve_right htakes⟩
    intro b hb
    obtain ⟨world, thread, -, o, -, ho, -⟩ := hb.exists_takes
    cases ht₀.symm.trans (ho.thread? h)
    exact htakes ⟨world, o, ho⟩

theorem Pending.turned_of_resting (h : m.Pending wanted m.shared.requests) (ht₀ : m.thread? id = some t₀)
    (hrest : ∀ b, ¬ m.Boundary delta stage id b) :
    ∃ state, t₀.state.Lapses state ∧ (m.turned delta stage).thread? id = some { t₀ with state } := by
  rcases h.rests_or ht₀ delta stage with ⟨-, hturned⟩ | ⟨-, -, b, -, hb⟩
  · exact hturned
  · exact absurd hb (hrest b)

/-- The turn of the thread has ended with an instruction that stopped it. -/
def StopsIn (m : Machine) (delta : Single) (stage : σ) (id : ThreadId) (o : TurnOutcome σ) : Prop :=
  ∃ b, m.Boundary delta stage id b ∧ b.thread.state = .running ∧
    (step id b.thread b.world).value.Stops b.thread b.world ∧ o.thread = (step id b.thread b.world).value.thread

theorem Takes.stopsIn (ho : m.Takes delta stage id world thread o) (h : m.Pending wanted m.shared.requests)
    (hb : m.Boundary delta stage id b) (hstopped : o.thread.state.isStopped = true) : m.StopsIn delta stage id o := by
  cases ho.fares h with
  | rests hlent hlapse hnone => exact absurd hb (hnone b)
  | runs hlent hpaused hpolled hboundary =>
    obtain ⟨executed, hlt, hrunning, hstops, hthread⟩ := exists_stops_of_runFor rfl hstopped
    exact ⟨_, hboundary executed (Nat.le_of_lt hlt), hrunning, hstops, hthread⟩

theorem Takes.eq_of_boundary (ho : m.Takes delta stage id world thread o) (h : m.Pending wanted m.shared.requests)
    (hb : m.Boundary delta stage id b) (hstate : b.thread.state ≠ .running) : b = o := by
  obtain ⟨world', thread', threads, o', executed, ho', hlent, hpaused, hpolled, hle, rfl⟩ := hb.exists_takes
  obtain ⟨rfl, rfl, rfl⟩ := ho.unique ho' h
  cases ho.fares h with
  | rests hlent' hlapse hnone => exact absurd hb (hnone _)
  | runs hlent' hpaused' hpoll hboundary =>
    cases hlent.symm.trans hlent'
    rw [hpoll] at hstate ⊢
    exact (runFor_eq_of_le rfl hstate hle).symm

theorem Pending.stopped_cases (h : m.Pending wanted m.shared.requests)
    (ht : (m.tick delta stage).value.machine.thread? id = some t) (hstopped : t.state.isStopped = true) :
    (∃ t₀, m.thread? id = some t₀ ∧ t.core = t₀.core ∧ t₀.state.Lapses t.state ∧
      ∀ b, ¬ m.Boundary delta stage id b) ∨
    ∃ world thread o, m.Takes delta stage id world thread o ∧ m.StopsIn delta stage id o ∧ t.core = o.thread.core ∧
      t.state = o.thread.state := by
  obtain ⟨u, hu⟩ := h.exists_turned ht
  obtain ⟨hcore, hstate⟩ := h.state_tick hu ht
  have hsame : t.state = u.state := by
    rcases hstate with hsame | ⟨-, hrunning, -⟩
    · exact hsame
    · rw [hrunning] at hstopped
      cases hstopped
  cases ht₀ : m.thread? id with
  | none =>
    obtain ⟨script, buffer, pc, rfl⟩ := h.exists_start ht₀ hu
    rw [hsame] at hstopped
    cases hstopped
  | some t₀ =>
    rcases h.rests_or ht₀ delta stage with ⟨hrest, state, hlapse, hturned⟩ | ⟨world, o, b, ho, hb⟩
    · cases hu.symm.trans hturned
      exact .inl ⟨t₀, rfl, hcore, hsame ▸ hlapse, hrest⟩
    · cases hu.symm.trans (ho.turned h)
      exact .inr ⟨world, t₀, o, ho, ho.stopsIn h hb (hsame ▸ hstopped), hcore, hsame⟩

end

end Machine
end NovelEngine
