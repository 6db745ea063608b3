import NovelEngine.Proofs.Machine.Seniority
import NovelEngine.Proofs.Thread.Standing

/-!
# The boundaries of a tick

A tick can be looked at before and after every instruction. A relation that holds across every part of a tick holds from
its start to every boundary, and from there to the end of the turns. In this way no place is freed in the turns and no
request is lost.
-/
namespace NovelEngine

variable {σ : Type}

/-- A tick at work: the thread whose turn it is and everything else. -/
structure Moment (σ : Type) where
  running : Option (ThreadId × Thread)
  world : World σ

/-- The relation holds across the parts of a tick of a machine with this run order, and can be chained. -/
structure Bridges [Stage σ] (wanted : Nat) (order : List ThreadId) (R : Moment σ → Moment σ → Prop) : Prop where
  refl : ∀ a, R a a
  trans : ∀ {a b c}, R a b → R b c → R a c
  lend : ∀ {world : World σ} {id thread threads}, world.Consistent wanted order none →
    world.shared.threads.checkout id = some (thread, threads) →
    R ⟨none, world⟩ ⟨some (id, thread), { world with shared.threads := threads }⟩
  poll : ∀ (world : World σ) id (thread : Thread) delta,
    R ⟨some (id, thread), world⟩
      ⟨some (id, (thread.poll delta world.shared.globals (Stage.status world.stage)).2), world⟩
  step : ∀ {world : World σ} {id} (thread : Thread), world.Consistent wanted order (some id) →
    R ⟨some (id, thread), world⟩ ⟨some (id, (step id thread world).value.thread), (step id thread world).value.world⟩
  stop : ∀ (world : World σ) id (thread : Thread), R ⟨some (id, thread), world⟩ ⟨some (id, thread.terminate), world⟩
  back : ∀ {world : World σ} {id} (thread : Thread), world.Consistent wanted order (some id) →
    R ⟨some (id, thread), world⟩
      ⟨none, { world with shared.threads := world.shared.threads.checkin id thread }⟩

def TurnOutcome.moment (o : TurnOutcome σ) (id : ThreadId) : Moment σ := ⟨some (id, o.thread), o.world⟩

namespace Bridges

variable [Stage σ] {wanted : Nat} {order : List ThreadId} {R : Moment σ → Moment σ → Prop} {world : World σ}
  {id : ThreadId}

theorem runFor (h : Bridges wanted order R) (budget : Nat) (thread : Thread)
    (hworld : world.Consistent wanted order (some id)) :
    R ⟨some (id, thread), world⟩ ((NovelEngine.runFor id budget thread world).value.moment id) := by
  induction budget generalizing thread world with
  | zero => exact h.refl _
  | succ budget ih =>
    have hone := h.step thread hworld
    have hnext : (NovelEngine.step id thread world).value.world.Consistent wanted order (some id) :=
      Pool.Consistent.asks hworld (asks_step id thread world)
    rw [runFor_succ_value]
    split
    · exact h.stop world id thread
    · dsimp only
      split
      · exact h.trans hone (ih _ hnext)
      · exact hone
      · exact hone
      · exact hone

theorem runFor_of_le (h : Bridges wanted order R) {first budget : Nat} (hle : first ≤ budget) (thread : Thread)
    (hworld : world.Consistent wanted order (some id)) :
    R ((NovelEngine.runFor id first thread world).value.moment id)
      ((NovelEngine.runFor id budget thread world).value.moment id) := by
  induction first generalizing budget thread world with
  | zero => exact h.runFor budget thread hworld
  | succ first ih =>
    obtain ⟨budget, rfl⟩ : ∃ n, budget = n + 1 := ⟨budget - 1, by omega⟩
    have hnext : (NovelEngine.step id thread world).value.world.Consistent wanted order (some id) :=
      Pool.Consistent.asks hworld (asks_step id thread world)
    rw [runFor_succ_value, runFor_succ_value]
    split
    · exact h.refl _
    · dsimp only
      split
      · exact ih (Nat.le_of_succ_le_succ hle) _ hnext
      · exact h.refl _
      · exact h.refl _
      · exact h.refl _

theorem turn (h : Bridges wanted order R) (delta : Single) (thread : Thread)
    (hworld : world.Consistent wanted order (some id)) :
    R ⟨some (id, thread), world⟩ ((NovelEngine.turn delta id thread world).value.moment id) := by
  rw [turn_value]
  split
  · exact h.refl _
  · have hpoll := h.poll world id thread delta
    dsimp only
    split
    · exact h.trans hpoll (h.runFor _ _ hworld)
    · exact hpoll

theorem turns (h : Bridges wanted order R) (delta : Single) (ids : List ThreadId)
    (hworld : world.Consistent wanted order none) :
    R ⟨none, world⟩ ⟨none, (NovelEngine.turns delta ids world).value.world⟩ := by
  induction ids generalizing world with
  | nil => exact h.refl _
  | cons id ids ih =>
    rw [turns_cons_value]
    split
    · exact ih hworld
    · rename_i thread threads hc
      have hout := h.lend hworld hc
      have hlent : ({ world with shared.threads := threads } : World σ).Consistent wanted order (some id) :=
        Pool.Consistent.checkout hworld hc
      have hturn := h.turn delta thread hlent
      have hafter := consistent_turn delta id thread hlent
      dsimp only
      generalize (NovelEngine.turn delta id thread { world with shared.threads := threads }).value = o at hturn hafter ⊢
      have hback : ({ o.world with shared.threads := o.world.shared.threads.checkin id o.thread } :
          World σ).Consistent wanted order none := Pool.Consistent.checkin hafter o.thread
      have hone := h.trans hout (h.trans hturn (h.back o.thread hafter))
      split
      · exact hone
      · exact h.trans hone (ih hback)

end Bridges

section

variable [Stage σ] {world : World σ}

theorem world_turns_append (delta : Single) {before : List ThreadId} {w : World σ} {counts : Nat × Nat}
    (h : (turns delta before world).value = ⟨w, .ok counts⟩) (rest : List ThreadId) :
    (turns delta (before ++ rest) world).value.world = (turns delta rest w).value.world := by
  induction before generalizing world counts with
  | nil =>
    obtain rfl : world = w := congrArg TurnsOutcome.world h
    rfl
  | cons id before ih =>
    rw [List.cons_append, turns_cons_value]
    rw [turns_cons_value] at h
    split
    · rename_i hc
      rw [hc] at h
      exact ih h
    · rename_i thread threads hc
      rw [hc] at h
      dsimp only at h ⊢
      generalize (turn delta id thread { world with shared.threads := threads }).value = o at h ⊢
      cases hhalt : o.halt with
      | some halt =>
        rw [hhalt] at h
        cases h
      | none =>
        rw [hhalt] at h
        dsimp only at h ⊢
        let back : World σ := { o.world with shared.threads := o.world.shared.threads.checkin id o.thread }
        cases hresult : (turns delta before back).value.result with
        | error halt =>
          have herror := congrArg TurnsOutcome.result h
          simp only [TurnsOutcome.afterTurn, back, hresult] at herror
          cases herror
        | ok counts' =>
          have hw : (turns delta before back).value.world = w := congrArg TurnsOutcome.world h
          exact ih (show (turns delta before back).value = ⟨w, .ok counts'⟩ by rw [← hw, ← hresult])

end

namespace Machine

variable [Stage σ] {m : Machine} {delta : Single} {stage : σ} {id : ThreadId} {wanted : Nat} {o : TurnOutcome σ}
  {R : Moment σ → Moment σ → Prop}

/-- In a tick the thread `id` has executed some instructions of its turn, and stands as `o` tells. -/
inductive Boundary (m : Machine) (delta : Single) (stage : σ) (id : ThreadId) : TurnOutcome σ → Prop
  | intro {before rest : List ThreadId} {w : World σ} {counts : Nat × Nat} {thread : Thread} {threads : Arena Thread}
      {executed : Nat} (horder : m.order = before ++ id :: rest)
      (hbefore : (turns delta before ⟨m.shared, stage⟩).value = ⟨w, .ok counts⟩)
      (hlent : w.shared.threads.checkout id = some (thread, threads)) (hpaused : thread.paused = false)
      (hpolled : (thread.poll delta w.shared.globals (Stage.status w.stage)).1 = true)
      (hexecuted : executed ≤ w.shared.options.instructionsPerTick.toNat) :
      Boundary m delta stage id (runFor id executed (thread.poll delta w.shared.globals (Stage.status w.stage)).2
        { w with shared.threads := threads }).value

def dawn (m : Machine) (stage : σ) : Moment σ := ⟨none, ⟨m.shared, stage⟩⟩

def dusk (m : Machine) (delta : Single) (stage : σ) : Moment σ :=
  ⟨none, (turns delta m.order ⟨m.shared, stage⟩).value.world⟩

theorem turned_shared (m : Machine) (delta : Single) (stage : σ) :
    (m.turned delta stage).shared = (m.dusk delta stage).world.shared := by
  rw [turned, course, (turnsCourse_describes delta m.order ⟨m.shared, stage⟩).1]
  rfl

theorem Pending.bridges_dusk (h : m.Pending wanted m.shared.requests) (hR : Bridges wanted m.order R)
    (delta : Single) (stage : σ) : R (m.dawn stage) (m.dusk delta stage) :=
  hR.turns delta m.order h

theorem Pending.consistent_turns (h : m.Pending wanted m.shared.requests) {before : List ThreadId} {w : World σ}
    {counts : Nat × Nat} (hbefore : (turns delta before ⟨m.shared, stage⟩).value = ⟨w, .ok counts⟩) :
    w.Consistent wanted m.order none := by
  have hstart : World.Consistent ⟨m.shared, stage⟩ wanted m.order none := h
  have hturns := NovelEngine.consistent_turns delta before hstart
  rwa [hbefore] at hturns

theorem Boundary.consistent (ho : m.Boundary delta stage id o) (h : m.Pending wanted m.shared.requests) :
    o.world.Consistent wanted m.order (some id) := by
  obtain ⟨-, hbefore, hlent, -, -, -⟩ := ho
  exact consistent_runFor id _ _ (Pool.Consistent.checkout (h.consistent_turns hbefore) hlent)

/-- The relation holds from the start to every boundary, and from there to the end of the turns. -/
theorem Boundary.bridges (ho : m.Boundary delta stage id o) (h : m.Pending wanted m.shared.requests)
    (hR : Bridges wanted m.order R) :
    R (m.dawn stage) (o.moment id) ∧ R (o.moment id) (m.dusk delta stage) := by
  obtain @⟨before, rest, w, counts, thread, threads, executed, horder, hbefore, hlent, hpaused, hpolled, hexecuted⟩ :=
    ho
  have hstart : World.Consistent ⟨m.shared, stage⟩ wanted m.order none := h
  have hw : w.Consistent wanted m.order none := h.consistent_turns hbefore
  let lent : World σ := { w with shared.threads := threads }
  have hbooks : lent.Consistent wanted m.order (some id) := Pool.Consistent.checkout hw hlent
  have hpoll := hR.trans (hR.lend hw hlent) (hR.poll lent id thread delta)
  constructor
  · have hfirst := hR.turns delta before hstart
    rw [hbefore] at hfirst
    exact hR.trans hfirst (hR.trans hpoll (hR.runFor executed _ hbooks))
  · have hturn : (turn delta id thread lent).value =
        (runFor id w.shared.options.instructionsPerTick.toNat
          (thread.poll delta w.shared.globals (Stage.status w.stage)).2 lent).value := by
      rw [turn_value, if_neg (by simp [hpaused])]
      exact if_pos hpolled
    have hrun := hR.runFor_of_le hexecuted
      (thread.poll delta w.shared.globals (Stage.status w.stage)).2 hbooks
    have hafter := consistent_turn delta id thread hbooks
    rw [dusk, horder, world_turns_append delta hbefore, turns_cons_value, hlent]
    dsimp only
    rw [← hturn] at hrun
    revert hrun hafter
    generalize (turn delta id thread lent).value = o
    intro hrun hafter
    have hback : ({ o.world with shared.threads := o.world.shared.threads.checkin id o.thread } :
        World σ).Consistent wanted m.order none := Pool.Consistent.checkin hafter o.thread
    have hone := hR.trans hrun (hR.back o.thread hafter)
    split
    · exact hone
    · exact hR.trans hone (hR.turns delta rest hback)

end Machine

structure Pool.Extends (p q : Pool) : Prop where
  grows : p.threads.Grows q.threads
  suffix : p.requests <:+ q.requests

namespace Pool

variable {p q r : Pool}

theorem Extends.refl (p : Pool) : p.Extends p := ⟨.refl _, List.suffix_rfl⟩

theorem Extends.trans (h : p.Extends q) (h' : q.Extends r) : p.Extends r :=
  ⟨h.grows.trans h'.grows, h.suffix.trans h'.suffix⟩

variable {wanted : Nat} {order pending : List ThreadId} {lent : Option ThreadId}

theorem Consistent.extends_asks (h : p.Consistent wanted order pending lent) (hasks : p.Asks q) : p.Extends q := by
  cases hasks with
  | nothing => exact .refl p
  | request r hr => exact ⟨.refl _, List.suffix_cons r p.requests⟩
  | spawn thread hroom => exact ⟨(h.wellFormed.lets_insert (h.room hroom) thread).grows, List.suffix_cons _ _⟩

end Pool

theorem bridges_extends [Stage σ] (wanted : Nat) (order : List ThreadId) :
    Bridges wanted order fun a b : Moment σ => a.world.shared.pool.Extends b.world.shared.pool where
  refl _ := .refl _
  trans := .trans
  lend _ hc := ⟨Arena.grows_of_standing? (Arena.standing?_checkout hc), List.suffix_rfl⟩
  poll _ _ _ _ := .refl _
  step thread h := Pool.Consistent.extends_asks h (asks_step _ thread _)
  stop _ _ _ := .refl _
  back _ _ := ⟨Arena.grows_of_standing? (Arena.standing?_checkin _ _ _), List.suffix_rfl⟩

namespace Machine

variable [Stage σ] {m : Machine} {delta : Single} {stage : σ} {id : ThreadId} {wanted : Nat} {o : TurnOutcome σ}

theorem Pending.extends_turned (h : m.Pending wanted m.shared.requests) (delta : Single) (stage : σ) :
    m.shared.pool.Extends (m.turned delta stage).shared.pool := by
  rw [turned_shared]
  exact h.bridges_dusk (bridges_extends wanted m.order) delta stage

theorem Boundary.extends_turned (ho : m.Boundary delta stage id o) (h : m.Pending wanted m.shared.requests) :
    o.world.shared.pool.Extends (m.turned delta stage).shared.pool := by
  rw [turned_shared]
  exact (ho.bridges h (bridges_extends wanted m.order)).2

end Machine
end NovelEngine
