import NovelEngine.Proofs.Machine.Pool
import NovelEngine.Proofs.Machine.Requests
import NovelEngine.Proofs.Machine.Run
import NovelEngine.Proofs.Thread.Newcomers

/-!
# The course of a tick

A tick is a sequence of turns; a record of a turn says whose it is, what it executes and which threads come to
be in it. The requests of scripts play no part in this: they may be rewritten after every instruction, and the
turns are the same.
-/
namespace NovelEngine

variable {σ α β : Type}

/-- What a run comes to, with the instructions that it executes and the threads that come to be in it. -/
structure RunCourse (σ : Type) where
  steps : List Executed
  born : List ThreadId
  thread : Thread
  world : World σ
  halt : Option Halt

def RunCourse.afterStep (c : RunCourse σ) (e : Executed) (born : List ThreadId) : RunCourse σ :=
  { c with steps := e :: c.steps, born := born ++ c.born }

structure TurnRecord where
  id : ThreadId
  before : Thread
  steps : List Executed
  born : List ThreadId
  after : Thread

/-- What the turns of some threads come to. A halt cuts them short. -/
structure TickCourse (σ : Type) where
  turns : List TurnRecord
  world : World σ
  halt : Option Halt

namespace TickCourse

def born (c : TickCourse σ) : List ThreadId := c.turns.flatMap TurnRecord.born

def executed (c : TickCourse σ) : Nat := c.turns.foldr (fun t sum => t.steps.length + sum) 0

end TickCourse

section

variable [Stage σ]

def runCourse (edit : Edit) (id : ThreadId) : Nat → Thread → World σ → RunCourse σ
  | 0, thread, world => ⟨[], [], thread, world, none⟩
  | budget + 1, thread, world =>
    if thread.script.codeEnd ≤ thread.pc then ⟨[], [], thread.terminate, world, none⟩
    else
      let s := (step id thread world).value
      let executed : Executed := ⟨instructionAt thread world, s.ending⟩
      let born := world.shared.threads.newcomers s.world.shared.threads
      match s.ending with
      | .went .next => (runCourse edit id budget s.thread (s.world.editing edit)).afterStep executed born
      | .halted halt => ⟨[], born, s.thread, s.world.editing edit, some halt⟩
      | _ => ⟨[executed], born, s.thread, s.world.editing edit, none⟩

def turnCourse (edit : Edit) (delta : Single) (id : ThreadId) (thread : Thread) (world : World σ) :
    RunCourse σ :=
  if thread.paused then ⟨[], [], thread, world, none⟩
  else
    let r := thread.poll delta world.shared.globals (Stage.status world.stage)
    if r.1 then runCourse edit id world.shared.options.instructionsPerTick.toNat r.2 world
    else ⟨[], [], r.2, world, none⟩

def turnsCourse (edit : Edit) (delta : Single) : List ThreadId → World σ → TickCourse σ
  | [], world => ⟨[], world, none⟩
  | id :: ids, world =>
    match world.shared.threads.checkout id with
    | none => turnsCourse edit delta ids world
    | some (thread, threads) =>
      let c := turnCourse edit delta id thread { world with shared.threads := threads }
      let record : TurnRecord := ⟨id, thread, c.steps, c.born, c.thread⟩
      let world := { c.world with shared.threads := c.world.shared.threads.checkin id c.thread }
      match c.halt with
      | some halt => ⟨[record], world, some halt⟩
      | none =>
        let rest := turnsCourse edit delta ids world
        { rest with turns := record :: rest.turns }

def Machine.course (m : Machine) (edit : Edit) (delta : Single) (stage : σ) : TickCourse σ :=
  turnsCourse edit delta m.order ⟨m.shared, stage⟩

end

section

variable [Stage σ] {edit edit' : Edit} {id : ThreadId} {budget : Nat} {thread : Thread} {world world' : World σ}
  {delta : Single} {ids : List ThreadId}

/-- What a run and its course have in common. -/
structure RunCourse.Describes (c : RunCourse σ) (o : TurnOutcome σ) : Prop where
  thread_eq : c.thread = o.thread
  world_eq : c.world = o.world
  halt_eq : c.halt = o.halt
  length_eq : c.steps.length = o.executed

theorem runCourse_describes (id : ThreadId) (budget : Nat) (thread : Thread) (world : World σ) :
    (runCourse .leave id budget thread world).Describes (runFor id budget thread world).value := by
  induction budget generalizing thread world with
  | zero => exact ⟨rfl, rfl, rfl, rfl⟩
  | succ budget ih =>
    rw [runCourse, runFor_succ_value]
    split
    · exact ⟨rfl, rfl, rfl, rfl⟩
    · generalize (step id thread world).value = s
      obtain ⟨ending, thread', world'⟩ := s
      rcases ending with flow | _ | halt
      · cases flow with
        | next =>
          have hrest := ih thread' world'
          have hlength := congrArg (· + 1) hrest.length_eq
          exact ⟨hrest.thread_eq, hrest.world_eq, hrest.halt_eq, hlength⟩
        | yield | suspend | exit => exact ⟨rfl, rfl, rfl, rfl⟩
        | wait condition => exact ⟨rfl, rfl, rfl, rfl⟩
      · exact ⟨rfl, rfl, rfl, rfl⟩
      · exact ⟨rfl, rfl, rfl, rfl⟩

theorem turnCourse_describes (delta : Single) (id : ThreadId) (thread : Thread) (world : World σ) :
    (turnCourse .leave delta id thread world).Describes (turn delta id thread world).value := by
  rw [turnCourse, turn_value]
  split
  · exact ⟨rfl, rfl, rfl, rfl⟩
  · dsimp only
    split
    · exact runCourse_describes _ _ _ _
    · exact ⟨rfl, rfl, rfl, rfl⟩

/-- The turns are those of the tick, and what it counts is the sum of theirs. -/
theorem turnsCourse_describes (delta : Single) (ids : List ThreadId) (world : World σ) :
    (turnsCourse .leave delta ids world).world = (turns delta ids world).value.world ∧
      (turns delta ids world).value.result.map Prod.fst =
        match (turnsCourse .leave delta ids world).halt with
        | none => .ok (turnsCourse .leave delta ids world).executed
        | some halt => .error halt := by
  induction ids generalizing world with
  | nil => exact ⟨rfl, rfl⟩
  | cons id ids ih =>
    rw [turnsCourse, turns_cons_value]
    cases hc : world.shared.threads.checkout id with
    | none => exact ih world
    | some p =>
      obtain ⟨hthread, hworld, hhalt, hlength⟩ :=
        turnCourse_describes delta id p.1 { world with shared.threads := p.2 }
      dsimp only
      revert hthread hworld hhalt hlength
      generalize turnCourse .leave delta id p.1 (_ : World σ) = c
      generalize (turn delta id p.1 (_ : World σ)).value = o
      intro hthread hworld hhalt hlength
      rw [hthread, hworld, hhalt]
      cases o.halt with
      | some halt => exact ⟨rfl, rfl⟩
      | none =>
        obtain ⟨hrest, hresult⟩ :=
          ih { o.world with shared.threads := o.world.shared.threads.checkin id o.thread }
        refine ⟨hrest, ?_⟩
        revert hresult
        dsimp only [TurnsOutcome.afterTurn]
        generalize turnsCourse .leave delta ids (_ : World σ) = rest
        generalize (turns delta ids (_ : World σ)).value.result = result
        intro hresult
        have hsum : ({ rest with turns := ⟨id, p.1, c.steps, c.born, o.thread⟩ :: rest.turns } :
            TickCourse σ).executed = o.executed + rest.executed := by
          rw [← hlength]
          rfl
        rw [hsum]
        cases result with
        | error halt =>
          cases hhalt : rest.halt with
          | none => simp [hhalt, Except.map] at hresult
          | some halt' => simpa [hhalt, Except.map] using hresult
        | ok counts =>
          cases hhalt : rest.halt with
          | none => simpa [hhalt, Except.map] using hresult
          | some halt' => simp [hhalt, Except.map] at hresult

theorem length_runCourse_le : (runCourse edit id budget thread world).steps.length ≤ budget := by
  induction budget generalizing thread world with
  | zero => exact Nat.le_refl _
  | succ budget ih =>
    rw [runCourse]
    split
    · exact Nat.zero_le _
    · dsimp only
      split
      · exact Nat.succ_le_succ ih
      · exact Nat.zero_le _
      · exact Nat.succ_le_succ (Nat.zero_le _)

theorem length_turnCourse_le :
    (turnCourse edit delta id thread world).steps.length ≤ world.budget.toNat := by
  rw [turnCourse]
  split
  · exact Nat.zero_le _
  · dsimp only
    split
    · exact length_runCourse_le
    · exact Nat.zero_le _

theorem budget_runCourse : (runCourse edit id budget thread world).world.budget = world.budget := by
  induction budget generalizing thread world with
  | zero => rfl
  | succ budget ih =>
    have hstep := budget_step id thread world
    rw [runCourse]
    split
    · rfl
    · dsimp only
      split
      · exact ih.trans hstep
      · exact hstep
      · exact hstep

theorem budget_turnCourse : (turnCourse edit delta id thread world).world.budget = world.budget := by
  rw [turnCourse]
  split
  · rfl
  · dsimp only
    split
    · exact budget_runCourse
    · rfl

theorem length_turnsCourse_le {t : TurnRecord} (ht : t ∈ (turnsCourse edit delta ids world).turns) :
    t.steps.length ≤ world.budget.toNat := by
  induction ids generalizing world with
  | nil => cases ht
  | cons id ids ih =>
    rw [turnsCourse] at ht
    cases hc : world.shared.threads.checkout id with
    | none =>
      rw [hc] at ht
      exact ih ht
    | some p =>
      rw [hc] at ht
      dsimp only at ht
      let lent : World σ := { world with shared.threads := p.2 }
      have hlength : (turnCourse edit delta id p.1 lent).steps.length ≤ world.budget.toNat :=
        length_turnCourse_le
      have hbudget : (turnCourse edit delta id p.1 lent).world.budget = world.budget := budget_turnCourse
      split at ht
      · obtain rfl := List.mem_singleton.mp ht
        exact hlength
      · rcases List.mem_cons.mp ht with rfl | hrest
        · exact hlength
        · have hle := ih hrest
          exact Nat.le_trans hle (Nat.le_of_eq (congrArg UInt32.toNat hbudget))

/-- Two courses that differ at most in what has become of the requests. -/
structure RunCourse.Same (c c' : RunCourse σ) : Prop where
  steps_eq : c.steps = c'.steps
  born_eq : c.born = c'.born
  thread_eq : c.thread = c'.thread
  halt_eq : c.halt = c'.halt
  idle_eq : c.world.idle = c'.world.idle

theorem runCourse_same (h : world.idle = world'.idle) :
    (runCourse edit id budget thread world).Same (runCourse edit' id budget thread world') := by
  induction budget generalizing thread world world' with
  | zero => exact ⟨rfl, rfl, rfl, rfl, h⟩
  | succ budget ih =>
    have hstep : (step id thread world).value.idle = (step id thread world').value.idle := by
      rw [← step_idle, h, step_idle]
    have hinstruction : instructionAt thread world.idle = instructionAt thread world'.idle := by rw [h]
    change instructionAt thread world = instructionAt thread world' at hinstruction
    have hthreads : world.shared.threads = world'.shared.threads :=
      congrArg (fun w => w.shared.threads) h
    rw [runCourse, runCourse]
    split
    · exact ⟨rfl, rfl, rfl, rfl, h⟩
    · rw [hinstruction, hthreads]
      revert hstep
      generalize (step id thread world).value = s
      generalize (step id thread world').value = s'
      obtain ⟨ending, thread₁, world₁⟩ := s
      obtain ⟨ending', thread₂, world₂⟩ := s'
      intro hstep
      simp only [StepOutcome.idle, StepOutcome.mk.injEq] at hstep
      obtain ⟨rfl, rfl, hworld⟩ := hstep
      have hlive : world₁.shared.threads = world₂.shared.threads := congrArg (fun w => w.shared.threads) hworld
      have hedited : (world₁.editing edit).idle = (world₂.editing edit').idle := hworld
      dsimp only
      rw [hlive]
      split
      · have hrest : (runCourse edit id budget thread₁ (world₁.editing edit)).Same
            (runCourse edit' id budget thread₁ (world₂.editing edit')) := ih hedited
        have hsteps := congrArg (List.cons (⟨instructionAt thread world', .went .next⟩ : Executed)) hrest.steps_eq
        have hborn := congrArg (world'.shared.threads.newcomers world₂.shared.threads ++ ·) hrest.born_eq
        exact ⟨hsteps, hborn, hrest.thread_eq, hrest.halt_eq, hrest.idle_eq⟩
      · exact ⟨rfl, rfl, rfl, rfl, hedited⟩
      · exact ⟨rfl, rfl, rfl, rfl, hedited⟩

theorem turnCourse_same (h : world.idle = world'.idle) :
    (turnCourse edit delta id thread world).Same (turnCourse edit' delta id thread world') := by
  have hglobals : world.shared.globals = world'.shared.globals := congrArg (fun w => w.shared.globals) h
  have hstage : world.stage = world'.stage := congrArg (fun w => w.stage) h
  have hbudget : world.shared.options.instructionsPerTick = world'.shared.options.instructionsPerTick :=
    congrArg (fun w => w.shared.options.instructionsPerTick) h
  rw [turnCourse, turnCourse, hglobals, hstage, hbudget]
  split
  · exact ⟨rfl, rfl, rfl, rfl, h⟩
  · dsimp only
    split
    · exact runCourse_same h
    · exact ⟨rfl, rfl, rfl, rfl, h⟩

theorem turnsCourse_same (h : world.idle = world'.idle) :
    (turnsCourse edit delta ids world).turns = (turnsCourse edit' delta ids world').turns := by
  induction ids generalizing world world' with
  | nil => rfl
  | cons id ids ih =>
    have hthreads : world.shared.threads = world'.shared.threads := congrArg (fun w => w.shared.threads) h
    rw [turnsCourse, turnsCourse, hthreads]
    cases world'.shared.threads.checkout id with
    | none => exact ih h
    | some p =>
      have hlent : ({ world with shared.threads := p.2 } : World σ).idle =
          ({ world' with shared.threads := p.2 } : World σ).idle :=
        congrArg (fun w => ({ w with shared.threads := p.2 } : World σ)) h
      have hturn : (turnCourse edit delta id p.1 { world with shared.threads := p.2 }).Same
          (turnCourse edit' delta id p.1 { world' with shared.threads := p.2 }) := turnCourse_same hlent
      dsimp only
      revert hturn
      generalize turnCourse edit delta id p.1 (_ : World σ) = c
      generalize turnCourse edit' delta id p.1 (_ : World σ) = c'
      intro hturn
      have hback : ({ c.world with shared.threads := c.world.shared.threads.checkin id c.thread } :
          World σ).idle = ({ c'.world with shared.threads := c'.world.shared.threads.checkin id c'.thread } :
          World σ).idle := by
        rw [hturn.thread_eq]
        exact congrArg (fun w => ({ w with shared.threads := w.shared.threads.checkin id c'.thread } :
          World σ)) hturn.idle_eq
      rw [hturn.halt_eq, hturn.steps_eq, hturn.born_eq, hturn.thread_eq] at *
      cases c'.halt with
      | some halt => rfl
      | none =>
        have hrest := ih hback
        exact congrArg (List.cons (⟨id, p.1, c'.steps, c'.born, c'.thread⟩ : TurnRecord)) hrest

end

theorem Pool.Consistent.newcomers_eq {wanted : Nat} {order pending : List ThreadId} {lent : Option ThreadId}
    {p q : Pool} (h : p.Consistent wanted order pending lent) (hasks : p.Asks q) :
    spawned q.requests = (p.threads.newcomers q.threads).reverse ++ spawned p.requests := by
  have hnone : p.threads.newcomers p.threads = [] := Arena.newcomers_eq_nil h.wellFormed fun _ => rfl
  cases hasks with
  | nothing =>
    rw [hnone]
    rfl
  | request r hr =>
    show spawned (r :: p.requests) = (p.threads.newcomers p.threads).reverse ++ _
    rw [hnone]
    cases r with
    | spawn id => exact absurd rfl (hr id)
    | kill handle | pause handle | resume handle => rfl
  | spawn thread hroom =>
    have hone := (h.wellFormed.insert (h.room hroom) thread).newcomers_eq
    show spawned (.spawn (p.threads.insert thread).1 :: p.requests) =
      (p.threads.newcomers (p.threads.insert thread).2).reverse ++ _
    rw [hone]
    rfl

theorem Pool.Consistent.exists_get? {wanted : Nat} {order pending : List ThreadId} {p : Pool} {id : ThreadId}
    (h : p.Consistent wanted order pending none) (hlive : p.threads.contains id = true) :
    ∃ thread, p.threads.get? id = some thread := by
  rw [Arena.contains_eq, Option.isSome_iff_exists] at hlive
  obtain ⟨t, ht⟩ := hlive
  cases t with
  | lent => cases (h.lent_iff id).mp ht
  | vacant =>
    obtain ⟨hfalse, -⟩ := Arena.tenant?_eq_some_iff.mp ht
    cases hfalse
  | occupied thread => exact ⟨thread, Arena.get?_eq_some_iff.mpr ht⟩

theorem World.Consistent.exists_checkout {wanted : Nat} {order : List ThreadId} {world : World σ}
    {id : ThreadId} (h : world.Consistent wanted order none) (hid : id ∈ order) :
    ∃ thread threads, world.shared.threads.checkout id = some (thread, threads) := by
  obtain ⟨thread, hget⟩ := h.exists_get? ((h.contains_iff id).mpr (.inl hid))
  obtain ⟨threads, hthreads⟩ := Arena.exists_checkout hget
  exact ⟨thread, threads, hthreads⟩

section

variable [Stage σ] {wanted : Nat} {order : List ThreadId} {lent : Option ThreadId} {world : World σ}

theorem born_runCourse (id : ThreadId) (budget : Nat) (thread : Thread)
    (h : world.Consistent wanted order lent) :
    spawned (runCourse .leave id budget thread world).world.shared.requests =
      (runCourse .leave id budget thread world).born.reverse ++ spawned world.shared.requests := by
  induction budget generalizing thread world with
  | zero => rfl
  | succ budget ih =>
    have hasks := asks_step id thread world
    have hstep : (step id thread world).value.world.Consistent wanted order lent :=
      Pool.Consistent.asks h hasks
    have hborn : spawned (step id thread world).value.world.shared.requests =
        (world.shared.threads.newcomers (step id thread world).value.world.shared.threads).reverse ++
          spawned world.shared.requests := Pool.Consistent.newcomers_eq h hasks
    rw [runCourse]
    split
    · rfl
    · dsimp only
      split
      · have hrest := ih (step id thread world).value.thread hstep
        show spawned (runCourse .leave id budget _ (step id thread world).value.world).world.shared.requests =
          (_ ++ (runCourse .leave id budget _ (step id thread world).value.world).born).reverse ++ _
        rw [hrest, hborn, List.reverse_append, List.append_assoc]
      · exact hborn
      · exact hborn

theorem born_turnCourse (delta : Single) (id : ThreadId) (thread : Thread)
    (h : world.Consistent wanted order lent) :
    spawned (turnCourse .leave delta id thread world).world.shared.requests =
      (turnCourse .leave delta id thread world).born.reverse ++ spawned world.shared.requests := by
  rw [turnCourse]
  split
  · rfl
  · dsimp only
    split
    · exact born_runCourse _ _ _ h
    · rfl

/-- In a consistent world every thread of the list takes its turn, unless a halt cuts the turns short, and the
requests name the threads that come to be. -/
theorem turnsCourse_leave (delta : Single) {ids : List ThreadId} (h : world.Consistent wanted order none)
    (hids : ∀ id ∈ ids, id ∈ order) :
    ((turnsCourse .leave delta ids world).halt = none →
      (turnsCourse .leave delta ids world).turns.map TurnRecord.id = ids) ∧
    spawned (turnsCourse .leave delta ids world).world.shared.requests =
      (turnsCourse .leave delta ids world).born.reverse ++ spawned world.shared.requests := by
  induction ids generalizing world with
  | nil => exact ⟨fun _ => rfl, rfl⟩
  | cons id ids ih =>
    obtain ⟨hid, hids⟩ := List.forall_mem_cons.mp hids
    obtain ⟨thread, threads, hc⟩ := h.exists_checkout hid
    let lent : World σ := { world with shared.threads := threads }
    have hlent : lent.Consistent wanted order (some id) := Pool.Consistent.checkout h hc
    have hturn : (turnCourse .leave delta id thread lent).world.Consistent wanted order (some id) := by
      rw [(turnCourse_describes delta id thread lent).world_eq]
      exact consistent_turn delta id thread hlent
    have hborn : spawned (turnCourse .leave delta id thread lent).world.shared.requests =
        (turnCourse .leave delta id thread lent).born.reverse ++ spawned world.shared.requests :=
      born_turnCourse delta id thread hlent
    rw [turnsCourse, hc]
    dsimp only
    revert hturn hborn
    generalize turnCourse .leave delta id thread lent = c
    intro hturn hborn
    -- With the thread back nothing is lent, which is what the next turn needs.
    have hback : ({ c.world with shared.threads := c.world.shared.threads.checkin id c.thread } :
        World σ).Consistent wanted order none := Pool.Consistent.checkin hturn c.thread
    cases c.halt with
    | some halt =>
      refine ⟨?_, ?_⟩
      · intro hnone
        cases hnone
      · simpa [TickCourse.born] using hborn
    | none =>
      obtain ⟨hmap, hrest⟩ := ih hback hids
      refine ⟨?_, ?_⟩
      · intro hhalt
        exact congrArg (List.cons id) (hmap hhalt)
      · dsimp only
        rw [hrest, hborn]
        simp [TickCourse.born]

end
end NovelEngine
