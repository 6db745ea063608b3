import NovelEngine.Proofs.Machine.Tick

/-!
# Undisturbed runs

A run is undisturbed if none of its instructions gives up the turn before its end or works on threads. Such a
run neither sees its budget nor changes the pool, and it can be cut anywhere.
-/
namespace NovelEngine

variable {σ α β : Type}

def Shared.withBudget (s : Shared) (budget : UInt32) : Shared :=
  { s with options.instructionsPerTick := budget }

def World.withBudget (w : World σ) (budget : UInt32) : World σ :=
  { w with shared := w.shared.withBudget budget }

def TurnOutcome.withBudget (o : TurnOutcome σ) (budget : UInt32) : TurnOutcome σ :=
  { o with world := o.world.withBudget budget }

namespace Exec

variable {s : Surroundings} {t : Turn σ} {x : Exec σ α}

theorem follows_bind_of_defect {f : α → Exec σ β} {d : Defect} (h : Follows s t x x)
    (hd : ((x >>= f).result t).1 = .error (.defect d))
    (hf : ∀ a t', ((f a).result t').1 = .error (.defect d) → Follows s t' (f a) (f a)) :
    Follows s t (x >>= f) (x >>= f) := by
  unfold Follows at h ⊢
  rw [result_bind] at hd ⊢
  rw [result_bind, h]
  revert hd
  obtain ⟨r, t'⟩ := x.result t
  cases r with
  | ok a => exact hf a t'
  | error e => exact fun _ => rfl

/-- Whatever the computation comes to has the property. -/
def Gives (p : α → Prop) (x : Exec σ α) : Prop := ∀ t a, (x.result t).1 = .ok a → p a

variable {p : α → Prop}

theorem gives_pure {a : α} (h : p a) : Gives p (pure a : Exec σ α) := by
  intro t b hb
  cases hb
  exact h

theorem gives_bind {q : β → Prop} {f : α → Exec σ β} (h : ∀ a, Gives q (f a)) :
    Gives q (x >>= f) := by
  intro t b hb
  rw [result_bind] at hb
  revert hb
  obtain ⟨r, t'⟩ := x.result t
  cases r with
  | ok a => exact h a t' b
  | error e => exact fun hb => by cases hb

end Exec

namespace Instruction

open Exec

variable [Stage σ] {s : Surroundings} {t : Turn σ}

theorem gives_flow {p : Flow → Prop} (opcode : UInt16) (i : Instruction) (hnext : p .next)
    (hyield : i = .yield → p .yield) (hexit : i = .exit → p .exit) (hsuspend : i = .suspend → p .suspend)
    (hwait : i = .wait ∨ i = .signalWait ∨ i = .loadWait → ∀ condition, p (.wait condition)) :
    Gives p (i.run opcode : Exec σ Flow) := by
  have hnext : Gives (σ := σ) p (pure Flow.next) := gives_pure hnext
  cases i with
  | yield => exact gives_pure (hyield rfl)
  | suspend => exact gives_pure (hsuspend rfl)
  | exit => exact gives_pure (hexit rfl)
  | empty0204 | characterSwap | empty02xx | empty0240 => exact hnext
  | wait =>
    have hcondition := hwait (.inl rfl)
    exact gives_bind fun _ => gives_pure (hcondition _)
  | jump | assign | threadKill | threadPause | threadResume | signalSet | signalClear | ret | debugPrint |
    backgroundLoad | backgroundRelease | characterRelease | characterLoad | playAnimation | setAnimation |
    threadCreate | scriptLoad | stub0207 | stub0208 | stub0219 | unknown =>
    -- Whatever these read and change, the last thing they do is to go on.
    repeat first | exact hnext | refine gives_bind fun _ => ?_
  | jumpIf =>
    refine gives_bind fun _ => gives_bind fun _ => ?_
    exact iteInduction (fun _ => gives_bind fun _ => hnext) fun _ => hnext
  | call =>
    refine gives_bind fun label => gives_bind fun _ => iteInduction (fun _ => ?_) fun _ => ?_
    · repeat first | exact hnext | refine gives_bind fun _ => ?_
    · repeat first | exact hnext | refine gives_bind fun _ => ?_
  | signalWait =>
    have hcondition := hwait (.inr (.inl rfl))
    refine gives_bind fun _ => gives_bind fun _ => gives_bind fun set => ?_
    cases set
    · exact gives_pure (hcondition _)
    · exact hnext
  | loadWait =>
    have hcondition := hwait (.inr (.inr rfl))
    refine gives_bind fun code => gives_bind fun index => ?_
    cases Category.ofCode? code with
    | none => exact gives_bind fun _ => gives_bind fun _ => hnext
    | some category =>
      exact gives_bind fun t => iteInduction (fun _ => gives_bind fun _ => hnext) fun _ => gives_pure (hcondition _)

theorem gives_run (opcode : UInt16) (i : Instruction) (hyield : i ≠ .yield) (hsuspend : i ≠ .suspend) :
    Gives (fun flow => flow ≠ .yield ∧ flow ≠ .suspend) (i.run opcode : Exec σ Flow) := by
  apply gives_flow
  · exact ⟨Flow.noConfusion, Flow.noConfusion⟩
  · exact fun h => absurd h hyield
  · exact fun _ => ⟨Flow.noConfusion, Flow.noConfusion⟩
  · exact fun h => absurd h hsuspend
  · exact fun _ _ => ⟨Flow.noConfusion, Flow.noConfusion⟩

/-- An instruction on threads that meets a defect has only read its operands. -/
theorem follows_run_of_defect (opcode : UInt16) (i : Instruction) {d : Defect}
    (hd : ((i.run opcode).result t).1 = .error (.defect d)) :
    Follows s t (i.run opcode) (i.run opcode) := by
  refine run_induction (P := fun x => ∀ t, (x.result t).1 = .error (.defect d) → Follows s t x x) ?_ ?_ ?_ ?_
    opcode i t hd
  · exact fun x hx t _ => hx s t
  · exact fun f hf t hd => follows_bind_of_defect follows_expr hd fun operand t' hd => hf operand t' hd
  · intro r _ t hd
    cases hd
  · intro buffer label t hd
    rw [result_create] at hd
    cases hspawn : t.world.shared.spawn buffer.toInt label with
    | error f =>
      rw [hspawn] at hd
      cases hd
    | ok p =>
      rw [hspawn] at hd
      cases hd

end Instruction

namespace TurnOutcome

def followedBy (o rest : TurnOutcome σ) : TurnOutcome σ :=
  { rest with executed := o.executed + rest.executed, faulted := o.faulted + rest.faulted }

theorem followedBy_afterStep (o rest : TurnOutcome σ) :
    (o.followedBy rest).afterStep = o.afterStep.followedBy rest := by
  simp only [followedBy, afterStep, Nat.add_right_comm]

/-- Whether only the budget has stopped the run. -/
structure Unfinished (o : TurnOutcome σ) : Prop where
  halt_eq : o.halt = none
  state_eq : o.thread.state = .running
  paused_eq : o.thread.paused = false

def Over (o : TurnOutcome σ) : Prop := o.halt.isSome = true ∨ o.thread.state = .terminated

end TurnOutcome

namespace StepOutcome

def last (s : StepOutcome σ) : TurnOutcome σ :=
  match s.ending with
  | .went _ => ⟨s.thread, s.world, 1, 0, none⟩
  | .faulted => ⟨s.thread, s.world, 1, 1, none⟩
  | .halted halt => ⟨s.thread, s.world, 0, 0, some halt⟩

def Ends (s : StepOutcome σ) : Prop :=
  s.ending = .went .exit ∨ s.ending = .faulted ∨ ∃ halt, s.ending = .halted halt

theorem Ends.ne_next {s : StepOutcome σ} (h : s.Ends) : s.ending ≠ .went .next := by
  intro hnext
  rw [Ends, hnext] at h
  rcases h with h | h | ⟨halt, h⟩ <;> cases h

/-- How an undisturbed step goes from a thread: the pool stays as it is, and the thread goes on as it was
or is over. -/
structure Calm (s : StepOutcome σ) (thread : Thread) (world : World σ) : Prop where
  pool_eq : s.world.shared.pool = world.shared.pool
  state_eq : s.ending = .went .next → s.thread.state = thread.state
  paused_eq : s.ending = .went .next → s.thread.paused = thread.paused
  ended : s.Ends → s.thread.state = .terminated ∨ ∃ halt, s.ending = .halted halt

theorem Calm.over_last {s : StepOutcome σ} {thread : Thread} {world : World σ} (h : s.Calm thread world)
    (hends : s.Ends) : s.last.Over := by
  rcases h.ended hends with hstate | ⟨halt, hhalt⟩
  · obtain ⟨_ | _ | _, thread', world'⟩ := s <;> exact .inr hstate
  · rw [last, hhalt]
    exact .inl rfl

theorem calm_stepResult (id : ThreadId) (start : Nat) {r : Except Failure Flow × Turn σ} {t : Turn σ}
    (hsame : r.2.surroundings = t.surroundings) : (stepResult id start r).Calm t.thread t.world := by
  have hpool : r.2.world.shared.pool = t.world.shared.pool := congrArg Surroundings.toPool hsame
  have hstate : r.2.thread.state = t.thread.state := congrArg Surroundings.state hsame
  have hpaused : r.2.thread.paused = t.thread.paused := congrArg Surroundings.paused hsame
  obtain ⟨(d | f) | flow, t'⟩ := r
  · exact ⟨hpool, fun _ => hstate, fun _ => hpaused, fun _ => .inr ⟨_, rfl⟩⟩
  · refine ⟨hpool, fun h => ?_, fun _ => hpaused, fun _ => .inl rfl⟩
    cases h
  · refine ⟨hpool, fun h => ?_, fun h => ?_, fun h => ?_⟩
    · cases h
      exact hstate
    · cases h
      exact hpaused
    · rcases h with h | h | ⟨halt, h⟩ <;> cases h
      exact .inl rfl

end StepOutcome

section

variable [Stage σ]

def instructionAt (thread : Thread) (world : World σ) : Instruction :=
  match (thread.cursorAt thread.pc).opcode with
  | .ok (opcode, _) => world.shared.options.instructionSet.instruction opcode
  | .error _ => .unknown

structure Executed where
  instruction : Instruction
  ending : StepEnd
  deriving DecidableEq

/-- Whether the instruction neither gave up the turn before its end nor worked on threads. -/
structure Executed.Undisturbing (e : Executed) : Prop where
  not_lifecycle : e.instruction.isLifecycle = false
  not_yield : e.instruction ≠ .yield
  not_suspend : e.instruction ≠ .suspend
  not_wait : ∀ condition, e.ending ≠ .went (.wait condition)

def trace (id : ThreadId) : Nat → Thread → World σ → List Executed
  | 0, _, _ => []
  | budget + 1, thread, world =>
    if thread.script.codeEnd ≤ thread.pc then []
    else
      let s := (step id thread world).value
      let executed : Executed := ⟨instructionAt thread world, s.ending⟩
      match s.ending with
      | .went .next => executed :: trace id budget s.thread s.world
      | .halted _ => []
      | _ => [executed]

variable {id : ThreadId} {budget : Nat} {thread : Thread} {world : World σ}

theorem length_trace :
    (trace id budget thread world).length = (runFor id budget thread world).value.executed := by
  induction budget generalizing thread world with
  | zero => rfl
  | succ budget ih =>
    rw [trace, runFor_succ_value]
    split
    · rfl
    · generalize (step id thread world).value = s
      obtain ⟨ending, thread', world'⟩ := s
      rcases ending with flow | _ | _
      · cases flow with
        | next => exact congrArg (· + 1) ih
        | yield | suspend | exit => rfl
        | wait condition => rfl
      · rfl
      · rfl

theorem runFor_codeEnd (h : thread.script.codeEnd ≤ thread.pc) :
    (runFor id (budget + 1) thread world).value = ⟨thread.terminate, world, 0, 0, none⟩ := by
  rw [runFor_succ_value, if_pos h]

theorem runFor_next (h : ¬ thread.script.codeEnd ≤ thread.pc)
    (hending : (step id thread world).value.ending = .went .next) :
    (runFor id (budget + 1) thread world).value =
      (runFor id budget (step id thread world).value.thread
        (step id thread world).value.world).value.afterStep := by
  rw [runFor_succ_value, if_neg h]
  simp only [hending]

theorem runFor_last (h : ¬ thread.script.codeEnd ≤ thread.pc)
    (hending : (step id thread world).value.ending ≠ .went .next) :
    (runFor id (budget + 1) thread world).value = (step id thread world).value.last := by
  rw [runFor_succ_value, if_neg h]
  revert hending
  generalize (step id thread world).value = s
  obtain ⟨ending, thread', world'⟩ := s
  intro hending
  rcases ending with flow | _ | _
  · cases flow with
    | next => exact absurd rfl hending
    | yield | suspend | exit => rfl
    | wait condition => rfl
  · rfl
  · rfl

/-- A calm step that does the same within every budget. -/
structure Smooth (id : ThreadId) (thread : Thread) (world : World σ) : Prop
    extends (step id thread world).value.Calm thread world where
  withBudget : ∀ budget, (step id thread (world.withBudget budget)).value =
    { (step id thread world).value with world := (step id thread world).value.world.withBudget budget }

theorem Smooth.inBudget (h : Smooth id thread world) (b : UInt32) :
    Smooth id thread (world.withBudget b) where
  toCalm := by
    rw [h.withBudget b]
    exact ⟨h.pool_eq, h.state_eq, h.paused_eq, h.ended⟩
  withBudget c := by
    rw [h.withBudget b]
    exact h.withBudget c

theorem smooth_step (h : (instructionAt thread world).isLifecycle = false ∨
    ∃ halt, (step id thread world).value.ending = .halted halt) : Smooth id thread world := by
  cases hop : (thread.cursorAt thread.pc).opcode with
  | error d =>
    have hstep (w : World σ) :
        (step id thread w).value = ⟨.halted ⟨id, thread.pc, d⟩, thread, w⟩ := by
      rw [step_value, hop]
    refine ⟨?_, fun budget => by rw [hstep, hstep]⟩
    rw [hstep]
    exact ⟨rfl, fun _ => rfl, fun _ => rfl, fun _ => .inr ⟨_, rfl⟩⟩
  | ok p =>
    obtain ⟨opcode, rest⟩ := p
    let i := world.shared.options.instructionSet.instruction opcode
    let t : Turn σ := ⟨thread, thread.pc + 2, world⟩
    have hi : instructionAt thread world = i := by rw [instructionAt, hop]
    have hstep : (step id thread world).value = stepResult id thread.pc ((i.run opcode).result t) := by
      rw [step_value, hop]
    have hfollows : ∀ s, Exec.Follows s t (i.run opcode) (i.run opcode) := by
      intro s
      -- An instruction that halts is not in the trace, so it may be one that works on threads.
      rcases h with h | ⟨halt, h⟩
      · exact Instruction.follows_run opcode i (hi ▸ h)
      · rw [hstep] at h
        generalize hr : (i.run opcode).result t = r at h
        obtain ⟨(d | f) | flow, t'⟩ := r
        · exact Instruction.follows_run_of_defect opcode i (congrArg Prod.fst hr)
        · cases h
        · cases h
    have hsame := Exec.surroundings_eq hfollows
    refine ⟨by rw [hstep]; exact StepOutcome.calm_stepResult id thread.pc hsame, fun budget => ?_⟩
    have hrun : (i.run opcode).result ⟨thread, thread.pc + 2, world.withBudget budget⟩ =
        (((i.run opcode).result t).1, ((i.run opcode).result t).2.within { t.surroundings with budget }) :=
      hfollows { t.surroundings with budget }
    have hstep' : (step id thread (world.withBudget budget)).value = stepResult id thread.pc
        ((i.run opcode).result ⟨thread, thread.pc + 2, world.withBudget budget⟩) := by
      rw [step_value, hop]
    rw [hstep', hrun, hstep, ← hsame]
    generalize (i.run opcode).result t = r
    obtain ⟨(d | f) | flow, t'⟩ := r <;> rfl

/-- Only `Yield` and `Suspend` give up the turn without a condition. -/
theorem ending_ne (hyield : instructionAt thread world ≠ .yield)
    (hsuspend : instructionAt thread world ≠ .suspend) :
    (step id thread world).value.ending ≠ .went .yield ∧
      (step id thread world).value.ending ≠ .went .suspend := by
  rw [step_value]
  unfold instructionAt at hyield hsuspend
  cases hop : (thread.cursorAt thread.pc).opcode with
  | error d => exact ⟨StepEnd.noConfusion, StepEnd.noConfusion⟩
  | ok p =>
    rw [hop] at hyield hsuspend
    have hgives := Instruction.gives_run p.1 _ hyield hsuspend ⟨thread, thread.pc + 2, world⟩
    dsimp only at hgives ⊢
    generalize Exec.result _ _ = r at hgives
    obtain ⟨(d | f) | flow, t⟩ := r
    · exact ⟨StepEnd.noConfusion, StepEnd.noConfusion⟩
    · exact ⟨StepEnd.noConfusion, StepEnd.noConfusion⟩
    · obtain ⟨hy, hs⟩ := hgives flow rfl
      exact ⟨fun h => hy (StepEnd.went.inj h), fun h => hs (StepEnd.went.inj h)⟩

/-- A run that goes smoothly until its budget is used up, its code ends or a step ends it. -/
inductive Steady (id : ThreadId) : Nat → Thread → World σ → Prop
  | zero {thread : Thread} {world : World σ} : Steady id 0 thread world
  | codeEnd {budget : Nat} {thread : Thread} {world : World σ} (h : thread.script.codeEnd ≤ thread.pc) :
      Steady id (budget + 1) thread world
  | next {budget : Nat} {thread : Thread} {world : World σ} (h : ¬ thread.script.codeEnd ≤ thread.pc)
      (hsmooth : Smooth id thread world) (hending : (step id thread world).value.ending = .went .next)
      (hrest : Steady id budget (step id thread world).value.thread (step id thread world).value.world) :
      Steady id (budget + 1) thread world
  | last {budget : Nat} {thread : Thread} {world : World σ} (h : ¬ thread.script.codeEnd ≤ thread.pc)
      (hsmooth : Smooth id thread world) (hends : (step id thread world).value.Ends) :
      Steady id (budget + 1) thread world

namespace Steady

theorem of_trace (h : ∀ e ∈ trace id budget thread world, e.Undisturbing) :
    Steady id budget thread world := by
  induction budget generalizing thread world with
  | zero => exact .zero
  | succ budget ih =>
    by_cases hend : thread.script.codeEnd ≤ thread.pc
    · exact .codeEnd hend
    · rw [trace, if_neg hend] at h
      have hsmooth (e : Executed) (he : e.Undisturbing) (hi : e.instruction = instructionAt thread world) :
          Smooth id thread world := smooth_step (.inl (hi ▸ he.not_lifecycle))
      cases hending : (step id thread world).value.ending with
      | went flow =>
        simp only [hending] at h
        cases flow with
        | next =>
          have hfirst := h _ List.mem_cons_self
          exact .next hend (hsmooth _ hfirst rfl) hending (ih fun e he => h e (List.mem_cons_of_mem _ he))
        | exit => exact .last hend (hsmooth _ (h _ List.mem_cons_self) rfl) (.inl hending)
        | yield =>
          have hfirst := h _ List.mem_cons_self
          exact absurd hending (ending_ne hfirst.not_yield hfirst.not_suspend).1
        | suspend =>
          have hfirst := h _ List.mem_cons_self
          exact absurd hending (ending_ne hfirst.not_yield hfirst.not_suspend).2
        | wait condition => exact absurd rfl ((h _ List.mem_cons_self).not_wait condition)
      | faulted =>
        simp only [hending] at h
        exact .last hend (hsmooth _ (h _ List.mem_cons_self) rfl) (.inr (.inl hending))
      | halted halt =>
        exact .last hend (smooth_step (.inr ⟨halt, hending⟩)) (.inr (.inr ⟨halt, hending⟩))

theorem inBudget (h : Steady id budget thread world) (b : UInt32) :
    Steady id budget thread (world.withBudget b) := by
  induction h with
  | zero => exact .zero
  | codeEnd h => exact .codeEnd h
  | next h hsmooth hending _ ih =>
    have hstep := hsmooth.withBudget b
    refine .next h (hsmooth.inBudget b) (by rw [hstep]; exact hending) ?_
    rw [hstep]
    exact ih
  | last h hsmooth hends =>
    have hstep := hsmooth.withBudget b
    exact .last h (hsmooth.inBudget b) (by rw [hstep]; exact hends)

theorem withBudget (h : Steady id budget thread world) (b : UInt32) :
    (runFor id budget thread (world.withBudget b)).value =
      (runFor id budget thread world).value.withBudget b := by
  induction h with
  | zero => rfl
  | codeEnd h =>
    rw [runFor_codeEnd h, runFor_codeEnd h]
    rfl
  | next h hsmooth hending _ ih =>
    have hstep := hsmooth.withBudget b
    rw [runFor_next h hending, runFor_next h (by rw [hstep]; exact hending), hstep, ih]
    rfl
  | @last budget thread world h hsmooth hends =>
    have hstep := hsmooth.withBudget b
    rw [runFor_last h hends.ne_next, runFor_last h (by rw [hstep]; exact hends.ne_next), hstep]
    generalize (step id thread world).value = s
    obtain ⟨_ | _ | _, thread', world'⟩ := s <;> rfl

theorem pool_eq (h : Steady id budget thread world) :
    (runFor id budget thread world).value.world.shared.pool = world.shared.pool := by
  induction h with
  | zero => rfl
  | codeEnd h => rw [runFor_codeEnd h]
  | next h hsmooth hending _ ih =>
    rw [runFor_next h hending]
    exact ih.trans hsmooth.pool_eq
  | @last budget thread world h hsmooth hends =>
    rw [runFor_last h hends.ne_next, ← hsmooth.pool_eq]
    generalize (step id thread world).value = s
    obtain ⟨_ | _ | _, thread', world'⟩ := s <;> rfl

theorem of_add {first rest : Nat} (h : Steady id (first + rest) thread world) :
    Steady id first thread world := by
  induction first generalizing thread world with
  | zero => exact .zero
  | succ first ih =>
    rw [Nat.succ_add] at h
    cases h with
    | codeEnd h => exact .codeEnd h
    | next h hsmooth hending hrest => exact .next h hsmooth hending (ih hrest)
    | last h hsmooth hends => exact .last h hsmooth hends

/-- A steady run can be cut after any number of instructions: either the first part is over and is the whole
run, or the rest of the budget takes the run from there to the same outcome. -/
theorem cut {first rest : Nat} (h : Steady id (first + rest) thread world)
    (hstate : thread.state = .running) (hpaused : thread.paused = false) :
    let o := (runFor id first thread world).value
    (o.Unfinished ∧ Steady id rest o.thread o.world ∧
        (runFor id (first + rest) thread world).value =
          o.followedBy (runFor id rest o.thread o.world).value) ∨
      (o.Over ∧ (runFor id (first + rest) thread world).value = o) := by
  induction first generalizing thread world with
  | zero =>
    rw [Nat.zero_add] at h ⊢
    refine .inl ⟨⟨rfl, hstate, hpaused⟩, h, ?_⟩
    simp only [runFor_zero_value, TurnOutcome.followedBy, Nat.zero_add]
  | succ first ih =>
    rw [Nat.succ_add] at h ⊢
    cases h with
    | codeEnd h =>
      rw [runFor_codeEnd h, runFor_codeEnd h]
      exact .inr ⟨.inr rfl, rfl⟩
    | next h hsmooth hending hrest =>
      rw [runFor_next h hending, runFor_next h hending]
      rcases ih hrest ((hsmooth.state_eq hending).trans hstate) ((hsmooth.paused_eq hending).trans hpaused)
        with ⟨hopen, hsteady, hrun⟩ | ⟨hover, hrun⟩
      · refine .inl ⟨⟨hopen.halt_eq, hopen.state_eq, hopen.paused_eq⟩, hsteady, ?_⟩
        rw [hrun, TurnOutcome.followedBy_afterStep]
        rfl
      · exact .inr ⟨hover, congrArg TurnOutcome.afterStep hrun⟩
    | last h hsmooth hends =>
      rw [runFor_last h hends.ne_next, runFor_last h hends.ne_next]
      exact .inr ⟨hsmooth.over_last hends, rfl⟩

end Steady
end
end NovelEngine
