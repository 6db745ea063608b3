import NovelEngine.Proofs.Machine.Operands

/-!
# What stops a thread

An instruction that makes its thread wait or suspends it has read its operands and changed nothing but variables. So the
thread stands right behind the instruction, with the calls that it had. Nothing else stops a thread, and a thread that
is not running executes nothing more in its turn.
-/
namespace NovelEngine

variable {σ : Type}

def ThreadState.isStopped : ThreadState → Bool
  | waiting _ | suspended => true
  | running | terminated => false

/-- The instruction with these operands stops its thread in this state. The flag that it waits for is there and clear,
and the slot is loading. -/
inductive Instruction.Stops (globals : Globals) (status : SlotKey → LoadStatus) :
    Instruction → Bytes → ThreadState → Prop
  | wait (millis : Expr) (remaining : Single) :
    Stops globals status .wait (millis.encode ++ [0]) (.waiting (.timer remaining))
  | signalWait (index : Expr) {flag : UInt32} (hflag : globals.flag flag.toNat = .ok false) :
    Stops globals status .signalWait (index.encode ++ [0]) (.waiting (.signal flag))
  | loadWait (category : UInt8) (index : Expr) {slot : SlotKey} (hslot : status slot = .loading) :
    Stops globals status .loadWait ([category] ++ (index.encode ++ [0])) (.waiting (.resource slot))
  | suspend : Stops globals status .suspend [] .suspended

def Flow.stop? : Flow → Option ThreadState
  | .wait condition => some (.waiting condition)
  | .suspend => some .suspended
  | .next | .yield | .exit => none

theorem Thread.follow_of_stop? {t : Thread} {pc : Nat} {flow : Flow} {state : ThreadState}
    (h : flow.stop? = some state) : t.follow pc flow = { t with pc, state } := by
  cases flow <;> cases h <;> rfl

theorem toNat_toUInt32_of_nonneg {a : Int32} (h : 0 ≤ a.toInt) : (a.toUInt32.toNat : Int) = a.toInt := by
  have hbits : a.toInt = a.toBitVec.toInt := rfl
  have hnat : a.toUInt32.toNat = a.toBitVec.toNat := rfl
  rw [hbits, BitVec.toInt_eq_toNat_cond] at h ⊢
  rw [hnat]
  split at h
  · split
    · rfl
    · contradiction
  · have hlt := a.toBitVec.isLt
    omega

theorem Globals.flag_toUInt32 {globals : Globals} {index : Int32} {set : Bool}
    (h : globals.flag index.toInt = .ok set) : globals.flag index.toUInt32.toNat = .ok set := by
  have hindex : 0 ≤ index.toInt := by
    cases hplace : index.toInt with
    | ofNat n => exact Int.natCast_nonneg n
    | negSucc n =>
      rw [hplace] at h
      cases h
  rw [toNat_toUInt32_of_nonneg hindex]
  exact h

namespace Instruction

open Exec

variable [Stage σ] {t t' : Turn σ} {flow : Flow} {state : ThreadState}

/-- The instruction stops its thread in this state and has read its operands. -/
def StopsTurn (i : Instruction) (t t' : Turn σ) (state : ThreadState) : Prop :=
  ∃ es operands, i.Stops t'.world.shared.globals (Stage.status t'.world.stage) operands state ∧
    t.Passes es operands t'

theorem stopsTurn_wait (opcode : UInt16) (h : (wait.run opcode).result t = (.ok flow, t'))
    (hstop : flow.stop? = some state) : wait.StopsTurn t t' state := by
  obtain ⟨millis, t₁, hmillis, hrest⟩ := exists_of_bind h
  cases hrest
  cases hstop
  obtain ⟨e, hpasses⟩ := passes_expr hmillis
  exact ⟨_, _, .wait e _, hpasses⟩

theorem stopsTurn_signalWait (opcode : UInt16) (h : (signalWait.run opcode).result t = (.ok flow, t'))
    (hstop : flow.stop? = some state) : signalWait.StopsTurn t t' state := by
  obtain ⟨index, t₁, hindex, hrest⟩ := exists_of_bind h
  obtain ⟨e, hpasses⟩ := passes_expr hindex
  simp only [result_bind, result_shared, result_checked] at hrest
  cases hflag : t₁.world.shared.globals.flag index.toInt with
  | error d =>
    rw [hflag] at hrest
    cases hrest
  | ok set =>
    rw [hflag] at hrest
    cases set with
    | true =>
      cases hrest
      cases hstop
    | false =>
      cases hrest
      cases hstop
      exact ⟨_, _, .signalWait e (Globals.flag_toUInt32 hflag), hpasses⟩

theorem stopsTurn_loadWait (opcode : UInt16) (h : (loadWait.run opcode).result t = (.ok flow, t'))
    (hstop : flow.stop? = some state) : loadWait.StopsTurn t t' state := by
  obtain ⟨code, t₁, hcode, hrest⟩ := exists_of_bind h
  obtain ⟨index, t₂, hindex, hrest⟩ := exists_of_bind hrest
  obtain ⟨e, hpasses⟩ := passes_expr hindex
  cases hcategory : Category.ofCode? code with
  | none =>
    rw [hcategory] at hrest
    cases hrest
    cases hstop
  | some category =>
    rw [hcategory] at hrest
    replace hrest : (if (Stage.status t₂.world.stage ⟨category, index.toUInt32⟩).isSettled then
        setResult (Stage.status t₂.world.stage ⟨category, index.toUInt32⟩).scriptCode >>= fun _ => pure .next
      else pure (.wait (.resource ⟨category, index.toUInt32⟩)) : Exec σ Flow).result t₂ = (.ok flow, t') := hrest
    split at hrest
    · cases hrest
      cases hstop
    · rename_i hsettled
      have hloading : Stage.status t₂.world.stage ⟨category, index.toUInt32⟩ = .loading := by
        simpa [LoadStatus.isSettled] using hsettled
      cases hrest
      cases hstop
      exact ⟨_, _, .loadWait code e hloading, (passes_readU8 hcode).trans hpasses⟩

theorem stopsTurn_run {i : Instruction} (opcode : UInt16) (h : (i.run opcode).result t = (.ok flow, t'))
    (hstop : flow.stop? = some state) : i.StopsTurn t t' state := by
  by_cases hwait : i = .wait
  · subst hwait
    exact stopsTurn_wait opcode h hstop
  by_cases hsignal : i = .signalWait
  · subst hsignal
    exact stopsTurn_signalWait opcode h hstop
  by_cases hload : i = .loadWait
  · subst hload
    exact stopsTurn_loadWait opcode h hstop
  by_cases hsuspend : i = .suspend
  · subst hsuspend
    cases h
    cases hstop
    exact ⟨_, _, .suspend, .refl t⟩
  -- no other instruction stops its thread
  · have hgives : Gives (fun flow => flow.stop? = none) (i.run opcode : Exec σ Flow) := by
      apply gives_flow
      · rfl
      · exact fun _ => rfl
      · exact fun _ => rfl
      · exact fun heq => absurd heq hsuspend
      · intro heq
        simp [hwait, hsignal, hload] at heq
    have hnone := hgives t flow (congrArg Prod.fst h)
    rw [hnone] at hstop
    cases hstop

end Instruction

/-- The instruction at the position of the thread has stopped it: the thread stands right behind its bytes, with the
calls that it had. -/
structure StepOutcome.Stops [Stage σ] (s : StepOutcome σ) (thread : Thread) (world : World σ) : Prop where
  behind : ∃ opcode operands, opcode.length = 2 ∧
    (instructionAt thread world).Stops s.world.shared.globals (Stage.status s.world.stage) operands s.thread.state ∧
    opcode ++ operands <+: thread.script.code.drop thread.pc ∧
    s.thread.pc = thread.pc + (opcode ++ operands).length
  script_eq : s.thread.script = thread.script
  calls_eq : s.thread.calls = thread.calls

theorem exists_stop?_of_stepResult (id : ThreadId) (start : Nat) {r : Except Failure Flow} {t : Turn σ}
    (hrunning : t.thread.state = .running) (hstopped : (stepResult id start (r, t)).thread.state.isStopped = true) :
    ∃ flow state, r = .ok flow ∧ flow.stop? = some state := by
  rcases r with (d | f) | flow
  · replace hstopped : t.thread.state.isStopped = true := hstopped
    rw [hrunning] at hstopped
    cases hstopped
  · cases hstopped
  · cases flow with
    | next | yield =>
      replace hstopped : t.thread.state.isStopped = true := hstopped
      rw [hrunning] at hstopped
      cases hstopped
    | exit => cases hstopped
    | wait condition => exact ⟨_, _, rfl, rfl⟩
    | suspend => exact ⟨_, _, rfl, rfl⟩

theorem StepOutcome.thread_last (s : StepOutcome σ) : s.last.thread = s.thread := by
  obtain ⟨_ | _ | _, thread, world⟩ := s <;> rfl

section

variable [Stage σ] {id : ThreadId} {thread : Thread} {world : World σ}

theorem state_step_next (h : (step id thread world).value.ending = .went .next) :
    (step id thread world).value.thread.state = thread.state := by
  rw [step_value] at h ⊢
  cases hopcode : (thread.cursorAt thread.pc).opcode with
  | error d => rfl
  | ok p =>
    rw [hopcode] at h
    have hstate := (Exec.acts_run p.1 (world.shared.options.instructionSet.instruction p.1)
      ⟨thread, thread.pc + 2, world⟩).state_eq
    dsimp only at h hstate ⊢
    revert h hstate
    generalize Exec.result _ _ = r
    obtain ⟨(d | f) | flow, t⟩ := r
    · intro h
      cases h
    · intro h
      cases h
    · intro h hstate
      cases h
      exact hstate

/-- Nothing but an instruction that stops threads makes a thread stop. -/
theorem stops_step (hrunning : thread.state = .running)
    (hstopped : (step id thread world).value.thread.state.isStopped = true) :
    (step id thread world).value.Stops thread world := by
  rw [step_value] at hstopped ⊢
  cases hopcode : (thread.cursorAt thread.pc).opcode with
  | error d =>
    rw [hopcode] at hstopped
    replace hstopped : thread.state.isStopped = true := hstopped
    rw [hrunning] at hstopped
    cases hstopped
  | ok p =>
    let i := world.shared.options.instructionSet.instruction p.1
    let t : Turn σ := ⟨thread, thread.pc + 2, world⟩
    have hat : instructionAt thread world = i := by rw [instructionAt, hopcode]
    rw [hopcode] at hstopped
    replace hstopped : (stepResult id thread.pc ((i.run p.1).result t)).thread.state.isStopped = true := hstopped
    show (stepResult id thread.pc ((i.run p.1).result t)).Stops thread world
    have hstate : ((i.run p.1).result t).2.thread.state = .running := (Exec.acts_run p.1 i t).state_eq.trans hrunning
    cases hr : (i.run p.1).result t with
    | mk r t' =>
      rw [hr] at hstopped hstate
      obtain ⟨flow, state, rfl, hstop⟩ := exists_stop?_of_stepResult id thread.pc hstate hstopped
      obtain ⟨es, operands, hoperands, hreads⟩ := Instruction.stopsTurn_run p.1 hr hstop
      obtain ⟨opcode, hlength, hpasses⟩ := exists_passes_of_opcode hopcode
      -- the operands begin where the opcode ends
      have hbehind : p.2.pos = thread.pc + 2 := by rw [hpasses.pos_eq, hlength]; rfl
      rw [Thread.cursorAt_of_passes hpasses, hbehind] at hpasses
      have hall := hpasses.append hreads.passes
      rw [stepResult, Thread.follow_of_stop? hstop]
      refine ⟨⟨opcode, operands, hlength, hat ▸ hoperands, ?_, hall.pos_eq⟩, hreads.script_eq, hreads.calls_eq⟩
      have hrest : thread.script.codeFrom thread.pc = _ := hall.rest_eq
      rw [Script.codeFrom_eq_drop] at hrest
      exact ⟨_, hrest.symm⟩

/-- A run that stops its thread has been stopped by the instruction at one of its boundaries. -/
theorem exists_stops_of_runFor {budget : Nat} (hrunning : thread.state = .running)
    (hstopped : (runFor id budget thread world).value.thread.state.isStopped = true) :
    ∃ executed < budget, let b := (runFor id executed thread world).value
      let s := (step id b.thread b.world).value
      b.thread.state = .running ∧ s.Stops b.thread b.world ∧
        (runFor id budget thread world).value.thread = s.thread := by
  induction budget generalizing thread world with
  | zero =>
    rw [runFor_zero_value, hrunning] at hstopped
    cases hstopped
  | succ budget ih =>
    by_cases hend : thread.script.codeEnd ≤ thread.pc
    · rw [runFor_codeEnd hend] at hstopped
      cases hstopped
    by_cases hnext : (step id thread world).value.ending = .went .next
    · rw [runFor_next hend hnext] at hstopped ⊢
      obtain ⟨executed, hlt, hb, hstops, hthread⟩ := ih ((state_step_next hnext).trans hrunning) hstopped
      refine ⟨executed + 1, Nat.succ_lt_succ hlt, ?_⟩
      rw [runFor_next hend hnext]
      exact ⟨hb, hstops, hthread⟩
    · rw [runFor_last hend hnext, StepOutcome.thread_last] at hstopped ⊢
      exact ⟨0, Nat.succ_pos budget, hrunning, stops_step hrunning hstopped, rfl⟩

theorem runFor_eq_of_le {first budget : Nat} (hrunning : thread.state = .running)
    (hleft : (runFor id first thread world).value.thread.state ≠ .running) (hle : first ≤ budget) :
    (runFor id budget thread world).value = (runFor id first thread world).value := by
  induction first generalizing budget thread world with
  | zero => exact absurd hrunning hleft
  | succ first ih =>
    obtain ⟨budget, rfl⟩ : ∃ n, budget = n + 1 := ⟨budget - 1, by omega⟩
    by_cases hend : thread.script.codeEnd ≤ thread.pc
    · rw [runFor_codeEnd hend, runFor_codeEnd hend]
    by_cases hnext : (step id thread world).value.ending = .went .next
    · rw [runFor_next hend hnext] at hleft
      rw [runFor_next hend hnext, runFor_next hend hnext]
      apply congrArg TurnOutcome.afterStep
      exact ih ((state_step_next hnext).trans hrunning) hleft (Nat.le_of_succ_le_succ hle)
    · rw [runFor_last hend hnext, runFor_last hend hnext]

end
end NovelEngine
