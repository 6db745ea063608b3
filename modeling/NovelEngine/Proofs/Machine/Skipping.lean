import NovelEngine.Proofs.Machine.Blocking
import NovelEngine.Proofs.Machine.Failures
import NovelEngine.Proofs.Machine.Seniority

/-!
# Instructions without an effect of their own

An opcode that nothing is known of, or that is known to do nothing, is passed over. An instruction of which only the
operands are known passes over these as well; but it evaluates them, so the variables that they write are written.
-/
namespace NovelEngine

variable {σ : Type}

/-- The operands that an instruction without an effect of its own reads, and their bytes. -/
inductive Instruction.Operands : Instruction → List Expr → Bytes → Prop
  | stub0207 (buffer : Expr) (second : UInt8) : Operands .stub0207 [buffer] (buffer.encode ++ [0] ++ [second])
  | stub0208 (values : List Expr) (h : values.length = 5) :
    Operands .stub0208 values (values.flatMap fun e => e.encode ++ [0])
  | stub0219 (buffer : Expr) : Operands .stub0219 [buffer] (buffer.encode ++ [0])
  | nothing {i : Instruction} (h : i.kind = .empty ∨ i.kind = .unknown) : Operands i [] []

namespace Instruction

open Exec

variable [Stage σ] {i : Instruction} {t t' : Turn σ} {flow : Flow}

/-- An instruction without an effect of its own goes on to the next one and has read its operands. -/
theorem passes_run (opcode : UInt16) (hkind : i.kind ≠ .implemented) (h : (i.run opcode).result t = (.ok flow, t')) :
    flow = .next ∧ ∃ operands chunk, i.Operands operands chunk ∧ t.Passes operands chunk t' := by
  cases i with
  | empty0204 | characterSwap | empty02xx | empty0240 =>
    cases h
    exact ⟨rfl, [], [], .nothing (.inl rfl), .refl t⟩
  | unknown =>
    cases h
    exact ⟨rfl, [], [], .nothing (.inr rfl), .refl t⟩
  | stub0207 =>
    obtain ⟨buffer, t₁, hbuffer, hrest⟩ := exists_of_bind h
    obtain ⟨second, t₂, hsecond, hreport⟩ := exists_of_bind hrest
    cases hreport
    obtain ⟨e, hpasses⟩ := passes_expr hbuffer
    exact ⟨rfl, _, _, .stub0207 e second, hpasses.trans (passes_readU8 hsecond)⟩
  | stub0208 =>
    obtain ⟨values, t₁, hvalues, hreport⟩ := exists_of_bind h
    cases hreport
    obtain ⟨es, hlength, hpasses⟩ := passes_operands hvalues
    exact ⟨rfl, _, _, .stub0208 es hlength, hpasses⟩
  | stub0219 =>
    obtain ⟨buffer, t₁, hbuffer, hreport⟩ := exists_of_bind h
    cases hreport
    obtain ⟨e, hpasses⟩ := passes_expr hbuffer
    exact ⟨rfl, _, _, .stub0219 e, hpasses⟩
  | _ => exact absurd rfl hkind

theorem succeeds_run (opcode : UInt16) (h : i.kind = .empty ∨ i.kind = .unknown) :
    Succeeds (i.run opcode : Exec σ Flow) := by
  cases i with
  | empty0204 | characterSwap | empty02xx | empty0240 => exact succeeds_pure _
  | unknown => exact succeeds_get.bind fun _ => (succeeds_log _ _ _).bind fun _ => succeeds_pure _
  | _ => rcases h with h | h <;> cases h

end Instruction

variable [Stage σ] {id : ThreadId} {thread : Thread} {world : World σ} {opcode : UInt16} {c : Cursor}

/-- What becomes of a step at an instruction without an effect of its own: either an operand cannot be read, or the
thread stands behind the operands and nothing but the variables that these write has changed. -/
inductive StepOutcome.Skips (s : StepOutcome σ) (id : ThreadId) (thread : Thread) (world : World σ) (i : Instruction) :
    Prop
  | failed (d : Defect) (hstub : i.kind = .stub) (h : s.ending = .halted ⟨id, thread.pc, d⟩)
  | passed (operands : List Expr) (chunk : Bytes) (hoperands : i.Operands operands chunk)
    (hchunk : chunk <+: thread.script.code.drop (thread.pc + 2)) (h : s.ending = .went .next)
    (hthread : s.thread = { thread with
      pc := thread.pc + 2 + chunk.length
      locals := (Expr.scopeAfter operands ⟨world.shared.globals, thread.locals, thread.result⟩).locals })
    (hworld : s.world = { world with
      shared.globals := (Expr.scopeAfter operands ⟨world.shared.globals, thread.locals, thread.result⟩).globals })
    (hflags : s.world.shared.globals.flagWords = world.shared.globals.flagWords)
    (hquiet : (∀ e ∈ operands, e.stores = false) →
      s.thread = { thread with pc := thread.pc + 2 + chunk.length } ∧ s.world = world)

/-- An instruction that is not implemented is passed over with its operands and does nothing but evaluate them. -/
theorem skips_step (h : (thread.cursorAt thread.pc).opcode = .ok (opcode, c))
    (hkind : (world.shared.options.instructionSet.instruction opcode).kind ≠ .implemented) :
    (step id thread world).value.Skips id thread world
      (world.shared.options.instructionSet.instruction opcode) := by
  rw [step_value, h]
  let i := world.shared.options.instructionSet.instruction opcode
  let t : Turn σ := ⟨thread, thread.pc + 2, world⟩
  show (stepResult id thread.pc ((i.run opcode).result t)).Skips id thread world i
  have hcall : i ≠ .call := fun heq => hkind (congrArg Instruction.kind heq)
  have hret : i ≠ .ret := fun heq => hkind (congrArg Instruction.kind heq)
  have hcreate : i ≠ .threadCreate := fun heq => hkind (congrArg Instruction.kind heq)
  have hfault := Exec.faultless_run opcode i hcall hret hcreate t
  cases hrun : (i.run opcode).result t with
  | mk r t' =>
    rw [hrun] at hfault
    obtain (d | f) | flow := r
    · refine .failed d ?_ rfl
      cases hwhich : i.kind with
      | implemented => exact absurd hwhich hkind
      | stub => rfl
      | empty =>
        obtain ⟨flow, hok⟩ := Instruction.succeeds_run opcode (.inl hwhich) t
        rw [hrun] at hok
        cases hok
      | unknown =>
        obtain ⟨flow, hok⟩ := Instruction.succeeds_run opcode (.inr hwhich) t
        rw [hrun] at hok
        cases hok
    · exact absurd rfl (hfault f)
    · obtain ⟨rfl, operands, chunk, hoperands, hpasses⟩ := Instruction.passes_run opcode hkind hrun
      have hpos : t'.pc = thread.pc + 2 + chunk.length := hpasses.passes.pos_eq
      have hrest : thread.script.codeFrom (thread.pc + 2) = chunk ++ _ := hpasses.passes.rest_eq
      rw [Script.codeFrom_eq_drop] at hrest
      have hturn := hpasses.turn_eq
      rw [hpos] at hturn
      rw [hturn]
      refine .passed operands chunk hoperands ⟨_, hrest.symm⟩ rfl rfl rfl (Expr.scopeAfter_keeps _ _).2 ?_
      intro hquiet
      rw [Expr.scopeAfter_of_not_stores hquiet]
      exact ⟨rfl, rfl⟩

/-- Five operands are passed over, of which the second one writes a local variable. -/
theorem skips_step_stores :
    let script := Script.build 1 [2, 8, 0x81, 0, 0x82, 0x21, 3, 0, 0x83, 0, 0x84, 0, 0x85, 0, 0, 0] [] []
    let thread := Thread.start script 0 16
    let world : World Recorder := ⟨(Machine.create {} none).value.shared, Recorder.empty⟩
    let s := (step ⟨1, 0⟩ thread world).value
    s.Skips ⟨1, 0⟩ thread world .stub0208 ∧ s.ending = .went .next ∧ s.thread.pc = 30 ∧ s.thread.locals[3] = 2 := by
  intro script thread world s
  have hopcode : (thread.cursorAt thread.pc).opcode = .ok (0x0208, thread.cursorAt 18) := by decide +kernel
  exact ⟨skips_step hopcode (by decide), by decide +kernel, by decide +kernel, by decide +kernel⟩

/-- A number shared by all threads is changed by an instruction whose effect is not known. -/
theorem skips_step_changes_work :
    let script := Script.build 1 [2, 0x19, 0x81, 0x20, 0, 0, 0] [] []
    let thread := Thread.start script 0 16
    let world : World Recorder := ⟨(Machine.create {} none).value.shared, Recorder.empty⟩
    let s := (step ⟨1, 0⟩ thread world).value
    (Instruction.ofOpcode 0x0219).kind = .stub ∧ s.ending = .went .next ∧
      world.shared.globals.numbers[0] = 0 ∧ s.world.shared.globals.numbers[0] = 1 := by
  intro script thread world s
  refine ⟨rfl, by decide +kernel, by decide +kernel, by decide +kernel⟩

end NovelEngine
