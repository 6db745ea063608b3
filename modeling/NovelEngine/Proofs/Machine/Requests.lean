import NovelEngine.Proofs.Machine.Tick

/-!
# Requests go unread

No instruction looks at what has been asked to be done to threads, and none changes how many instructions a turn
may have. Requests only come to bear when the turns are over.
-/
namespace NovelEngine

variable {σ α β : Type}

/-- What is made of the requests after each instruction. -/
abbrev Edit := List LifecycleRequest → List LifecycleRequest

def Edit.leave : Edit := fun requests => requests

def World.editing (w : World σ) (edit : Edit) : World σ :=
  { w with shared.requests := edit w.shared.requests }

def World.idle (w : World σ) : World σ := w.editing fun _ => []

def World.budget (w : World σ) : UInt32 := w.shared.options.instructionsPerTick

def Turn.idle (t : Turn σ) : Turn σ := { t with world := t.world.idle }

namespace Exec

variable {x : Exec σ α} {f : α → Exec σ β}

/-- The computation neither reads the requests nor changes the budget. -/
structure Heedless (x : Exec σ α) : Prop where
  value_eq : ∀ t, (x.result t.idle).1 = (x.result t).1
  idle_eq : ∀ t, (x.result t.idle).2.idle = (x.result t).2.idle
  budget_eq : ∀ t, (x.result t).2.world.budget = t.world.budget

theorem Heedless.bind (h : x.Heedless) (hf : ∀ a, (f a).Heedless) : (x >>= f).Heedless := by
  have hboth (t : Turn σ) : ((x >>= f).result t.idle).1 = ((x >>= f).result t).1 ∧
      ((x >>= f).result t.idle).2.idle = ((x >>= f).result t).2.idle ∧
      ((x >>= f).result t).2.world.budget = t.world.budget := by
    have hvalue := h.value_eq t
    have hidle := h.idle_eq t
    have hbudget := h.budget_eq t
    rw [result_bind, result_bind]
    revert hvalue hidle hbudget
    obtain ⟨r, t₁⟩ := x.result t
    obtain ⟨r', t₂⟩ := x.result t.idle
    intro hvalue hidle hbudget
    obtain rfl : r' = r := hvalue
    have hidle : t₂.idle = t₁.idle := hidle
    have hbudget : t₁.world.budget = t.world.budget := hbudget
    cases r' with
    | error e => exact ⟨rfl, hidle, hbudget⟩
    | ok a =>
      refine ⟨?_, ?_, ?_⟩
      · show ((f a).result t₂).1 = ((f a).result t₁).1
        rw [← (hf a).value_eq t₂, hidle, (hf a).value_eq]
      · show ((f a).result t₂).2.idle = ((f a).result t₁).2.idle
        rw [← (hf a).idle_eq t₂, hidle, (hf a).idle_eq]
      · show ((f a).result t₁).2.world.budget = t.world.budget
        rw [(hf a).budget_eq, hbudget]
  exact ⟨fun t => (hboth t).1, fun t => (hboth t).2.1, fun t => (hboth t).2.2⟩

theorem heedless_of_follows (h : ∀ t s, Follows s t x x) : x.Heedless := by
  have hsame (t : Turn σ) := surroundings_eq (h t)
  have hfollows (t : Turn σ) : x.result t.idle =
      ((x.result t).1, (x.result t).2.within { t.surroundings with requests := [] }) :=
    h t { t.surroundings with requests := [] }
  refine ⟨?_, ?_, ?_⟩
  · intro t
    rw [hfollows]
  · intro t
    rw [hfollows, ← hsame t]
    rfl
  · intro t
    exact congrArg Surroundings.budget (hsame t)

theorem heedless_pure (a : α) : (pure a : Exec σ α).Heedless := ⟨fun _ => rfl, fun _ => rfl, fun _ => rfl⟩

theorem heedless_request (r : LifecycleRequest) : (request r : Exec σ Unit).Heedless :=
  ⟨fun _ => rfl, fun _ => rfl, fun _ => rfl⟩

end Exec

theorem Shared.spawn_idle (s : Shared) (buffer : Int) (label : Int32) :
    ({ s with requests := [] } : Shared).spawn buffer label =
      (s.spawn buffer label).map fun p => (p.1, { p.2 with requests := [] }) := by
  have hscript : ({ s with requests := [] } : Shared).script? buffer = s.script? buffer := rfl
  unfold Shared.spawn
  rw [hscript]
  split
  · rfl
  · split
    · rfl
    · dsimp only
      split <;> rfl

namespace Instruction

open Exec

theorem heedless_create (buffer label : Int32) : (create buffer label : Exec σ Flow).Heedless := by
  have hspawn (t : Turn σ) : t.idle.world.shared.spawn buffer.toInt label =
      (t.world.shared.spawn buffer.toInt label).map fun p => (p.1, { p.2 with requests := [] }) :=
    Shared.spawn_idle t.world.shared buffer.toInt label
  refine ⟨?_, ?_, ?_⟩
  · intro t
    rw [result_create, result_create, hspawn]
    cases t.world.shared.spawn buffer.toInt label <;> rfl
  · intro t
    rw [result_create, result_create, hspawn]
    cases t.world.shared.spawn buffer.toInt label <;> rfl
  · intro t
    rw [result_create]
    cases h : t.world.shared.spawn buffer.toInt label with
    | error f => rfl
    | ok p =>
      obtain ⟨thread, -, -, hshared⟩ := Shared.spawn_eq_ok (show _ = Except.ok (p.1, p.2) from h)
      show p.2.options.instructionsPerTick = t.world.budget
      rw [hshared]
      rfl

variable [Stage σ]

theorem heedless_run (opcode : UInt16) (i : Instruction) : (i.run opcode : Exec σ Flow).Heedless := by
  refine run_induction ?_ ?_ ?_ heedless_create opcode i
  · exact fun x hx => heedless_of_follows fun t s => hx s t
  · exact fun f hf => (heedless_of_follows fun _ _ => follows_expr).bind hf
  · exact fun r hr => (heedless_request r).bind fun _ => heedless_pure _

end Instruction

def StepOutcome.idle (s : StepOutcome σ) : StepOutcome σ := { s with world := s.world.idle }

theorem idle_stepResult (id : ThreadId) (start : Nat) (r : Except Failure Flow) (t : Turn σ) :
    (stepResult id start (r, t)).idle = (stepResult id start (r, t.idle)).idle := by
  obtain (_ | _) | _ := r <;> rfl

section

variable [Stage σ] (id : ThreadId) (thread : Thread) (world : World σ)

/-- A step is the same whatever has been asked before. -/
theorem step_idle : (step id thread world.idle).value.idle = (step id thread world).value.idle := by
  rw [step_value, step_value]
  cases (thread.cursorAt thread.pc).opcode with
  | error d => rfl
  | ok p =>
    let x : Exec σ Flow := (world.shared.options.instructionSet.instruction p.1).run p.1
    let t : Turn σ := ⟨thread, thread.pc + 2, world⟩
    have hrun : x.Heedless := Instruction.heedless_run _ _
    have hvalue : (x.result t.idle).1 = (x.result t).1 := hrun.value_eq t
    have hidle : (x.result t.idle).2.idle = (x.result t).2.idle := hrun.idle_eq t
    show (stepResult id thread.pc (x.result t.idle)).idle = (stepResult id thread.pc (x.result t)).idle
    generalize x.result t.idle = r' at hvalue hidle ⊢
    generalize x.result t = r at hvalue hidle ⊢
    obtain ⟨value', t'⟩ := r'
    obtain ⟨value, t''⟩ := r
    obtain rfl : value' = value := hvalue
    have hidle : t'.idle = t''.idle := hidle
    rw [idle_stepResult, hidle, ← idle_stepResult]

theorem budget_step : (step id thread world).value.world.budget = world.budget :=
  world_step (P := fun w => w.budget = world.budget) rfl
    (fun opcode i => (Instruction.heedless_run opcode i).budget_eq ⟨thread, thread.pc + 2, world⟩) id

end
end NovelEngine
