import NovelEngine.Proofs.Machine.Confinement
import NovelEngine.Proofs.Machine.Run

/-!
# Calls and returns

A call stores the position that it returns to in a frame, without losing any of it, and a return goes to the position
of the innermost frame. No other instruction changes the frames. So whatever instruction a confined thread executes, it
stays confined.
-/
namespace NovelEngine

variable {σ α β : Type}

/-- The turn has gone on. It has passed nothing but intents on to the stage, and of its thread it has changed nothing
but variables, calls and the last result. -/
structure Turn.Acts [Stage σ] (t t' : Turn σ) : Prop where
  thread_eq : t'.thread =
    { t.thread with locals := t'.thread.locals, calls := t'.thread.calls, result := t'.thread.result }
  stage : Stage.Leads t.world.stage t'.world.stage

namespace Turn

variable [Stage σ] {t t' t'' : Turn σ}

theorem Acts.refl (t : Turn σ) : t.Acts t := ⟨rfl, .refl _⟩

theorem Acts.trans (h : t.Acts t') (h' : t'.Acts t'') : t.Acts t'' := by
  refine ⟨?_, h.stage.trans h'.stage⟩
  rw [h'.thread_eq, h.thread_eq]

theorem Acts.state_eq (h : t.Acts t') : t'.thread.state = t.thread.state := by rw [h.thread_eq]

instance : Std.Refl (Acts (σ := σ)) := ⟨.refl⟩

instance : Trans (Acts (σ := σ)) Acts Acts := ⟨.trans⟩

end Turn

namespace Exec

open Turn

/-- The position that a call returns to: the one behind its operands, or a numbered one. -/
def returnPosition : Exec σ Nat := do
  if (← shared).options.useReturnIds then do
    let id ← readU16
    checked ((← thread).script.returnAddress id)
  else pure (← get).pc

def callPosition : Exec σ Nat := expr >>= fun _ => returnPosition

theorem result_returnPosition (t : Turn σ) : returnPosition.result t =
    (if t.world.shared.options.useReturnIds then
      readU16 >>= fun id => thread >>= fun u => checked (u.script.returnAddress id)
    else get >>= fun u => pure u.pc : Exec σ Nat).result t := rfl

theorem composed_returnPosition : Composed Probe (returnPosition : Exec σ Nat) := by
  refine composed_shared.bind fun s => iteInduction (fun _ => ?_) fun _ => ?_
  · exact .bind (.step .readU16) fun _ => composed_thread.bind fun _ => .step (.checked _)
  · exact .bind (.step .get) fun _ => .pure _

theorem walks_returnPosition : Along Walks (returnPosition : Exec σ Nat) := composed_returnPosition.along Probe.walks

theorem holds_returnPosition {t : Turn σ} {target : Nat} (h : (returnPosition.result t).1 = .ok target)
    (hinside : t.Inside) : t.thread.script.Holds target := by
  rw [result_returnPosition] at h
  split at h
  · have hwalks := Probe.readU16.walks t
    rw [result_bind] at h
    revert h hwalks
    generalize readU16.result t = r
    obtain ⟨e | id, t'⟩ := r
    · intro h
      cases h
    · intro h hwalks
      have hscript : t'.thread.script = t.thread.script := hwalks.script_eq
      replace h : ((checked (t'.thread.script.returnAddress id) : Exec σ Nat).result t').1 = .ok target := h
      rw [result_checked, hscript] at h
      cases haddress : t.thread.script.returnAddress id with
      | error d =>
        rw [haddress] at h
        cases h
      | ok pos =>
        rw [haddress] at h
        cases h
        exact hinside.parsed.sound.holds_returnAddress haddress
  · cases h
    exact hinside.pc

/-- The turn goes to a label with a frame to return to `target` by, as far as it comes. -/
structure Enters (target : Nat) (t t' : Turn σ) : Prop where
  script_eq : t'.thread.script = t.thread.script
  start_eq : t'.thread.pc = t.thread.pc
  inside : t.Inside → t.thread.script.Holds target → t'.Inside
  calls : t'.thread.calls = t.thread.calls ∨
    t'.thread.calls = ⟨UInt32.ofNat target :: t.thread.calls.frames⟩

theorem enters_enter (target : Nat) (label : Int32) (t : Turn σ) :
    Enters target t ((enter target label).result t).2 := by
  rw [result_enter, CallStack.push]
  by_cases hdepth : t.thread.calls.depth < callStackDepth
  · rw [if_pos hdepth]
    dsimp only
    have hframes (h : t.Inside) (htarget : t.thread.script.Holds target) :
        ∀ frame ∈ UInt32.ofNat target :: t.thread.calls.frames, t.thread.script.Holds frame.toNat := by
      refine List.forall_mem_cons.mpr ⟨?_, h.frames⟩
      rw [h.parsed.sound.toNat_ofNat htarget]
      exact htarget
    cases hlabel : t.thread.script.label label with
    | error d => exact ⟨rfl, rfl, fun h htarget => ⟨h.parsed, h.pc, hframes h htarget, h.provided⟩, .inr rfl⟩
    | ok pos =>
      refine ⟨rfl, rfl, fun h htarget => ⟨h.parsed, ?_, hframes h htarget, h.provided⟩, .inr rfl⟩
      exact h.parsed.sound.holds_label hlabel
  · rw [if_neg hdepth]
    exact ⟨rfl, rfl, fun h _ => h, .inl rfl⟩

theorem result_bind_assoc {γ : Type} (x : Exec σ α) (f : α → Exec σ β) (g : β → Exec σ γ) (t : Turn σ) :
    ((x >>= f) >>= g).result t = (x >>= fun a => f a >>= g).result t := by
  rw [result_bind, result_bind, result_bind]
  generalize x.result t = r
  obtain ⟨e | a, t'⟩ := r
  · rfl
  · exact (result_bind t' (f a) g).symm

theorem result_call [Stage σ] (opcode : UInt16) (t : Turn σ) : (Instruction.call.run opcode).result t =
    (expr >>= fun label => returnPosition >>= fun target => enter target label).result t := by
  show (expr >>= _).result t = _
  rw [result_bind, result_bind]
  generalize expr.result t = r
  obtain ⟨e | label, t'⟩ := r
  · rfl
  · show (if t'.world.shared.options.useReturnIds then
        readU16 >>= fun id => thread >>= fun u => checked (u.script.returnAddress id) >>= fun target =>
          enter target label
      else get >>= fun u => enter u.pc label : Exec σ Flow).result t' =
      ((if t'.world.shared.options.useReturnIds then
        readU16 >>= fun id => thread >>= fun u => checked (u.script.returnAddress id)
      else get >>= fun u => pure u.pc : Exec σ Nat) >>= fun target => enter target label).result t'
    split
    · rw [result_bind_assoc]
      rfl
    · rfl

variable [Stage σ]

theorem result_ret (opcode : UInt16) (t : Turn σ) : (Instruction.ret.run opcode).result t =
    match t.thread.calls.frames with
    | [] => (.error (.fault .callStackUnderflow), t)
    | frame :: frames => (.ok .next, { t with thread.calls := ⟨frames⟩, pc := frame.toNat }) := by
  have hrun : (Instruction.ret.run opcode).result t = (permitted t.thread.calls.pop >>= fun p =>
      setThread { t.thread with calls := p.2 } >>= fun _ => setPc p.1 >>= fun _ => pure Flow.next).result t := rfl
  rw [hrun, result_bind, result_permitted, CallStack.pop]
  cases t.thread.calls.frames <;> rfl

/-- What can be chained and holds across the steps of instructions, across entering a label, returning and creating a
thread, holds across every instruction. -/
theorem along_run {R : Turn σ → Turn σ → Prop} [Std.Refl R] [Trans R R R] (opcode : UInt16) (i : Instruction)
    (hstep : ∀ {α : Type} {x : Exec σ α}, Primitive α x → Along R x) (henter : ∀ target label, Along R (enter target label))
    (hret : Along R (Instruction.ret.run opcode)) (hcreate : ∀ buffer label, Along R (create buffer label)) :
    Along R (i.run opcode) := by
  have hexpr := hstep (.probe .expr)
  by_cases hi : i = .call
  · subst hi
    have hposition := composed_returnPosition.primitive.along hstep
    intro t
    rw [result_call]
    exact hexpr.bind (fun label => hposition.bind fun target => henter target label) t
  by_cases hi' : i = .ret
  · subst hi'
    exact hret
  by_cases hi'' : i = .threadCreate
  · subst hi''
    exact hexpr.bind fun buffer => hexpr.bind fun label => hcreate buffer label
  · exact (composed_run opcode i hi hi' hi'').along hstep

theorem steps_call (opcode : UInt16) (t : Turn σ) : t.Steps ((Instruction.call.run opcode).result t).2 ∧
    (((Instruction.call.run opcode).result t).2.thread.calls = t.thread.calls ∨
      ∃ target, (callPosition.result t).1 = .ok target ∧ (t.Inside → t.thread.script.Holds target) ∧
        ((Instruction.call.run opcode).result t).2.thread.calls = ⟨UInt32.ofNat target :: t.thread.calls.frames⟩) := by
  have hexpr := Probe.expr.walks t
  rw [result_call, callPosition, result_bind, result_bind]
  revert hexpr
  generalize expr.result t = r
  obtain ⟨e | label, t₁⟩ := r
  · exact fun hexpr => ⟨hexpr.toSteps, .inl hexpr.calls_eq⟩
  · intro hexpr
    have hreturn := walks_returnPosition t₁
    have hholds (target : Nat) (h : (returnPosition.result t₁).1 = .ok target) :
        t₁.Inside → t₁.thread.script.Holds target := holds_returnPosition h
    dsimp only at hexpr ⊢
    rw [result_bind]
    revert hreturn hholds
    generalize returnPosition.result t₁ = r
    obtain ⟨e | target, t₂⟩ := r
    · intro hreturn _
      have hwalks := hexpr.trans hreturn
      exact ⟨hwalks.toSteps, .inl hwalks.calls_eq⟩
    · intro hreturn hholds
      have hwalks : t.Walks t₂ := hexpr.trans hreturn
      have henters := enters_enter target label t₂
      have hholds (h : t.Inside) : t.thread.script.Holds target := by
        rw [← hexpr.script_eq]
        exact hholds target rfl (hexpr.inside h)
      refine ⟨⟨henters.script_eq.trans hwalks.script_eq, henters.start_eq.trans hwalks.start_eq, fun h => ?_⟩, ?_⟩
      · refine henters.inside (hwalks.inside h) ?_
        rw [hwalks.script_eq]
        exact hholds h
      · have hcalls := henters.calls
        rw [hwalks.calls_eq] at hcalls
        exact hcalls.imp_right fun hpush => ⟨target, rfl, hholds, hpush⟩

theorem steps_ret (opcode : UInt16) (t : Turn σ) : t.Steps ((Instruction.ret.run opcode).result t).2 ∧
    (((Instruction.ret.run opcode).result t).2.thread.calls = t.thread.calls ∨
      ∃ frame frames, t.thread.calls.frames = frame :: frames ∧
        ((Instruction.ret.run opcode).result t).2.thread.calls = ⟨frames⟩) := by
  rw [result_ret]
  cases hframes : t.thread.calls.frames with
  | nil => exact ⟨.refl t, .inl rfl⟩
  | cons frame frames =>
    refine ⟨⟨rfl, rfl, fun h => ?_⟩, .inr ⟨frame, frames, rfl, rfl⟩⟩
    have hholds := h.frames
    rw [hframes] at hholds
    obtain ⟨hframe, hrest⟩ := List.forall_mem_cons.mp hholds
    exact ⟨h.parsed, hframe, hrest, h.provided⟩

theorem Primitive.acts {x : Exec σ α} (h : Primitive α x) : Along Acts x := by
  intro t
  cases h with
  | probe h => exact h.along (fun t _ _ => ⟨rfl, .refl t.world.stage⟩) t
  | setResult | request => exact ⟨rfl, .refl _⟩
  | @onStage intent f hf =>
    have hleads : Stage.Leads t.world.stage (f t.world.stage).value := by
      rw [hf]
      exact Stage.leads_heed _ intent
    exact ⟨rfl, hleads⟩
  | setFlag flag value =>
    simp only [result_bind, result_shared, result_checked]
    cases t.world.shared.globals.setFlag flag.toInt value <;> exact ⟨rfl, .refl _⟩
  | loadScript buffer id =>
    simp only [result_bind, result_shared, result_lift, result_checked]
    cases (t.world.shared.loadScript buffer.toInt id).value <;> exact ⟨rfl, .refl _⟩

/-- Every instruction, whatever it comes to, leaves the stage to intents and its thread in its state. -/
theorem acts_run (opcode : UInt16) (i : Instruction) : Along Acts (i.run opcode : Exec σ Flow) := by
  refine along_run opcode i Primitive.acts (fun target label t => ?_) (fun t => ?_) fun buffer label t => ?_
  · rw [result_enter]
    cases t.thread.calls.push target with
    | error f => exact .refl t
    | ok calls => cases t.thread.script.label label <;> exact ⟨rfl, .refl _⟩
  · rw [result_ret]
    cases t.thread.calls.frames <;> exact ⟨rfl, .refl _⟩
  · rw [result_create]
    cases hspawn : t.world.shared.spawn buffer.toInt label <;> exact ⟨rfl, .refl _⟩

end Exec
theorem stepResult_thread (id : ThreadId) (start : Nat) (r : Except Failure Flow) (t : Turn σ) :
    (stepResult id start (r, t)).thread.script = t.thread.script ∧
      (stepResult id start (r, t)).thread.calls = t.thread.calls ∧
      ((stepResult id start (r, t)).thread.pc = t.pc ∨ (stepResult id start (r, t)).thread.pc = t.thread.pc) ∧
      (stepResult id start (r, t)).world = t.world := by
  rcases r with (d | f) | flow
  · exact ⟨rfl, rfl, .inr rfl, rfl⟩
  · exact ⟨rfl, rfl, .inr rfl, rfl⟩
  · cases flow <;> exact ⟨rfl, rfl, .inl rfl, rfl⟩

theorem inside_of_opcode {thread : Thread} {world : World σ} {p : UInt16 × Cursor}
    (hopcode : (thread.cursorAt thread.pc).opcode = .ok p) (h : thread.Confined) (h' : world.shared.Provided) :
    (⟨thread, thread.pc + 2, world⟩ : Turn σ).Inside := by
  obtain ⟨chunk, hlength, hpasses⟩ := exists_passes_of_opcode hopcode
  have hpos : p.2.pos = thread.pc + 2 := by
    rw [hpasses.pos_eq, hlength]
    rfl
  have hholds := h.pc.of_passes hpasses
  rw [hpos] at hholds
  exact ⟨h.parsed, hholds, h.frames, h'⟩

variable [Stage σ]

/-- What an instruction may leave of the call stack of its thread. -/
inductive Thread.Stacks (thread : Thread) (world : World σ) : CallStack → Prop
  | same : thread.Stacks world thread.calls
  | called {target : Nat} (hinstruction : instructionAt thread world = .call)
      (htarget : (Exec.callPosition.result ⟨thread, thread.pc + 2, world⟩).1 = .ok target)
      (hholds : thread.script.Holds target) (hexact : (UInt32.ofNat target).toNat = target) :
      thread.Stacks world ⟨UInt32.ofNat target :: thread.calls.frames⟩
  | returned {frame : UInt32} {frames : List UInt32} (hinstruction : instructionAt thread world = .ret)
      (hframes : thread.calls.frames = frame :: frames) : thread.Stacks world ⟨frames⟩

structure StepOutcome.Stays (s : StepOutcome σ) (thread : Thread) (world : World σ) : Prop where
  script_eq : s.thread.script = thread.script
  confined : thread.Confined → world.shared.Provided → s.thread.Confined ∧ s.world.shared.Provided
  calls : thread.Confined → world.shared.Provided → thread.Stacks world s.thread.calls

theorem stacks_run {thread : Thread} {world : World σ} {i : Instruction} (opcode : UInt16)
    (hat : instructionAt thread world = i) :
    let t : Turn σ := ⟨thread, thread.pc + 2, world⟩
    t.Steps ((i.run opcode).result t).2 ∧
      (thread.script.Parsed → t.Inside → thread.Stacks world ((i.run opcode).result t).2.thread.calls) := by
  intro t
  by_cases hcall : i = .call
  · obtain ⟨hsteps, hcalls⟩ := Exec.steps_call opcode t
    rw [hcall]
    refine ⟨hsteps, fun hparsed h => ?_⟩
    obtain hsame | ⟨target, htarget, hholds, hpush⟩ := hcalls
    · rw [hsame]
      exact .same
    · rw [hpush]
      exact .called (hat.trans hcall) htarget (hholds h) (hparsed.sound.toNat_ofNat (hholds h))
  · by_cases hret : i = .ret
    · obtain ⟨hsteps, hcalls⟩ := Exec.steps_ret opcode t
      rw [hret]
      refine ⟨hsteps, fun _ _ => ?_⟩
      obtain hsame | ⟨frame, frames, hframes, hpop⟩ := hcalls
      · rw [hsame]
        exact .same
      · rw [hpop]
        exact .returned (hat.trans hret) hframes
    · have hwalks := Exec.walks_run opcode i hcall hret t
      refine ⟨hwalks.toSteps, fun _ _ => ?_⟩
      rw [hwalks.calls_eq]
      exact .same

theorem stays_step (id : ThreadId) (thread : Thread) (world : World σ) :
    (step id thread world).value.Stays thread world := by
  rw [step_value]
  cases hopcode : (thread.cursorAt thread.pc).opcode with
  | error d =>
    constructor
    · rfl
    · exact fun h h' => ⟨h, h'⟩
    · exact fun _ _ => .same
  | ok p =>
    let i := world.shared.options.instructionSet.instruction p.1
    let t : Turn σ := ⟨thread, thread.pc + 2, world⟩
    have hat : instructionAt thread world = i := by rw [instructionAt, hopcode]
    have hinside (h : thread.Confined) (h' : world.shared.Provided) : t.Inside := inside_of_opcode hopcode h h'
    obtain ⟨hsteps, hstacks⟩ := stacks_run p.1 hat
    show (stepResult id thread.pc ((i.run p.1).result t)).Stays thread world
    revert hsteps hstacks
    generalize (i.run p.1).result t = r
    obtain ⟨r, t'⟩ := r
    intro hsteps hstacks
    obtain ⟨hscript, hcalls, hpc, hworld⟩ := stepResult_thread id thread.pc r t'
    constructor
    · exact hscript.trans hsteps.script_eq
    · intro h h'
      have hafter := hsteps.inside (hinside h h')
      refine ⟨⟨?_, ?_, ?_⟩, ?_⟩
      · rw [hscript]
        exact hafter.parsed
      · rw [hscript]
        rcases hpc with hpc | hpc
        · rw [hpc]
          exact hafter.pc
        · rw [hpc, hsteps.start_eq, hsteps.script_eq]
          exact h.pc
      · rw [hscript, hcalls]
        exact hafter.frames
      · rw [hworld]
        exact hafter.provided
    · intro h h'
      rw [hcalls]
      exact hstacks h.parsed (hinside h h')

end NovelEngine
