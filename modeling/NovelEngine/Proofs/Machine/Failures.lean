import NovelEngine.Proofs.Machine.Calls

/-!
# What failing instructions leave

An instruction reads its operands first, and what it does after its last chance to fail is all that it does to anything
but variables. So an instruction that fails has written variables at most. The one exception is a call: it stores its
frame before it looks up the label that it goes to.
-/
namespace NovelEngine

variable {σ α β : Type}

/-- The turn has gone on and changed nothing but variables and the call stack. -/
structure Turn.Touches (t t' : Turn σ) : Prop where
  thread_eq : t'.thread = { t.thread with locals := t'.thread.locals, calls := t'.thread.calls }
  world_eq : t'.world = { t.world with shared.globals := t'.world.shared.globals }

structure Turn.Evaluates (t t' : Turn σ) : Prop extends t.Touches t' where
  calls_eq : t'.thread.calls = t.thread.calls

namespace Turn

variable {t t' t'' : Turn σ}

theorem Touches.trans (h : t.Touches t') (h' : t'.Touches t'') : t.Touches t'' := by
  refine ⟨?_, ?_⟩
  · rw [h'.thread_eq, h.thread_eq]
  · rw [h'.world_eq, h.world_eq]

theorem Evaluates.refl (t : Turn σ) : t.Evaluates t := ⟨⟨rfl, rfl⟩, rfl⟩

theorem Evaluates.trans (h : t.Evaluates t') (h' : t'.Evaluates t'') : t.Evaluates t'' :=
  ⟨h.toTouches.trans h'.toTouches, h'.calls_eq.trans h.calls_eq⟩

instance : Std.Refl (Evaluates (σ := σ)) := ⟨.refl⟩

instance : Trans (Evaluates (σ := σ)) Evaluates Evaluates := ⟨.trans⟩

end Turn

namespace Exec

variable {x : Exec σ α} {f : α → Exec σ β}

theorem Probe.evaluates (h : Probe α x) : Along Turn.Evaluates x := h.along fun _ _ _ => ⟨⟨rfl, rfl⟩, rfl⟩

theorem Composed.evaluates (h : Composed Probe x) : Along Turn.Evaluates x := h.along Probe.evaluates

/-- If the computation fails, it has only read on and evaluated. -/
def Careful (x : Exec σ α) : Prop := ∀ (t : Turn σ) e, (x.result t).1 = .error e → t.Evaluates (x.result t).2

def Succeeds (x : Exec σ α) : Prop := ∀ t, ∃ a, (x.result t).1 = .ok a

theorem Composed.careful (h : Composed Probe x) : Careful x := fun t _ _ => h.evaluates t

theorem Succeeds.careful (h : Succeeds x) : Careful x := by
  intro t e he
  obtain ⟨a, ha⟩ := h t
  rw [ha] at he
  cases he

theorem Along.bind_careful (h : Along Turn.Evaluates x) (hf : ∀ a, Careful (f a)) : Careful (x >>= f) := by
  intro t e he
  have hx := h t
  rw [result_bind] at he ⊢
  revert hx he
  generalize x.result t = r
  obtain ⟨e' | a, t'⟩ := r
  · exact fun _ hx => hx
  · exact fun he hx => hx.trans (hf a t' e he)

theorem Probe.bind_careful (h : Probe α x) (hf : ∀ a, Careful (f a)) : Careful (x >>= f) :=
  h.evaluates.bind_careful hf

theorem succeeds_pure (a : α) : Succeeds (pure a : Exec σ α) := fun _ => ⟨a, rfl⟩

theorem Succeeds.bind (h : Succeeds x) (hf : ∀ a, Succeeds (f a)) : Succeeds (x >>= f) := by
  intro t
  obtain ⟨a, ha⟩ := h t
  rw [result_bind]
  revert ha
  generalize x.result t = r
  obtain ⟨r, t'⟩ := r
  rintro rfl
  exact hf a t'

theorem succeeds_get : Succeeds (get : Exec σ (Turn σ)) := fun t => ⟨t, rfl⟩

theorem succeeds_log (level : Level) (topic : Topic) (text : String) :
    Succeeds (log level topic text : Exec σ Unit) := fun _ => ⟨_, rfl⟩

theorem succeeds_setThread (thread : Thread) : Succeeds (setThread thread : Exec σ Unit) := fun _ => ⟨_, rfl⟩

theorem succeeds_setShared (shared : Shared) : Succeeds (setShared shared : Exec σ Unit) := fun _ => ⟨_, rfl⟩

theorem succeeds_setPc (pc : Nat) : Succeeds (setPc pc : Exec σ Unit) := fun _ => ⟨_, rfl⟩

theorem succeeds_setResult (result : Int32) : Succeeds (setResult result : Exec σ Unit) := fun _ => ⟨_, rfl⟩

theorem succeeds_request (r : LifecycleRequest) : Succeeds (request r : Exec σ Unit) := fun _ => ⟨_, rfl⟩

theorem succeeds_onStage (f : σ → Noted σ) : Succeeds (onStage f : Exec σ Unit) := fun _ => ⟨_, rfl⟩

theorem succeeds_withAnimation (i : Instruction) (buffer animation : Int32) (f : UInt16 → σ → Noted σ) :
    Succeeds (i.withAnimation buffer animation fun id => onStage (f id)) :=
  iteInduction (fun _ => succeeds_onStage _) fun _ => succeeds_log _ _ _

/-- The computation meets no other faults than these. -/
def Meets (p : Fault → Prop) (x : Exec σ α) : Prop := ∀ t f, (x.result t).1 = .error (.fault f) → p f

def Faultless (x : Exec σ α) : Prop := Meets (fun _ => False) x

section

variable {p : Fault → Prop} {P : (α : Type) → Exec σ α → Prop}

theorem Faultless.meets (h : Faultless x) : Meets p x := fun t f hf => (h t f hf).elim

theorem Succeeds.faultless (h : Succeeds x) : Faultless x := by
  intro t f hf
  obtain ⟨a, ha⟩ := h t
  rw [ha] at hf
  cases hf

theorem Meets.bind (h : Meets p x) (hf : ∀ a, Meets p (f a)) : Meets p (x >>= f) := by
  intro t e
  have hx := h t e
  rw [result_bind]
  revert hx
  generalize x.result t = r
  obtain ⟨e' | a, t'⟩ := r
  · intro hx heq
    cases heq
    exact hx rfl
  · exact fun _ => hf a t' e

theorem Faultless.exists_of_bind {e : Fault} {t t' : Turn σ} (h : Faultless x)
    (hfault : (x >>= f).result t = (.error (.fault e), t')) :
    ∃ a t₁, x.result t = (.ok a, t₁) ∧ (f a).result t₁ = (.error (.fault e), t') := by
  have hx := h t e
  rw [result_bind] at hfault
  cases hr : x.result t with
  | mk r t₁ =>
    rw [hr] at hfault hx
    cases r with
    | error e' =>
      cases hfault
      exact (hx rfl).elim
    | ok a => exact ⟨a, t₁, rfl, hfault⟩

theorem Composed.meets (h : Composed P x) (hstep : ∀ {α : Type} {x : Exec σ α}, P α x → Meets p x) : Meets p x := by
  induction h with
  | pure a => exact (succeeds_pure a).faultless.meets
  | bind _ _ ih ihf => exact ih.bind ihf
  | step h => exact hstep h

end

theorem faultless_checked (r : Except Defect α) : Faultless (checked r : Exec σ α) := by
  intro t f
  rw [result_checked]
  cases r <;> simp [Except.mapError]

theorem faultless_cursor (r : Except Defect (α × Cursor)) :
    Faultless (checked r >>= fun p => setPc p.2.pos >>= fun _ => pure p.1 : Exec σ α) :=
  (faultless_checked r).bind fun _ => ((succeeds_setPc _).bind fun _ => succeeds_pure _).faultless

theorem Probe.faultless (h : Probe α x) : Faultless x := by
  cases h with
  | get => exact succeeds_get.faultless
  | checked r => exact faultless_checked r
  | log level topic text => exact (succeeds_log level topic text).faultless
  | expr =>
    intro t
    let r := evaluate (t.thread.cursorAt t.pc) t.scope
    exact faultless_cursor r.1 (t.moved t.pc r.2)
  | readU8 => exact fun t => faultless_cursor (t.thread.cursorAt t.pc).u8 t
  | readU16 => exact fun t => faultless_cursor (t.thread.cursorAt t.pc).u16 t
  | jump label =>
    intro t
    exact (faultless_checked (t.thread.script.label label)).bind (fun _ => (succeeds_setPc _).faultless) t

theorem Composed.faultless (h : Composed Probe x) : Faultless x := h.meets Probe.faultless

variable [Stage σ]

/-- Every instruction but a call does what it does to anything but variables when it cannot fail any more. -/
theorem careful_run (opcode : UInt16) (i : Instruction) (hcall : i ≠ .call) :
    Careful (i.run opcode : Exec σ Flow) := by
  cases i with
  | call => exact absurd rfl hcall
  | exit | yield | suspend | empty0204 | characterSwap | empty02xx | empty0240 => exact (succeeds_pure _).careful
  | jump =>
    exact Probe.expr.bind_careful fun label => (Probe.jump label).bind_careful fun _ => (succeeds_pure _).careful
  | jumpIf =>
    refine Probe.expr.bind_careful fun condition => Probe.expr.bind_careful fun label => ?_
    refine iteInduction (fun _ => ?_) fun _ => (succeeds_pure _).careful
    exact (Probe.jump label).bind_careful fun _ => (succeeds_pure _).careful
  | ret =>
    refine composed_thread.evaluates.bind_careful fun t => (along_permitted _).bind_careful fun p => ?_
    exact ((succeeds_setThread _).bind fun _ => (succeeds_setPc _).bind fun _ => succeeds_pure _).careful
  | wait | assign => exact Probe.expr.bind_careful fun _ => (succeeds_pure _).careful
  | threadCreate =>
    refine Probe.expr.bind_careful fun buffer => Probe.expr.bind_careful fun label =>
      composed_shared.evaluates.bind_careful fun s => (along_permitted _).bind_careful fun p => ?_
    exact ((succeeds_setShared _).bind fun _ => (succeeds_request _).bind fun _ => (succeeds_setResult _).bind fun _ =>
      succeeds_pure _).careful
  | threadKill | threadPause | threadResume =>
    exact Probe.expr.bind_careful fun _ => ((succeeds_request _).bind fun _ => succeeds_pure _).careful
  | signalSet | signalClear =>
    refine Probe.expr.bind_careful fun flag => composed_shared.evaluates.bind_careful fun s =>
      (Probe.checked _).bind_careful fun globals => ?_
    exact ((succeeds_setShared _).bind fun _ => succeeds_pure _).careful
  | signalWait =>
    refine Probe.expr.bind_careful fun flag => composed_shared.evaluates.bind_careful fun s =>
      (Probe.checked _).bind_careful fun set => ?_
    exact iteInduction (fun _ => (succeeds_pure _).careful) fun _ => (succeeds_pure _).careful
  | scriptLoad =>
    refine Probe.expr.bind_careful fun buffer => Probe.expr.bind_careful fun id =>
      composed_shared.evaluates.bind_careful fun s => (along_lift _).bind_careful fun r =>
        (Probe.checked _).bind_careful fun p => ?_
    exact ((succeeds_setShared _).bind fun _ => (succeeds_setResult _).bind fun _ => succeeds_pure _).careful
  | debugPrint =>
    exact Probe.expr.bind_careful fun _ => Probe.get.bind_careful fun _ =>
      ((succeeds_log _ _ _).bind fun _ => succeeds_pure _).careful
  | backgroundLoad | characterRelease =>
    exact Probe.expr.bind_careful fun _ => ((succeeds_onStage _).bind fun _ => succeeds_pure _).careful
  | backgroundRelease => exact ((succeeds_onStage _).bind fun _ => succeeds_pure _).careful
  | loadWait =>
    refine Probe.readU8.bind_careful fun code => Probe.expr.bind_careful fun index => ?_
    cases Category.ofCode? code with
    | none =>
      exact ((succeeds_log _ _ _).bind fun _ => (succeeds_setResult _).bind fun _ => succeeds_pure _).careful
    | some category =>
      refine Probe.get.bind_careful fun t => iteInduction (fun _ => ?_) fun _ => (succeeds_pure _).careful
      exact ((succeeds_setResult _).bind fun _ => succeeds_pure _).careful
  | characterLoad =>
    exact Probe.expr.bind_careful fun _ => Probe.expr.bind_careful fun _ => Probe.expr.bind_careful fun _ =>
      ((succeeds_log _ _ _).bind fun _ => (succeeds_onStage _).bind fun _ => succeeds_pure _).careful
  | playAnimation =>
    exact Probe.expr.bind_careful fun _ => Probe.expr.bind_careful fun _ => Probe.readU8.bind_careful fun _ =>
      ((succeeds_log _ _ _).bind fun _ => (succeeds_withAnimation _ _ _ _).bind fun _ => succeeds_pure _).careful
  | setAnimation =>
    exact Probe.expr.bind_careful fun _ => Probe.expr.bind_careful fun _ =>
      ((succeeds_log _ _ _).bind fun _ => (succeeds_withAnimation _ _ _ _).bind fun _ => succeeds_pure _).careful
  | stub0207 =>
    exact Probe.expr.bind_careful fun _ => Probe.readU8.bind_careful fun _ => (composed_report _ _).careful
  | stub0208 => exact (composed_operands 5).evaluates.bind_careful fun _ => (composed_report _ _).careful
  | stub0219 => exact Probe.expr.bind_careful fun _ => (composed_report _ _).careful
  | unknown =>
    exact composed_thread.evaluates.bind_careful fun _ => (Probe.log _ _ _).bind_careful fun _ =>
      (succeeds_pure _).careful

/-- What a failed instruction leaves: written variables, and in the case of a call that has missed its label also the
frame of the call. -/
inductive Leaves (i : Instruction) (t t' : Turn σ) : Failure → Prop
  | written (e : Failure) (h : t.Evaluates t') : Leaves i t t' e
  | called (d : Defect) (target : Nat) (hcall : i = .call) (h : t.Touches t')
    (htarget : (callPosition.result t).1 = .ok target)
    (hframe : t'.thread.calls = ⟨UInt32.ofNat target :: t.thread.calls.frames⟩) : Leaves i t t' (.defect d)

theorem leaves_call (opcode : UInt16) {t : Turn σ} {e : Failure}
    (h : ((Instruction.call.run opcode).result t).1 = .error e) :
    Leaves .call t ((Instruction.call.run opcode).result t).2 e := by
  have hexpr := Probe.expr.evaluates t
  rw [result_call, result_bind] at h ⊢
  cases hlabel : expr.result t with
  | mk r t₁ =>
    rw [hlabel] at h hexpr
    cases r with
    | error e' => exact .written e hexpr
    | ok label =>
      have hreturn := hexpr.trans (composed_returnPosition.evaluates t₁)
      dsimp only at h ⊢
      rw [result_bind] at h ⊢
      cases htarget : returnPosition.result t₁ with
      | mk r t₂ =>
        rw [htarget] at h hreturn
        cases r with
        | error e' => exact .written e hreturn
        | ok target =>
          have hposition : (callPosition.result t).1 = .ok target := by
            rw [callPosition, result_bind, hlabel]
            exact congrArg Prod.fst htarget
          dsimp only at h hreturn ⊢
          rw [result_enter] at h ⊢
          cases hpush : t₂.thread.calls.push target with
          | error f => exact .written e hreturn
          | ok calls =>
            rw [hpush] at h
            cases hmiss : t₂.thread.script.label label with
            | ok pos =>
              rw [hmiss] at h
              cases h
            | error d =>
              rw [hmiss] at h
              cases h
              have hcalls : calls = ⟨UInt32.ofNat target :: t.thread.calls.frames⟩ := by
                rw [← hreturn.calls_eq]
                unfold CallStack.push at hpush
                split at hpush
                · exact (Except.ok.inj hpush).symm
                · cases hpush
              refine .called d target rfl ⟨?_, ?_⟩ hposition hcalls
              · exact congrArg (fun thread : Thread => { thread with calls }) hreturn.thread_eq
              · exact hreturn.world_eq

theorem leaves_run (opcode : UInt16) (i : Instruction) {t : Turn σ} {e : Failure}
    (h : ((i.run opcode).result t).1 = .error e) : Leaves i t ((i.run opcode).result t).2 e := by
  by_cases hcall : i = .call
  · subst hcall
    exact leaves_call opcode h
  · exact .written e (careful_run opcode i hcall t e h)

theorem Primitive.faultless (h : Primitive α x) : Faultless x := by
  cases h with
  | probe h => exact h.faultless
  | setResult result => exact (succeeds_setResult result).faultless
  | request r => exact (succeeds_request r).faultless
  | onStage intent hf => exact (succeeds_onStage _).faultless
  | setFlag flag value =>
    refine composed_shared.faultless.bind fun s => (faultless_checked _).bind fun globals => ?_
    exact ((succeeds_setShared _).bind fun _ => succeeds_pure _).faultless
  | loadScript buffer id =>
    refine composed_shared.faultless.bind fun s => Meets.bind (fun _ _ => nofun) fun r =>
      (faultless_checked r).bind fun p => ?_
    exact ((succeeds_setShared _).bind fun _ => (succeeds_setResult _).bind fun _ => succeeds_pure _).faultless

/-- Only calls, returns and the creation of threads meet faults. -/
theorem faultless_run (opcode : UInt16) (i : Instruction) (hcall : i ≠ .call) (hret : i ≠ .ret)
    (hcreate : i ≠ .threadCreate) : Faultless (i.run opcode : Exec σ Flow) :=
  (composed_run opcode i hcall hret hcreate).meets Primitive.faultless

end Exec

variable [Stage σ] {id : ThreadId} {thread : Thread} {world : World σ}

/-- A step that has met a defect has written variables at most, or its call has also stored its frame. -/
structure StepOutcome.Halts (s : StepOutcome σ) (id : ThreadId) (thread : Thread) (world : World σ) (halt : Halt) :
    Prop where
  halt_thread : halt.thread = id
  halt_pc : halt.pc = thread.pc
  thread_eq : s.thread = { thread with locals := s.thread.locals, calls := s.thread.calls }
  world_eq : s.world = { world with shared.globals := s.world.shared.globals }
  calls : s.thread.calls = thread.calls ∨ instructionAt thread world = .call ∧
    ∃ target, (Exec.callPosition.result ⟨thread, thread.pc + 2, world⟩).1 = .ok target ∧
      s.thread.calls = ⟨UInt32.ofNat target :: thread.calls.frames⟩

theorem halts_step {halt : Halt} (h : (step id thread world).value.ending = .halted halt) :
    (step id thread world).value.Halts id thread world halt := by
  rw [step_value] at h ⊢
  cases hopcode : (thread.cursorAt thread.pc).opcode with
  | error d =>
    rw [hopcode] at h
    cases h
    exact ⟨rfl, rfl, rfl, rfl, .inl rfl⟩
  | ok p =>
    let i := world.shared.options.instructionSet.instruction p.1
    let t : Turn σ := ⟨thread, thread.pc + 2, world⟩
    have hat : instructionAt thread world = i := by rw [instructionAt, hopcode]
    rw [hopcode] at h
    replace h : (stepResult id thread.pc ((i.run p.1).result t)).ending = .halted halt := h
    show (stepResult id thread.pc ((i.run p.1).result t)).Halts id thread world halt
    have hleaves (e : Failure) (he : ((i.run p.1).result t).1 = .error e) := Exec.leaves_run p.1 i he
    revert h hleaves
    generalize (i.run p.1).result t = r
    obtain ⟨(d | f) | flow, t'⟩ := r
    · intro h hleaves
      cases h
      cases hleaves _ rfl with
      | written _ h => exact ⟨rfl, rfl, h.thread_eq, h.world_eq, .inl h.calls_eq⟩
      | called _ target hcall h htarget hframe =>
        exact ⟨rfl, rfl, h.thread_eq, h.world_eq, .inr ⟨hat.trans hcall, target, htarget, hframe⟩⟩
    · intro h
      cases h
    · intro h
      cases h

end NovelEngine
