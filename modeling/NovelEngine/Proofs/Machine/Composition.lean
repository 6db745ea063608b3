import NovelEngine.Machine.Recorder
import NovelEngine.Proofs.Machine.Tick

/-!
# What instructions are made of

An instruction is a sequence of steps. What holds across every step and can be chained holds across the instruction,
whatever it comes to. Calls, returns and the creation of threads have steps of their own.
-/
namespace NovelEngine

variable {σ α β : Type}

namespace Stage

variable [Stage σ] {s s' s'' : σ}

def heed (s : σ) : Intent → σ
  | .load slot asset => (load s slot asset).value
  | .release slot => (release s slot).value
  | .play buffer animation mode => (play s buffer animation mode).value
  | .pose buffer animation => (pose s buffer animation).value

/-- Some intents lead from one stage to the other. -/
def Leads (s s' : σ) : Prop := ∃ intents : List Intent, s' = intents.foldl heed s

theorem Leads.refl (s : σ) : Leads s s := ⟨[], rfl⟩

theorem Leads.trans (h : Leads s s') (h' : Leads s' s'') : Leads s s'' := by
  obtain ⟨intents, rfl⟩ := h
  obtain ⟨intents', rfl⟩ := h'
  exact ⟨intents ++ intents', List.foldl_append.symm⟩

theorem leads_heed (s : σ) (intent : Intent) : Leads s (heed s intent) := ⟨[intent], rfl⟩

end Stage

namespace Turn

def scope (t : Turn σ) : Scope := ⟨t.world.shared.globals, t.thread.locals, t.thread.result⟩

def moved (t : Turn σ) (pc : Nat) (scope : Scope) : Turn σ :=
  { t with pc, thread.locals := scope.locals, world.shared.globals := scope.globals }

end Turn

namespace Exec

/-- The steps that read the script on and look at the turn. -/
inductive Probe : (α : Type) → Exec σ α → Prop
  | get : Probe _ get
  | checked {α : Type} (r : Except Defect α) : Probe _ (checked r)
  | log (level : Level) (topic : Topic) (text : String) : Probe _ (log level topic text)
  | expr : Probe _ expr
  | readU8 : Probe _ readU8
  | readU16 : Probe _ readU16
  | jump (label : Int32) : Probe _ (jump label)

/-- The steps that instructions are made of. Some come with what closes the instruction. -/
inductive Primitive [Stage σ] : (α : Type) → Exec σ α → Prop
  | probe {α : Type} {x : Exec σ α} (h : Probe α x) : Primitive _ x
  | setResult (result : Int32) : Primitive _ (setResult result)
  | request (r : LifecycleRequest) : Primitive _ (request r)
  | onStage (intent : Intent) {f : σ → Noted σ} (hf : ∀ s, (f s).value = Stage.heed s intent) : Primitive _ (onStage f)
  | setFlag (flag : Int32) (value : Bool) :
    Primitive _ (shared >>= fun s => checked (s.globals.setFlag flag.toInt value) >>= fun globals =>
      setShared { s with globals } >>= fun _ => pure Flow.next)
  | loadScript (buffer id : Int32) :
    Primitive _ (shared >>= fun s => ExceptT.lift (StateT.lift (s.loadScript buffer.toInt id)) >>= fun r =>
      checked r >>= fun p => setShared p.2 >>= fun _ => Exec.setResult (truth p.1) >>= fun _ => pure Flow.next)

/-- The computation is a sequence of steps that have the property. -/
inductive Composed (P : (α : Type) → Exec σ α → Prop) : {α : Type} → Exec σ α → Prop
  | pure {α : Type} (a : α) : Composed P (pure a)
  | bind {α β : Type} {x : Exec σ α} {f : α → Exec σ β} (h : Composed P x) (hf : ∀ a, Composed P (f a)) :
    Composed P (x >>= f)
  | step {α : Type} {x : Exec σ α} (h : P α x) : Composed P x

/-- Whatever the computation comes to, the turn that it finds and the one that it leaves are so related. -/
def Along (R : Turn σ → Turn σ → Prop) (x : Exec σ α) : Prop := ∀ t, R t (x.result t).2

section

variable {R : Turn σ → Turn σ → Prop} {P : (α : Type) → Exec σ α → Prop} {x : Exec σ α} {f : α → Exec σ β}

theorem Along.bind [Trans R R R] (h : Along R x) (hf : ∀ a, Along R (f a)) : Along R (x >>= f) := by
  intro t
  have hx := h t
  rw [result_bind]
  revert hx
  generalize x.result t = r
  obtain ⟨e | a, t'⟩ := r
  · exact fun hx => hx
  · exact fun hx => Trans.trans hx (hf a t')

section

variable [Std.Refl R]

theorem along_pure (a : α) : Along R (pure a : Exec σ α) := fun t => Std.Refl.refl t

theorem along_permitted (r : Except Fault α) : Along R (permitted r : Exec σ α) := by
  intro t
  rw [result_permitted]
  exact Std.Refl.refl t

theorem along_lift (x : Noted α) : Along R (ExceptT.lift (StateT.lift x) : Exec σ α) := fun t => Std.Refl.refl t

end

/-- What can be chained and holds across the steps holds across what they are composed to. -/
theorem Composed.along [Std.Refl R] [Trans R R R] (h : Composed P x)
    (hstep : ∀ {α : Type} {x : Exec σ α}, P α x → Along R x) : Along R x := by
  induction h with
  | pure a => exact along_pure a
  | bind _ _ ih ihf => exact ih.bind ihf
  | step h => exact hstep h

theorem exists_moved_of_cursor (t : Turn σ) (r : Except Defect (α × Cursor)) (scope : Scope) :
    ∃ pc, ((checked r >>= fun p => setPc p.2.pos >>= fun _ => pure p.1).result (t.moved t.pc scope)).2 =
      t.moved pc scope := by
  rw [result_bind, result_checked]
  cases r with
  | error d => exact ⟨t.pc, rfl⟩
  | ok p => exact ⟨p.2.pos, rfl⟩

/-- A step of this kind moves the turn on and writes variables, and that is all. -/
theorem Probe.exists_moved (h : Probe α x) (t : Turn σ) : ∃ pc scope, (x.result t).2 = t.moved pc scope := by
  cases h with
  | get | log => exact ⟨t.pc, t.scope, rfl⟩
  | checked r =>
    rw [result_checked]
    exact ⟨t.pc, t.scope, rfl⟩
  | expr =>
    let r := evaluate (t.thread.cursorAt t.pc) t.scope
    obtain ⟨pc, h⟩ := exists_moved_of_cursor t r.1 r.2
    exact ⟨pc, r.2, h⟩
  | readU8 =>
    obtain ⟨pc, h⟩ := exists_moved_of_cursor t (t.thread.cursorAt t.pc).u8 t.scope
    exact ⟨pc, t.scope, h⟩
  | readU16 =>
    obtain ⟨pc, h⟩ := exists_moved_of_cursor t (t.thread.cursorAt t.pc).u16 t.scope
    exact ⟨pc, t.scope, h⟩
  | jump label =>
    show ∃ pc scope, ((Exec.checked (t.thread.script.label label) >>= setPc).result t).2 = t.moved pc scope
    rw [result_bind, result_checked]
    cases t.thread.script.label label with
    | error d => exact ⟨t.pc, t.scope, rfl⟩
    | ok pos => exact ⟨pos, t.scope, rfl⟩

theorem Probe.along (h : Probe α x) (hmoved : ∀ t pc scope, R t (t.moved pc scope)) : Along R x := by
  intro t
  obtain ⟨pc, scope, heq⟩ := h.exists_moved t
  rw [heq]
  exact hmoved t pc scope

end

theorem composed_thread : Composed Probe (thread : Exec σ Thread) := .bind (.step .get) fun _ => .pure _

theorem composed_shared : Composed Probe (shared : Exec σ Shared) := .bind (.step .get) fun _ => .pure _

theorem composed_operands (count : Nat) : Composed Probe (Instruction.operands count : Exec σ (List Int32)) := by
  induction count with
  | zero => exact .pure _
  | succ count ih => exact .bind (.step .expr) fun _ => ih.bind fun _ => .pure _

theorem composed_report (i : Instruction) (operands : List (String × Int32)) :
    Composed Probe (i.report operands : Exec σ Flow) :=
  .bind (.step (.log _ _ _)) fun _ => .pure _

variable [Stage σ] {x : Exec σ α} {f : α → Exec σ β}

theorem Composed.primitive (h : Composed Probe x) : Composed Primitive x := by
  induction h with
  | pure a => exact .pure a
  | bind _ _ ih ihf => exact ih.bind ihf
  | step h => exact .step (.probe h)

theorem Primitive.bind (h : Primitive α x) (hf : ∀ a, Composed Primitive (f a)) : Composed Primitive (x >>= f) :=
  .bind (.step h) hf

theorem Probe.bind (h : Probe α x) (hf : ∀ a, Composed Primitive (f a)) : Composed Primitive (x >>= f) :=
  (Primitive.probe h).bind hf

theorem composed_withAnimation (i : Instruction) (buffer animation : Int32) (intent : UInt16 → Intent)
    {f : UInt16 → σ → Noted σ} (hf : ∀ id s, (f id s).value = Stage.heed s (intent id)) :
    Composed Primitive (i.withAnimation buffer animation fun id => onStage (f id)) :=
  iteInduction (fun _ => .step (.onStage (intent _) (hf _))) fun _ => .step (.probe (.log _ _ _))

theorem composed_run (opcode : UInt16) (i : Instruction) (hcall : i ≠ .call) (hret : i ≠ .ret)
    (hcreate : i ≠ .threadCreate) : Composed Primitive (i.run opcode : Exec σ Flow) := by
  have hnext : Composed (σ := σ) Primitive (pure Flow.next) := .pure _
  cases i with
  | call => exact absurd rfl hcall
  | ret => exact absurd rfl hret
  | threadCreate => exact absurd rfl hcreate
  | exit | yield | suspend | empty0204 | characterSwap | empty02xx | empty0240 => exact .pure _
  | jump => exact Probe.expr.bind fun _ => (Probe.jump _).bind fun _ => hnext
  | jumpIf =>
    refine Probe.expr.bind fun condition => Probe.expr.bind fun label => ?_
    exact iteInduction (fun _ => (Probe.jump label).bind fun _ => hnext) fun _ => hnext
  | wait | assign => exact Probe.expr.bind fun _ => .pure _
  | threadKill | threadPause | threadResume =>
    exact Probe.expr.bind fun _ => (Primitive.request _).bind fun _ => hnext
  | signalSet | signalClear => exact Probe.expr.bind fun flag => .step (.setFlag flag _)
  | signalWait =>
    refine Probe.expr.bind fun flag => composed_shared.primitive.bind fun s => (Probe.checked _).bind fun set => ?_
    exact iteInduction (fun _ => hnext) fun _ => .pure _
  | scriptLoad => exact Probe.expr.bind fun buffer => Probe.expr.bind fun id => .step (.loadScript buffer id)
  | debugPrint => exact Probe.expr.bind fun _ => Probe.get.bind fun _ => (Probe.log _ _ _).bind fun _ => hnext
  | backgroundLoad =>
    exact Probe.expr.bind fun asset =>
      (Primitive.onStage (.load .background asset.toUInt32) fun _ => rfl).bind fun _ => hnext
  | backgroundRelease => exact (Primitive.onStage (.release .background) fun _ => rfl).bind fun _ => hnext
  | loadWait =>
    refine Probe.readU8.bind fun code => Probe.expr.bind fun index => ?_
    cases Category.ofCode? code with
    | none => exact (Probe.log _ _ _).bind fun _ => (Primitive.setResult _).bind fun _ => hnext
    | some category =>
      refine Probe.get.bind fun t => ?_
      exact iteInduction (fun _ => (Primitive.setResult _).bind fun _ => hnext) fun _ => .pure _
  | characterLoad =>
    exact Probe.expr.bind fun buffer => Probe.expr.bind fun _ => Probe.expr.bind fun model =>
      (Probe.log _ _ _).bind fun _ =>
      (Primitive.onStage (.load (.character buffer.toUInt32) model.toUInt32) fun _ => rfl).bind fun _ => hnext
  | characterRelease =>
    exact Probe.expr.bind fun buffer =>
      (Primitive.onStage (.release (.character buffer.toUInt32)) fun _ => rfl).bind fun _ => hnext
  | playAnimation =>
    exact Probe.expr.bind fun buffer => Probe.expr.bind fun animation => Probe.readU8.bind fun mode =>
      (Probe.log _ _ _).bind fun _ => (composed_withAnimation _ buffer animation
        (fun id => .play buffer.toUInt32 id mode) fun _ _ => rfl).bind fun _ => hnext
  | setAnimation =>
    exact Probe.expr.bind fun buffer => Probe.expr.bind fun animation =>
      (Probe.log _ _ _).bind fun _ => (composed_withAnimation _ buffer animation
        (fun id => .pose buffer.toUInt32 id) fun _ _ => rfl).bind fun _ => hnext
  | stub0207 => exact Probe.expr.bind fun _ => Probe.readU8.bind fun _ => (composed_report _ _).primitive
  | stub0208 => exact ((composed_operands 5).bind fun _ => composed_report _ _).primitive
  | stub0219 => exact Probe.expr.bind fun _ => (composed_report _ _).primitive
  | unknown => exact (composed_thread.bind fun _ => .bind (.step (.log _ _ _)) fun _ => .pure _).primitive

end Exec
end NovelEngine
